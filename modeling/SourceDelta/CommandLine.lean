import SourceDelta.Path
import SourceDelta.Text.Cut
import SourceDelta.Text.Digits

/-!
# The command line

Arguments are read from left to right. Options may stand before and after
positional arguments, as `--name value` or `--name=value`; after `--` everything
is positional. The first argument that is wrong, or asks for help or the
version, ends the reading; the value of an option is looked at after the next
argument is known, so that a subcommand right behind it is read first. The names
of subcommands are written in full.
-/

set_option autoImplicit false

namespace SourceDelta
open SourceDelta.Text

inductive StoreCommand
  | status
  | flags (path : Option String) (kind : String)
  | list (flag kind : String)
  | rollback (force : Bool)
  | clearHistory (force : Bool)
  | log (limit : Option Nat)
  deriving DecidableEq

inductive Command
  | parse (diff : Option String) (revisions : Option (List String)) (repository : String)
      (json : Bool)
  | map (diff path : String) (line : UInt32) (reverse : Bool)
  | apply (diff tree : String)
  | store (command : StoreCommand)
  deriving DecidableEq

structure Invocation where
  config : Option String
  command : Command
  deriving DecidableEq

namespace CommandLine

/-- Where in the command line a reader is: the program itself or one of its subcommands. -/
inductive Level
  | root | parse | map | apply | store | status | flags | list | rollback | clearHistory | log
  deriving DecidableEq

namespace Level

def subcommands : Level → List (String × Level)
  | root => [("parse", parse), ("map", map), ("apply", apply), ("store", store)]
  | store => [("status", status), ("flags", flags), ("list", list), ("rollback", rollback),
      ("clear-history", clearHistory), ("log", log)]
  | _ => []

def title : Level → String
  | root => "varidelta"
  | parse => "varidelta-parse"
  | map => "varidelta-map"
  | apply => "varidelta-apply"
  | store => "varidelta-store"
  | status => "varidelta-store-status"
  | flags => "varidelta-store-flags"
  | list => "varidelta-store-list"
  | rollback => "varidelta-store-rollback"
  | clearHistory => "varidelta-store-clear-history"
  | log => "varidelta-store-log"

end Level

inductive Ending
  | wrong
  | help
  | version (level : Level)
  deriving DecidableEq

def versionNumber : String := "0.1.0"

/-- What is printed on standard output when the text does not depend on the help of the program. -/
def Ending.text? : Ending → Option String
  | version level => some (level.title ++ " " ++ versionNumber ++ "\n")
  | _ => none

def Ending.exitCode : Ending → Nat
  | wrong => 2
  | _ => 0

inductive Opt
  | config | verbose | help | version | git | repo | json | reverse | tree | force | flag | kind
  | limit
  deriving DecidableEq

namespace Opt

def shared : List (String × Opt) :=
  [("config", config), ("verbose", verbose), ("help", help), ("version", version)]

def own : Level → List (String × Opt)
  | .parse => [("git", git), ("repo", repo), ("json", json)]
  | .map => [("reverse", reverse)]
  | .apply => [("tree", tree)]
  | .flags => [("kind", kind)]
  | .list => [("flag", flag), ("kind", kind)]
  | .rollback | .clearHistory => [("force", force)]
  | .log => [("limit", limit)]
  | _ => []

def ofName? (level : Level) (name : String) : Option Opt := (own level ++ shared).lookup name

def ofLetter? : Char → Option Opt
  | 'v' => some verbose
  | 'h' => some help
  | 'V' => some version
  | _ => none

def arity : Opt → Nat
  | git => 2
  | config | repo | tree | flag | kind | limit => 1
  | _ => 0

def repeats : Opt → Bool
  | git | verbose => true
  | _ => false

end Opt

def number? (bound : Nat) (s : String) : Option Nat := do
  let ds := match s.toList with
    | '+' :: ds => ds
    | ds => ds
  let n ← natural? ds
  if n < bound then some n else none

def Opt.accepts : Opt → String → Bool
  | .config, s | .repo, s | .tree, s => s ≠ ""
  | .limit, s => (number? UInt64.size s).isSome
  | _, _ => true

/-- The number of a line: zero may have a minus sign. -/
def line? (s : String) : Option Nat :=
  match s.toList with
  | '-' :: ds => (natural? ds).filter (· = 0)
  | _ => number? UInt32.size s

def positions : Level → List (String → Bool)
  | .parse | .apply => [(· ≠ "")]
  | .map => [(· ≠ ""), fun _ => true, fun s => (line? s).isSome]
  | .flags => [fun _ => true]
  | _ => []

/-- What a level has been given: options with their values and positional arguments, each last
first. -/
structure Given where
  options : List (Opt × List String)
  values : List String
  waiting : Option (Opt × List String)

namespace Given

def start : Given := ⟨[], [], none⟩

def has (g : Given) (o : Opt) : Bool := g.options.any (·.1 == o)

def all? (g : Given) (o : Opt) : Option (List String) :=
  if g.has o then some ((g.options.reverse.filter (·.1 == o)).flatMap (·.2)) else none

def one? (g : Given) (o : Opt) : Option String := do (← g.all? o).head?

def value? (g : Given) (i : Nat) : Option String := g.values.reverse[i]?

def add (g : Given) (o : Opt) (values : List String) : Except Ending Given :=
  if (g.has o && !o.repeats) || values.length ≠ o.arity || !values.all o.accepts then .error .wrong
  else .ok { g with options := (o, values) :: g.options }

def settle (g : Given) : Except Ending Given :=
  match g.waiting with
  | none => .ok g
  | some (o, values) => add { g with waiting := none } o values

def await (g : Given) (o : Opt) (values : List String) : Given :=
  { g with waiting := some (o, values) }

def config? (g : Given) : Option String :=
  match g.waiting with
  | some (.config, values) => values.head?
  | _ => g.one? .config

def addValue (g : Given) (level : Level) (s : String) : Except Ending Given :=
  match (positions level)[g.values.length]? with
  | some accepts => if accepts s then .ok { g with values := s :: g.values } else .error .wrong
  | none => .error .wrong

def flag (g : Given) (level : Level) : Opt → Except Ending Given
  | .help => .error .help
  | .version => .error (.version level)
  | o => g.add o []

def letters (g : Given) (level : Level) : List Char → Except Ending Given
  | [] => .ok g
  | c :: cs =>
    match Opt.ofLetter? c with
    | none => .error .wrong
    | some o =>
      match g.flag level o with
      | .error e => .error e
      | .ok g => letters g level cs

end Given

/-- A text that can be the value of an option. A lone dash is one. -/
def isValue (s : String) : Bool := !startsWith ['-'] s.toList || s = "-"

def cutName (cs : List Char) : String × Option String :=
  match cs.dropWhile (· ≠ '=') with
  | [] => (String.ofList cs, none)
  | _ :: value => (String.ofList (cs.takeWhile (· ≠ '=')), some (String.ofList value))

def command (level : Level) (g : Given) : Except Ending Command :=
  let kind := (g.one? .kind).getD "code"
  match level with
  | .parse =>
    match g.value? 0, g.all? .git with
    | none, none | some _, some _ => .error .wrong
    | diff, revisions =>
      .ok (.parse diff revisions ((g.one? .repo).getD ".") (g.has .json))
  | .map =>
    match g.value? 0, g.value? 1, (g.value? 2).bind line? with
    | some diff, some path, some line =>
      .ok (.map diff path (UInt32.ofNat line) (g.has .reverse))
    | _, _, _ => .error .wrong
  | .apply =>
    match g.value? 0 with
    | some diff => .ok (.apply diff ((g.one? .tree).getD "."))
    | none => .error .wrong
  | .status => .ok (.store .status)
  | .flags => .ok (.store (.flags (g.value? 0) kind))
  | .list =>
    match g.one? .flag with
    | some flag => .ok (.store (.list flag kind))
    | none => .error .wrong
  | .rollback => .ok (.store (.rollback (g.has .force)))
  | .clearHistory => .ok (.store (.clearHistory (g.has .force)))
  | .log => .ok (.store (.log ((g.one? .limit).bind (number? UInt64.size))))
  | .root | .store => .error .wrong

/-- Follows the words after `help`; each has to name a subcommand. -/
def helpOn (level : Level) : List String → Ending
  | [] => .help
  | s :: rest =>
    match level.subcommands.lookup s with
    | some level => helpOn level rest
    | none => if s = "help" && level.subcommands ≠ [] && rest = [] then .help else .wrong

/-- Reads the arguments of a level; `config` is the file that the levels before it name. -/
def read (config : Option String) (level : Level) (positional : Bool) (g : Given) :
    List String → Except Ending Invocation
  | [] =>
    match g.settle with
    | .error e => .error e
    | .ok g => do .ok ⟨(g.one? .config).or config, ← command level g⟩
  | arg :: args =>
    match if positional then none else level.subcommands.lookup arg with
    | some next =>
      match read (g.config?.or config) next false .start args with
      | .error e => .error e
      | .ok invocation => g.settle.map fun _ => invocation
    | none =>
      if !positional && arg = "help" && level.subcommands ≠ [] then .error (helpOn level args)
      else
        match g.settle with
        | .error e => .error e
        | .ok g =>
          if positional then
            match g.addValue level arg with
            | .error e => .error e
            | .ok g => read config level true g args
          else if arg = "--" then read config level true g args
          else
            match after? ['-', '-'] arg.toList with
            | some name =>
              let (name, attached) := cutName name
              match Opt.ofName? level name, attached with
              | none, _ => .error .wrong
              | some o, some value =>
                match g.add o [value] with
                | .error e => .error e
                | .ok g => read config level false g args
              | some o, none =>
                match o.arity, args with
                | 0, args =>
                  match g.flag level o with
                  | .error e => .error e
                  | .ok g => read config level false g args
                | 1, a :: args =>
                  if !isValue a then .error .wrong
                  else read config level false (g.await o [a]) args
                | 2, a :: b :: args =>
                  if !isValue a || !isValue b then .error .wrong
                  else read config level false (g.await o [a, b]) args
                | _, _ => .error .wrong
            | none =>
              match arg.toList with
              | '-' :: c :: cs =>
                match g.letters level (c :: cs) with
                | .error e => .error e
                | .ok g => read config level false g args
              | _ =>
                match g.addValue level arg with
                | .error e => .error e
                | .ok g => read config level false g args

def parse (args : List String) : Except Ending Invocation := read none .root false .start args

end CommandLine

end SourceDelta
