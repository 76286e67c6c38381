import SourceDelta.Command.Report
import SourceDelta.CommandLine
import SourceDelta.Git
import SourceDelta.Strategy
import SourceDelta.Workspace

/-!
# Running commands

What an invocation does, and the text it prints when it succeeds. The workspace
is resolved before anything else, and the arguments of a store command are
looked at before the store is opened.
-/

set_option autoImplicit false

namespace SourceDelta

/-- A result that is missing because a number does not fit a word. -/
def Task.ofOption {α : Type} : Option α → Task α
  | some a => pure a
  | none => Task.fail .overflow

namespace Misuse

def kind (name : String) : Task ArtifactKind :=
  match ArtifactKind.ofName? name with
  | some k => pure k
  | none => Task.fail (.misuse (.unknownKind name))

def flag (name : String) : Task Flag :=
  match Flag.ofName? name with
  | some f => pure f
  | none => Task.fail (.misuse (.unknownFlag name))

def key (kindName : String) (path : Option String) : Task Key := do
  match ← kind kindName, path with
  | .code, some p => pure (.ofPath p)
  | .code, none => Task.fail (.misuse .noPath)
  | .build, _ => pure .build
  | .variability, _ => pure .variability

def confirmed (command : String) (force : Bool) : Task Unit :=
  if force then pure () else Task.fail (.misuse (.unconfirmed command))

end Misuse

namespace Workspace

/-- Gives the changes of a diff their verdicts and selects paths. -/
def select (w : Workspace) (s : DiffSet) : Task (DiffSet × List String) := do
  let classifier ← Task.ofExcept .config (Classifier.ofConfig w.config)
  let s := classifier.annotate s
  let filter ← Task.ofExcept .config (Filter.ofConfig w.config)
  let selected ← Task.ofOption (filter.select? s)
  pure (s, selected)

def parse (w : Workspace) (diff : Option String) (revisions : Option (List String))
    (repository : String) (json : Bool) : Task String := do
  let context := w.config.headerContextAsLine
  let changes ←
    match diff, revisions with
    | some path, _ => Diff.parseFile context path
    | none, some [old, new] => Git.changes context repository old new
    | none, _ => Task.fail (.misuse .noDiff)
  let (s, selected) ← w.select changes
  if json then pure (Report.document s selected) else Task.ofOption (Report.table? s selected)

def map (w : Workspace) (diff path : String) (line : UInt32) (reverse : Bool) : Task String := do
  if line = 0 then Task.fail (.misuse .lineZero)
  let s ← Diff.parseFile w.config.headerContextAsLine diff
  let direction := if reverse then Direction.newToOld else .oldToNew
  let found ← Task.ofExcept .oneSided (s.locate? direction path line)
  let position ← Task.ofOption found
  pure (Report.position path line direction position)

def apply (diff tree : String) : Task String := do
  Git.apply tree diff
  pure (Report.line ("Applied " ++ diff ++ " to " ++ tree))

def change (w : Workspace) (command : String) (force : Bool) (action : Store.Action Unit)
    (done : String) : Task String := do
  Misuse.confirmed command force
  let s ← w.openStore
  let (outcome, s) ← ExceptT.lift (action.on s)
  Task.ofExcept id outcome
  pure (Report.line (done ++ s.layout.root))

def store (w : Workspace) : StoreCommand → Task String
  | .status => do
    let s ← w.openStore
    pure (Report.status s (← s.status))
  | .flags path kind => do
    let k ← Misuse.key kind path
    let s ← w.openStore
    pure (Report.flags k (s.flags.get k))
  | .list flag kind => do
    let kind ← Misuse.kind kind
    let flag ← Misuse.flag flag
    let s ← w.openStore
    pure (String.join ((s.flags.keysWith kind flag).map Report.key))
  | .rollback force => w.change "rollback" force Store.rollback "Rolled back store at "
  | .clearHistory force =>
    w.change "clear-history" force Store.clearHistory "Cleared history of store at "
  | .log limit => do
    let s ← w.openStore
    let entries ← Journal.read s.layout.journalPath
    let skipped := match limit with
      | some n => entries.length - n
      | none => 0
    pure (String.join ((entries.drop skipped).map Report.journalEntry))

def run (w : Workspace) : Command → Task String
  | .parse diff revisions repository json => w.parse diff revisions repository json
  | .map diff path line reverse => w.map diff path line reverse
  | .apply diff tree => apply diff tree
  | .store command => w.store command

end Workspace

def Invocation.run (i : Invocation) : Task String := do
  let directory ← Task.attempt .workingDirectory .workingDirectory
  let w ← Workspace.resolve directory i.config
  w.run i.command

end SourceDelta
