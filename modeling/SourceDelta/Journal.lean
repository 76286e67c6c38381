import SourceDelta.Failure
import SourceDelta.Instant
import SourceDelta.Json.Printer
import SourceDelta.Path
import SourceDelta.Store.Key
import SourceDelta.Text.Line

/-!
# The journal of a store

Every change of a store adds a line to its journal: a record of when, what, to
which artifact, and details. Lines are only ever added at the end.
-/

set_option autoImplicit false

namespace SourceDelta

namespace Journal

inductive Action
  | write | delete | flag | clearHistory | rollback
  deriving DecidableEq

namespace Action

def all : List Action := [write, delete, flag, clearHistory, rollback]

def name : Action → String
  | write => "write"
  | delete => "delete"
  | flag => "flag"
  | clearHistory => "clear_history"
  | rollback => "rollback"

def ofName? (s : String) : Option Action := all.find? (·.name == s)

end Action

/-- The details are a canonical value. -/
structure Entry where
  time : Instant
  action : Action
  key : Option Key
  details : Json

namespace Entry

def toJson (e : Entry) : Json :=
  .object <| [("ts", .string e.time.text), ("action", .string e.action.name)] ++
    (match e.key with
      | none => []
      | some k => [("key", k.toJson)]) ++
    [("details", e.details)]

def ofJson? (j : Json) : Option Entry := do
  match ← j.fields? ["ts", "action", "key", "details"] with
  | [some ts, some action, key, some details] =>
    let name ← action.name?
    some {
      time := ← Instant.ofText? (← ts.string?)
      action := ← Action.ofName? name
      key := ← Json.orElse none (Json.nullable Key.ofJson?) key
      details := details.canonical }
  | _ => none

def wanted : Json.Wanted :=
  .record [("ts", .all), ("action", .all), ("key", Key.wanted), ("details", .all)]

def line (e : Entry) : String := e.toJson.compact

def ofLine? (line : String) : Option Entry := do ofJson? (← Json.take? wanted line)

end Entry

def append (path : String) (e : Entry) : Task Unit := do
  match Path.parent? path with
  | none => pure ()
  | some parent =>
    if ← Task.ask (.pathExists parent) then pure ()
    else Task.attempt (.createDirAll parent) (.file (.createJournalDirectory parent))
  Task.attempt (.openAppend path) (.file (.openJournal path))
  Task.attempt (.write path (Utf8.encode e.line)) (.file (.appendJournal path))
  Task.attempt (.write path (Utf8.encode "\n")) (.file (.appendJournal path))
  Task.attempt (.sync path) (.file (.appendJournal path))

/-- Reads the lines that are not blank, numbered from `n`; the number of the first that is no entry
is the fault. -/
def ofLines (n : Nat) : List (List Char) → Except Nat (List Entry)
  | [] => .ok []
  | l :: ls =>
    if Text.allBlank l then ofLines n ls
    else
      match Entry.ofLine? (String.ofList l) with
      | none => .error n
      | some e => (ofLines (n + 1) ls).map (e :: ·)

def read (path : String) : Task (List Entry) := do
  if ← Task.ask (.pathExists path) then
    let text ← Task.readText path (.file (.readJournal path))
    Task.ofExcept (.journalText · path) (ofLines 1 (Text.lines text.toList))
  else pure []

end Journal

end SourceDelta
