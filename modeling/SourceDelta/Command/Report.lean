import SourceDelta.DiffSet.Json
import SourceDelta.Json.Printer
import SourceDelta.Store
import SourceDelta.Position

/-!
# Reports

The texts that commands print: the table of a diff or its document, the place
of a line, and what a store holds and has done. A count that does not fit a word
leaves a table without a text.
-/

set_option autoImplicit false

namespace SourceDelta.Report

def spaces (n : Nat) : String := String.ofList (List.replicate n ' ')

def left (width : Nat) (s : String) : String := s ++ spaces (width - s.length)

def right (width : Nat) (s : String) : String := spaces (width - s.length) ++ s

def number (width n : Nat) : String := right width (toString n)

def line (s : String) : String := s ++ "\n"

def row (marker kind mode added deleted verdict path : String) : String :=
  line (marker ++ " " ++ left 12 kind ++ " " ++ right 4 mode ++ " " ++ right 6 added ++ " " ++
    right 6 deleted ++ "  " ++ left 22 verdict ++ " " ++ path)

def header : String := row " " "KIND" "MODE" "+ADD" "-DEL" "VARIABILITY" "PATH"

def mode (c : FileChange) : String :=
  match c.oldPermissions, c.permissions with
  | some old, some new => if old = new then new.text else old.text ++ ">" ++ new.text
  | none, some new => new.text
  | _, none => "-"

def changeRow? (selected : List String) (c : FileChange) : Option String := do
  let added ← c.addedLines?
  let deleted ← c.deletedLines?
  some (row (if selected.contains c.path then "*" else " ") c.kind.name (mode c)
    (toString added.toNat) (toString deleted.toNat) c.verdict.name
    (c.path ++ if c.binary then " (binary)" else ""))

/-- The changes and which of them are selected. -/
def table? (s : DiffSet) (selected : List String) : Option String :=
  if s.entries.isEmpty then some (line "No file changes.")
  else do
    let rows ← s.entries.mapM (changeRow? selected)
    some (header ++ String.join rows ++
      line ("\n" ++ toString s.size ++ " file(s), " ++ toString selected.length ++
        " selected for extraction (*)"))

def document (s : DiffSet) (selected : List String) : String :=
  line (Json.object [("entries", s.toJson), ("selected", .array (selected.map .string))]).indented

def directionNames : Direction → String × String
  | .oldToNew => ("old", "new")
  | .newToOld => ("new", "old")

def position (path : String) (n : UInt32) (d : Direction) (p : Position) : String :=
  let (source, target) := directionNames d
  line (path ++ ":" ++ toString n.toNat ++ " -> " ++ toString p.line.toNat ++
    match p with
    | .kept _ => ""
    | .dropped _ =>
      " (" ++ source ++ " line " ++ toString n.toNat ++ " does not exist in the " ++ target ++
        " revision; next surviving line shown)")

def presence (b : Bool) : String := right 7 (if b then "present" else "missing")

def flagCounts (flags : FlagRegistry) : List (Flag × Nat) :=
  (Flag.all.map fun f =>
    (f, (ArtifactKind.all.map fun k => (flags.keysWith k f).length).foldl (· + ·) 0)).filter (·.2 ≠ 0)

def status (s : Store) (t : Store.Status) : String :=
  line "Store Status" ++
  line "============" ++
  line ("Root:        " ++ s.layout.root) ++
  line "" ++
  line "Current:" ++
  line ("  code        " ++ number 5 t.currentCode) ++
  line ("  build       " ++ presence t.currentBuild) ++
  line ("  variability " ++ presence t.currentVariability) ++
  line ("Previous:    " ++ number 5 t.previous) ++
  line ("Flagged:     " ++ number 5 t.flaggedKeys) ++
  if t.flaggedKeys = 0 then ""
  else
    line "" ++ String.join ((flagCounts s.flags).map fun (f, n) =>
      line ("  " ++ left 18 f.name ++ " " ++ number 5 n))

def flags (k : Key) (s : FlagSet) : String :=
  line (k.text ++ ": " ++
    if s.isEmpty then "no flags" else String.intercalate ", " (s.toList.map Flag.name))

def key (k : Key) : String := line (k.path?.getD k.kind.name)

def journalEntry (e : Journal.Entry) : String :=
  line (e.time.plainText ++ " " ++ left 13 e.action.name ++
    (match e.key with
      | some k => " " ++ k.text
      | none => "") ++
    match e.details with
    | .object (m :: ms) => " " ++ (Json.object (m :: ms)).compact
    | _ => "")

end SourceDelta.Report
