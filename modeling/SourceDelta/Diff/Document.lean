import SourceDelta.Diff.Hunk
import SourceDelta.Diff.MarkerLine
import SourceDelta.DiffSet

/-!
# Diff documents

A document is cut into sections at its marker lines; what precedes the first one
is skipped. Each section is read on its own, and the changes are joined in
order. The first section that cannot be read or joined decides the fault.
-/

set_option autoImplicit false

namespace SourceDelta.Diff
open SourceDelta.Text

/-- A marker line, what follows the marker on it, and the lines up to the next one. -/
structure Section where
  line : Nat
  names : List Char
  body : List Line

inductive HeaderLine
  | newFile (mode : Option Permissions)
  | deletedFile (mode : Option Permissions)
  | oldMode (mode : Option Permissions)
  | newMode (mode : Option Permissions)
  | index (mode : Option Permissions)
  | binary
  | other

def HeaderLine.ofText (t : List Char) : HeaderLine :=
  let mode := Permissions.trailing? t
  if startsWith "new file mode".toList t then .newFile mode
  else if startsWith "deleted file mode".toList t then .deletedFile mode
  else if startsWith "old mode".toList t then .oldMode mode
  else if startsWith "new mode".toList t then .newMode mode
  else if startsWith "index ".toList t then .index mode
  else if startsWith "GIT binary patch".toList t || startsWith "Binary files ".toList t then .binary
  else .other

/-- Reads the lines before the first hunk into the change. Nothing follows the binary mark. -/
def readHeader (oldPath : String) : FileChange → List Line → FileChange
  | c, [] => c
  | c, l :: ls =>
    match HeaderLine.ofText l.text with
    | .newFile mode => readHeader oldPath { c with kind := .addition, permissions := mode } ls
    | .deletedFile mode =>
      readHeader oldPath { c with kind := .deletion, path := oldPath, permissions := mode } ls
    | .oldMode mode => readHeader oldPath { c with oldPermissions := mode } ls
    | .newMode mode => readHeader oldPath { c with permissions := mode } ls
    | .index mode => readHeader oldPath { c with permissions := c.permissions.or mode } ls
    | .binary => { c with binary := true }
    | .other => readHeader oldPath c ls

namespace Section

def paths (s : Section) : Except Malformed (String × String) :=
  match paths? s.names with
  | some (a, b) => .ok (String.ofList a, String.ofList b)
  | none => .error ⟨s.line, .paths (String.ofList s.names)⟩

def read (contextLine : Bool) (s : Section) : Except Malformed FileChange := do
  let (old, new) ← s.paths
  let (lead, bs) := blocks s.body
  let c := readHeader old (.plain new .modification) lead
  if c.binary then .ok c
  else do
    let hunks ← Hunk.ofBlocks s.line bs
    .ok { c with
      runs := Hunk.allRuns contextLine 0 hunks
      noTrailingNewline := hunks.any (·.unended) }

end Section

/-- Cuts numbered lines before every marker; the first part precedes the first marker. -/
def sections : List Line → List Line × List Section
  | [] => ([], [])
  | l :: ls =>
    let (lead, ss) := sections ls
    match after? marker l.text with
    | some names => ([], ⟨l.number, names, lead⟩ :: ss)
    | none => (l :: lead, ss)

/-- Reads a section and joins it to the changes before it. -/
def absorb (contextLine : Bool) (set : DiffSet) (s : Section) : Except Malformed DiffSet := do
  let c ← s.read contextLine
  match set.absorb? c with
  | some set => .ok set
  | none => .error ⟨s.line, .duplicate c.path⟩

def parse (contextLine : Bool) (text : String) : Except Malformed DiffSet :=
  (sections (number 1 (lines text.toList))).2.foldlM (absorb contextLine) .empty

end SourceDelta.Diff
