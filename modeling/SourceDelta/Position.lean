import SourceDelta.DiffSet

/-!
# Line numbers across a diff

A line of one revision is looked up in the other by walking over the runs of its
file. Lines after the last run move by the difference of the two sides. A line
that the other side lacks is dropped; it answers with the line that follows it
there.
-/

set_option autoImplicit false

namespace SourceDelta

inductive Position
  | kept (line : UInt32)
  | dropped (following : UInt32)
  deriving DecidableEq

/-- The line to go on at: the line itself, or the one after it when it is dropped. -/
def Position.line : Position → UInt32
  | .kept n => n
  | .dropped n => n

inductive Direction
  | oldToNew | newToOld
  deriving DecidableEq

namespace Direction

def inSource : Direction → LineKind → Bool
  | oldToNew => LineKind.inOld
  | newToOld => LineKind.inNew

def inTarget : Direction → LineKind → Bool
  | oldToNew => LineKind.inNew
  | newToOld => LineKind.inOld

end Direction

/-- The end of a run that starts after `n` lines, on a side that has the run or not. -/
def advance? (present : Bool) (n count : UInt32) : Option UInt32 :=
  if present then add? n count else some n

/-- Looks for a line in the runs that come after `source` lines of the one side and `target` of the
other. A sum that does not fit a word has no answer. -/
def walk? (d : Direction) (line : UInt32) : UInt32 → UInt32 → List Run → Option Position
  | source, target, [] => (add? (line - source) target).map .kept
  | source, target, r :: rs => do
    let source' ← advance? (d.inSource r.kind) source r.count
    let target' ← advance? (d.inTarget r.kind) target r.count
    if line ≤ source' then
      if d.inTarget r.kind then (add? (line - source) target).map .kept
      else (add? target 1).map .dropped
    else walk? d line source' target' rs

/-- Where a line of one revision is in the other. There is no line zero, and it stays. -/
def locate? (d : Direction) (runs : List Run) (line : UInt32) : Option Position :=
  if line = 0 then some (.kept 0) else walk? d line 0 0 runs

/-- Why a line of a file has no counterpart: one of the revisions lacks the file. -/
inductive OneSided
  | lineOfDeleted (path : String) (line : UInt32)
  | lineOfAdded (path : String) (line : UInt32)
  | deleted (path : String)
  | added (path : String)
  deriving DecidableEq

def OneSided.message : OneSided → String
  | lineOfDeleted path line =>
    "'" ++ path ++ "' was deleted; line " ++ toString line.toNat ++ " has no new revision"
  | lineOfAdded path line =>
    "'" ++ path ++ "' was added; line " ++ toString line.toNat ++ " has no old revision"
  | deleted path => "'" ++ path ++ "' was deleted; it has no new revision"
  | added path => "'" ++ path ++ "' was added; it has no old revision"

/-- Where a line of a file is on the other side of a diff. The lines of a file that the diff does
not name stay. -/
def DiffSet.locate? (s : DiffSet) (d : Direction) (path : String) (line : UInt32) :
    Except OneSided (Option Position) :=
  match s.get? path with
  | none => .ok (some (.kept line))
  | some c =>
    match c.kind, d with
    | .modification, _ => .ok (SourceDelta.locate? d c.runs line)
    | .deletion, .oldToNew => .error (.lineOfDeleted path line)
    | .addition, .oldToNew => .error (.added path)
    | .addition, .newToOld => .error (.lineOfAdded path line)
    | .deletion, .newToOld => .error (.deleted path)

end SourceDelta
