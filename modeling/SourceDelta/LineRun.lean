import SourceDelta.Text.Line
import SourceDelta.Word

/-!
# Runs of lines

Consecutive lines of one kind. A diff of a file is a list of runs that covers
the old file from its first line to the end of the last hunk; lines after it are
untouched.
-/

set_option autoImplicit false

namespace SourceDelta
open SourceDelta.Text

/-- What a diff says of a line. Gap lines are old lines it does not quote. -/
inductive LineKind
  | added | deleted | unmodified | gap
  deriving DecidableEq, Inhabited

namespace LineKind

def all : List LineKind := [added, deleted, unmodified, gap]

def name : LineKind → String
  | added => "added"
  | deleted => "deleted"
  | unmodified => "unmodified"
  | gap => "gap"

def ofName? (s : String) : Option LineKind := all.find? (·.name == s)

def inOld : LineKind → Bool
  | added => false
  | _ => true

def inNew : LineKind → Bool
  | deleted => false
  | _ => true

def changed : LineKind → Bool
  | added | deleted => true
  | _ => false

theorem ofName?_name (k : LineKind) : ofName? k.name = some k := by
  cases k <;> decide

end LineKind

/-- `count` lines of one kind; `content` is their text joined by line feeds, empty for gaps. -/
structure Run where
  kind : LineKind
  count : UInt32
  content : String
  deriving DecidableEq, Inhabited

namespace Run

def ofGap (n : Nat) : Run := ⟨.gap, UInt32.ofNat n, ""⟩

def ofLines (k : LineKind) (ts : List (List Char)) : Run :=
  ⟨k, UInt32.ofNat ts.length, String.ofList (join '\n' ts)⟩

def texts (r : Run) : List (List Char) := pieces '\n' r.content.toList

def clusters : List (LineKind × List Char) → List (LineKind × List (List Char))
  | [] => []
  | (k, t) :: rest =>
    match clusters rest with
    | [] => [(k, [t])]
    | (k', ts) :: more =>
      if k = k' then (k, t :: ts) :: more else (k, [t]) :: (k', ts) :: more

def group (ls : List (LineKind × List Char)) : List Run :=
  (clusters ls).map fun c => ofLines c.1 c.2

/-- The number of lines in the runs of the chosen kinds, when it fits a word. -/
def total? (p : LineKind → Bool) (rs : List Run) : Option UInt32 :=
  sum? ((rs.filter (p ·.kind)).map (·.count))

end Run

end SourceDelta
