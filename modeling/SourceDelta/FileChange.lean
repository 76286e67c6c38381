import SourceDelta.Permissions
import SourceDelta.LineRun

/-!
# The change of one file

What a diff says of one path: how the file changed, its permissions, and the
runs of its lines. A verdict is added later by a classifier.
-/

set_option autoImplicit false

namespace SourceDelta

inductive ChangeKind
  | addition | deletion | modification
  deriving DecidableEq, Inhabited

namespace ChangeKind

def all : List ChangeKind := [addition, deletion, modification]

def name : ChangeKind → String
  | addition => "addition"
  | deletion => "deletion"
  | modification => "modification"

def ofName? (s : String) : Option ChangeKind := all.find? (·.name == s)

theorem ofName?_name (k : ChangeKind) : ofName? k.name = some k := by
  cases k <;> decide

end ChangeKind

/-- Whether a change touches variability; `notAnalyzed` until a classifier has looked. -/
inductive Verdict
  | change | noChange | notAVariabilityFile | notAnalyzed
  deriving DecidableEq, Inhabited

namespace Verdict

def all : List Verdict := [change, noChange, notAVariabilityFile, notAnalyzed]

def name : Verdict → String
  | change => "change"
  | noChange => "no_change"
  | notAVariabilityFile => "not_a_variability_file"
  | notAnalyzed => "not_analyzed"

def ofName? (s : String) : Option Verdict := all.find? (·.name == s)

theorem ofName?_name (v : Verdict) : ofName? v.name = some v := by
  cases v <;> decide

end Verdict

structure FileChange where
  path : String
  kind : ChangeKind
  permissions : Option Permissions
  /-- Permissions in the old revision, when the diff states that they changed. -/
  oldPermissions : Option Permissions
  runs : List Run
  noTrailingNewline : Bool
  binary : Bool
  verdict : Verdict
  deriving DecidableEq, Inhabited

namespace FileChange

def plain (path : String) (kind : ChangeKind) : FileChange :=
  ⟨path, kind, none, none, [], false, false, .notAnalyzed⟩

def oldLines? (c : FileChange) : Option UInt32 := Run.total? LineKind.inOld c.runs

def newLines? (c : FileChange) : Option UInt32 := Run.total? LineKind.inNew c.runs

def addedLines? (c : FileChange) : Option UInt32 := Run.total? (· == .added) c.runs

def deletedLines? (c : FileChange) : Option UInt32 := Run.total? (· == .deleted) c.runs

def changedTexts (c : FileChange) : List (List Char) :=
  (c.runs.filter (·.kind.changed)).flatMap Run.texts

/-- A deletion and the addition of the same path after it are one modification: the old side is
the deleted file's, the new side the added file's. -/
def coalesce (deleted added : FileChange) : FileChange :=
  { deleted with
    kind := .modification
    oldPermissions := deleted.permissions.or deleted.oldPermissions
    permissions := added.permissions
    runs := deleted.runs ++ added.runs
    noTrailingNewline := added.noTrailingNewline
    binary := deleted.binary || added.binary }

end FileChange

end SourceDelta
