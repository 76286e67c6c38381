/-!
# Faults of a diff

Why a text is no diff, and at which of its lines that shows.
-/

set_option autoImplicit false

namespace SourceDelta.Diff

inductive Fault
  | paths (rest : String)
  | header (line : String)
  /-- A line inside a hunk that no hunk can hold. -/
  | stray (line : String)
  | overlong
  /-- So many old and new lines are missing; the section is named when the diff of its file ends
  before they come. -/
  | truncated (old new : Nat) (inSection : Option Nat)
  | duplicate (path : String)
  deriving DecidableEq

structure Malformed where
  line : Nat
  fault : Fault
  deriving DecidableEq

def Fault.message : Fault → String
  | paths rest => "cannot split the file paths of 'diff --git " ++ rest ++ "'"
  | header line => "unparseable hunk header '" ++ line ++ "'"
  | stray line => "unexpected line inside hunk: '" ++ line ++ "'"
  | overlong => "hunk body is longer than its header declares"
  | truncated old new inSection =>
    "truncated hunk: " ++ toString old ++ " old and " ++ toString new ++ " new lines missing" ++
      match inSection with
      | some n => " (file section starting at line " ++ toString n ++ ")"
      | none => ""
  | duplicate path => "duplicate diff section for '" ++ path ++ "'"

def Malformed.message (m : Malformed) : String :=
  "diff parse error at line " ++ toString m.line ++ ": " ++ m.fault.message

end SourceDelta.Diff
