import SourceDelta.FileSystem.Error
import SourceDelta.Instant
import SourceDelta.Text.Utf8

/-!
# Scripts

What the library does to files is written as a script: a tree of requests, each
followed by what the script does with the reply. A script says nothing about who
answers. It is run on the files of a computer, on a file system that is a value,
or on one that fails or stops at a chosen request, and it is the same script.
-/

set_option autoImplicit false

namespace SourceDelta

/-- What a finished git command has left: its exit code, none when a signal ended it, and the bytes
it has written. -/
structure GitRun where
  exitCode : Option Nat
  stdout : Bytes
  stderr : Bytes

/-- A single step, with the type of its reply. -/
inductive Request : Type → Type
  | pathExists (path : String) : Request Bool
  | isFile (path : String) : Request Bool
  | readFile (path : String) : Request (Except IoError Bytes)
  | listDirectory (path : String) : Request (Except IoError (List String))
  | createDirAll (path : String) : Request (Except IoError Unit)
  | removeDirAll (path : String) : Request (Except IoError Unit)
  | createFile (path : String) : Request (Except IoError Unit)
  | openAppend (path : String) : Request (Except IoError Unit)
  | write (path : String) (bytes : Bytes) : Request (Except IoError Unit)
  | sync (path : String) : Request (Except IoError Unit)
  | rename (old new : String) : Request (Except IoError Unit)
  | removeFile (path : String) : Request (Except IoError Unit)
  /-- The number of the process, and a number it has not had before. -/
  | freshName : Request (Nat × Nat)
  | now : Request Instant
  | workingDirectory : Request (Except IoError String)
  | git (directory : String) (args : List String) : Request (Except IoError GitRun)

def Request.refusal? {β : Type} (e : IoError) : Request β → Option β
  | .pathExists _ | .isFile _ | .freshName | .now => none
  | .readFile _ | .listDirectory _ | .createDirAll _ | .removeDirAll _ | .createFile _
  | .openAppend _ | .write _ _ | .sync _ | .rename _ _ | .removeFile _ | .workingDirectory
  | .git _ _ => some (.error e)

inductive Script (α : Type) : Type 1
  | done (a : α)
  | ask {β : Type} (request : Request β) (next : β → Script α)

namespace Script

def single {β : Type} (r : Request β) : Script β := .ask r .done

def bind {α γ : Type} : Script α → (α → Script γ) → Script γ
  | .done a, f => f a
  | .ask r next, f => .ask r fun b => bind (next b) f

instance : Monad Script where
  pure := .done
  bind := bind

theorem bind_done {α : Type} (s : Script α) : s.bind .done = s := by
  induction s with
  | done a => rfl
  | ask r next ih => simp only [bind, ih]

theorem bind_bind {α γ δ : Type} (s : Script α) (f : α → Script γ) (g : γ → Script δ) :
    (s.bind f).bind g = s.bind fun a => (f a).bind g := by
  induction s with
  | done a => rfl
  | ask r next ih => simp only [bind, ih]

end Script

end SourceDelta
