import SourceDelta.Failure
import SourceDelta.Path

/-!
# Writing and moving files whole

A file is written under a name of its own next to its target, and renamed onto
the target when its content is on the disk. Whoever reads the target sees the
old content or the whole new one. A file is moved by renaming it, and where
another device forbids that by writing it there and then removing it here.
-/

set_option autoImplicit false

namespace SourceDelta

/-- Content that is on the disk next to its target and not yet there. -/
structure Staged where
  temporary : String
  target : String
  deriving DecidableEq

namespace Staged

def ensureParent (path : String) : Task Unit :=
  match Path.parent? path with
  | none => pure ()
  | some parent =>
    if parent = "" then pure ()
    else do
      if ← Task.ask (.pathExists parent) then pure ()
      else Task.attempt (.createDirAll parent) (.file (.createParent parent))

def temporaryName (name : String) (process fresh : Nat) : String :=
  "." ++ name ++ "." ++ toString process ++ "." ++ toString fresh ++ ".tmp"

/-- A path next to the target that no other file of the process has had. -/
def temporaryPath (target : String) : Task String :=
  match Path.fileName? target with
  | none => Task.fail (.noFileName target)
  | some name => do
    let (process, fresh) ← Task.ask .freshName
    pure (Path.join ((Path.parent? target).getD ".") (temporaryName name process fresh))

/-- Writes an open file and waits until it is on the disk. A file that cannot be finished is
removed. -/
def writeOut (path : String) (content : Bytes) : Task Unit := do
  let removed (e : IoError) : Task Unit := do
    let _ ← Task.ask (.removeFile path)
    Task.fail (.file (.writeTemporary path) e)
  match ← Task.ask (.write path content) with
  | .error e => removed e
  | .ok () =>
    match ← Task.ask (.sync path) with
    | .error e => removed e
    | .ok () => pure ()

def stage (target : String) (content : Bytes) : Task Staged := do
  ensureParent target
  let temporary ← temporaryPath target
  Task.attempt (.createFile temporary) (.file (.createTemporary temporary))
  writeOut temporary content
  pure ⟨temporary, target⟩

def discard (s : Staged) : Task Unit := do
  let _ ← Task.ask (.removeFile s.temporary)
  pure ()

/-- Puts the content at its target; what cannot be put there is dropped. -/
def commit (s : Staged) : Task Unit := do
  match ← Task.ask (.rename s.temporary s.target) with
  | .ok () => pure ()
  | .error e => do
    s.discard
    Task.fail (.file (.replace s.target) e)

end Staged

def atomicWrite (path : String) (content : Bytes) : Task Unit := do
  let staged ← Staged.stage path content
  staged.commit

/-- Moves a file to another device: its content is there before it is gone here. -/
def moveAcross (source target : String) (refused : IoError) : Task Unit := do
  let content ← Task.attempt (.readFile source) fun e => .readForMove source e refused
  atomicWrite target content
  Task.attempt (.removeFile source) (.file (.deleteMoved source))

def moveFile (source target : String) : Task Unit := do
  match Path.parent? target with
  | none => pure ()
  | some parent =>
    Task.attempt (.createDirAll parent) (.file (.createDestination parent))
  match ← Task.ask (.rename source target) with
  | .ok () => pure ()
  | .error .crossDevice => moveAcross source target .crossDevice
  | .error e => Task.fail (.file (.move source target) e)

def removeIfPresent (path : String) : Task Bool := do
  match ← Task.ask (.removeFile path) with
  | .ok () => pure true
  | .error .noEntry => pure false
  | .error e => Task.fail (.file (.remove path) e)

end SourceDelta
