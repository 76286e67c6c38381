import SourceDelta.Journal
import SourceDelta.Store.FlagRegistry
import SourceDelta.Store.Layout

/-!
# The artifact store

A store keeps the current value of every artifact and, since the start of the
generation, the value before it. A write stages the new value, moves the old one
out of the way, puts the new one in place, and records a flag last. The value
that an artifact had at the start of the generation is never lost: when it would
be displaced a second time it moves to the baseline, and a rollback brings it
back. What a store does goes to its journal; a journal that cannot be written
stops nothing.
-/

set_option autoImplicit false

namespace SourceDelta

structure Store where
  layout : Layout
  indented : Bool
  flags : FlagRegistry
  deriving DecidableEq

namespace Store

/-- Something that uses and changes a store. The change stays when it fails. -/
abbrev Action (α : Type) : Type 1 := ExceptT Failure (StateT Store Script) α

def Action.ofTask {α : Type} (t : Task α) : Action α :=
  ExceptT.mk (StateT.lift t.run)

instance {α : Type} : CoeTail (Task α) (Action α) := ⟨Action.ofTask⟩

def Action.on {α : Type} (a : Action α) (s : Store) : Script (Except Failure α × Store) :=
  StateT.run (ExceptT.run a) s

def request {β : Type} (r : Request β) : Action β := Action.ofTask (Task.ask r)

def fail {α : Type} (f : Failure) : Action α := Action.ofTask (Task.fail f)

def openAt (layout : Layout) (indented : Bool) : Task Store := do
  layout.create
  let flags ← FlagRegistry.load layout.flagsPath
  pure ⟨layout, indented, flags⟩

def path (s : Store) (a : Area) (k : Key) : String := s.layout.artifactPath a k

/-- Raises a flag; the document is written only for a flag that is new. -/
def raise (k : Key) (f : Flag) : Action Unit := do
  let s ← get
  if s.flags.has k f then pure ()
  else do
    let flags := s.flags.insert k f
    set { s with flags := flags }
    Action.ofTask (flags.save s.layout.flagsPath)

/-- Adds an entry to the journal, if that can be done. -/
def record (action : Journal.Action) (key : Option Key) (details : Json) : Action Unit := do
  let s ← get
  let time ← request .now
  let outcome : Task Unit := Journal.append s.layout.journalPath ⟨time, action, key, details⟩
  let _ ← Action.ofTask (ExceptT.lift outcome.run)
  pure ()

def noDetails : Json := .object []

def flagDetails (f : Flag) : Json := .object [("flag", .string f.name)]

/-- Moves the current value to the previous area, and before that a previous value from the start
of the generation to the baseline. Tells whether it did the latter. -/
def displace (k : Key) : Action Bool := do
  let s ← get
  let hasPrevious ← request (.pathExists (s.path .previous k))
  let hasBaseline ← if hasPrevious then request (.pathExists (s.path .baseline k)) else pure false
  let baselined := hasPrevious && !hasBaseline && !s.flags.has k .addition
  if baselined then
    Action.ofTask (moveFile (s.path .previous k) (s.path .baseline k))
  Action.ofTask (moveFile (s.path .current k) (s.path .previous k))
  pure baselined

def undoDisplace (k : Key) (baselined : Bool) : Action Unit := do
  let s ← get
  let back : Task Unit := moveFile (s.path .previous k) (s.path .current k)
  let outcome ← Action.ofTask (ExceptT.lift back.run)
  match outcome with
  | .error _ => pure ()
  | .ok () =>
    if baselined then
      let rest : Task Unit := moveFile (s.path .baseline k) (s.path .previous k)
      let _ ← Action.ofTask (ExceptT.lift rest.run)
      pure ()

/-- Stores bytes as the current value. An artifact without a value in this generation is new. -/
def writeBytes (k : Key) (bytes : Bytes) : Action Unit := do
  let s ← get
  let staged ← Action.ofTask (Staged.stage (s.path .current k) bytes)
  let hadCurrent ← request (.pathExists (s.path .current k))
  let hadPrevious ← request (.pathExists (s.path .previous k))
  let displaced ← ExceptT.lift (ExceptT.run (if hadCurrent then displace k else pure false))
  match displaced with
  | .error e => do
    Action.ofTask staged.discard
    fail e
  | .ok baselined =>
    let commit : Task Unit := staged.commit
    let committed ← Action.ofTask (ExceptT.lift commit.run)
    match committed with
    | .error e => do
      if hadCurrent then undoDisplace k baselined
      fail e
    | .ok () => do
      let flag := if hadCurrent || hadPrevious then Flag.modification else .addition
      raise k flag
      record .write (some k) (flagDetails flag)

def encode (s : Store) (value : Json) : Bytes :=
  Utf8.encode (if s.indented then value.indented else value.compact)

def write (k : Key) (value : Option Json) : Action Unit := do
  let s ← get
  match value with
  | none => fail .unencodable
  | some value => writeBytes k (s.encode value.canonical)

def delete (k : Key) : Action Unit := do
  let s ← get
  if ← request (.pathExists (s.path .current k)) then
    let _ ← displace k
    raise k .deletion
    record .delete (some k) noDetails
  else fail (.noValue k .current)

/-- Raises a flag and touches no artifact. -/
def flag (k : Key) (f : Flag) : Action Unit := do
  raise k f
  record .flag (some k) (flagDetails f)

def readArtifact (s : Store) (a : Area) (generation : Generation) (k : Key) : Task Bytes := do
  match ← Task.ask (.readFile (s.path a k)) with
  | .ok bytes => pure bytes
  | .error .noEntry => Task.fail (.noValue k generation)
  | .error e => Task.fail (.file (.readArtifact k (s.path a k)) e)

def readBytes (s : Store) (k : Key) : Task Bytes := s.readArtifact .current .current k

/-- The value before the latest change. An artifact that has not changed has its current value, and
a new one has none. -/
def readPreviousBytes (s : Store) (k : Key) : Task Bytes := do
  if ← Task.ask (.pathExists (s.path .previous k)) then s.readArtifact .previous .previous k
  else if s.flags.has k .addition then Task.fail (.noValueBefore k)
  else s.readArtifact .current .previous k

def decode (bytes : Bytes) : Except Failure Json :=
  match (Utf8.decode? bytes).bind Json.parse? with
  | some j => .ok j.canonical
  | none => .error .artifactText

def contains (s : Store) (k : Key) : Task Bool := Task.ask (.pathExists (s.path .current k))

def keys (s : Store) (kind : ArtifactKind) : Task (List Key) := do
  let ks ← s.layout.keys .current
  pure (ks.filter (·.kind == kind))

structure Status where
  currentCode : Nat
  currentBuild : Bool
  currentVariability : Bool
  previous : Nat
  flaggedKeys : Nat
  deriving DecidableEq

def Status.toJson (s : Status) : Json :=
  .object [
    ("current_code", .ofNat s.currentCode),
    ("current_build", .bool s.currentBuild),
    ("current_variability", .bool s.currentVariability),
    ("previous", .ofNat s.previous),
    ("flagged_keys", .ofNat s.flaggedKeys)]

def status (s : Store) : Task Status := do
  let current ← s.layout.keys .current
  let previous ← s.layout.keys .previous
  pure ⟨(current.filter (·.kind == .code)).length, current.contains .build,
    current.contains .variability, previous.length, s.flags.size⟩

/-- Starts a generation: the current values are the only ones and no flag is raised. -/
def clearHistory : Action Unit := do
  let s ← get
  Action.ofTask (s.layout.reset .previous)
  Action.ofTask (s.layout.reset .baseline)
  set { s with flags := FlagRegistry.empty }
  Action.ofTask (FlagRegistry.empty.save s.layout.flagsPath)
  record .clearHistory none noDetails

def added (s : Store) : List Key :=
  ArtifactKind.all.flatMap fun kind => s.flags.keysWith kind .addition

def removeAdded (s : Store) : List Key → Task Unit
  | [] => pure ()
  | k :: ks => do
    let _ ← removeIfPresent (s.path .current k)
    removeAdded s ks

def restore (s : Store) (k : Key) : Task Unit := do
  if ← Task.ask (.pathExists (s.path .baseline k)) then
    let _ ← removeIfPresent (s.path .previous k)
    moveFile (s.path .baseline k) (s.path .current k)
  else moveFile (s.path .previous k) (s.path .current k)

def restoreAll (s : Store) : List Key → Task Unit
  | [] => pure ()
  | k :: ks => do
    s.restore k
    restoreAll s ks

def rollbackDetails (removed restored : Nat) : Json :=
  .object [("removed", .ofNat removed), ("restored", .ofNat restored)]

/-- Goes back to the start of the generation: new artifacts are removed and displaced values come
back, and then the history is cleared. -/
def rollback : Action Unit := do
  let s ← get
  let added := s.added
  Action.ofTask (s.removeAdded added)
  let displaced ← Action.ofTask (s.layout.keys .previous)
  let displaced := displaced.filter (!added.contains ·)
  Action.ofTask (s.restoreAll displaced)
  record .rollback none (rollbackDetails added.length displaced.length)
  clearHistory

end Store

end SourceDelta
