import SourceDelta.FileSystem.Staged
import SourceDelta.Json.Printer
import SourceDelta.Store.Key

/-!
# The flags of a generation

The registry maps keys to the flags raised for them, sorted by key, and never
holds a key without a flag. It is kept in one document that is written whole at every change.
-/

set_option autoImplicit false

namespace SourceDelta

structure FlagRegistry where
  entries : List (Key × FlagSet)
  deriving DecidableEq

namespace FlagRegistry

def empty : FlagRegistry := ⟨[]⟩

def get (r : FlagRegistry) (k : Key) : FlagSet := (r.entries.lookup k).getD .empty

def has (r : FlagRegistry) (k : Key) (f : Flag) : Bool := (r.get k).contains f

def putEntry (k : Key) (s : FlagSet) : List (Key × FlagSet) → List (Key × FlagSet)
  | [] => [(k, s)]
  | (k', s') :: rest =>
    if k = k' then (k, s) :: rest
    else if k.before k' then (k, s) :: (k', s') :: rest
    else (k', s') :: putEntry k s rest

def put (r : FlagRegistry) (k : Key) (s : FlagSet) : FlagRegistry := ⟨putEntry k s r.entries⟩

def insert (r : FlagRegistry) (k : Key) (f : Flag) : FlagRegistry := r.put k ((r.get k).insert f)

def keysWith (r : FlagRegistry) (kind : ArtifactKind) (f : Flag) : List Key :=
  (r.entries.filter fun (k, s) => k.kind == kind && s.contains f).map (·.1)

def size (r : FlagRegistry) : Nat := r.entries.length

def version : Nat := 1

def recordJson (entry : Key × FlagSet) : Json :=
  .object [("key", entry.1.toJson), ("flags", .array (entry.2.toList.map fun f => .string f.name))]

def toJson (r : FlagRegistry) : Json :=
  .object [("version", .ofNat version), ("entries", .array (r.entries.map recordJson))]

def flag? (j : Json) : Option Flag := do Flag.ofName? (← j.name?)

def record? (j : Json) : Option (Key × FlagSet) := do
  match ← j.fields? ["key", "flags"] with
  | [some key, some flags] =>
    some (← Key.ofJson? key, .ofList (← (← flags.list?).mapM flag?))
  | _ => none

def document? (j : Json) : Option (Nat × List (Key × FlagSet)) := do
  match ← j.fields? ["version", "entries"] with
  | [some version, some entries] =>
    some ((← version.word?).toNat, ← (← entries.list?).mapM record?)
  | _ => none

def wanted : Json.Wanted :=
  .record [("version", .all), ("entries", .list (.record [("key", Key.wanted), ("flags", .all)]))]

/-- The registry of a document: of two records of a key the later one counts, and a record without
flags counts for nothing. -/
def ofRecords (records : List (Key × FlagSet)) : FlagRegistry :=
  (records.filter (!·.2.isEmpty)).foldl (fun r e => r.put e.1 e.2) empty

def load (path : String) : Task FlagRegistry := do
  if ← Task.ask (.pathExists path) then
    let text ← Task.readText path (.file (.readFlags path))
    match (Json.take? wanted text).bind document? with
    | none => Task.fail (.flagText path)
    | some (v, records) =>
      if v = version then pure (ofRecords records) else Task.fail (.flagVersion v path)
  else pure empty

def save (r : FlagRegistry) (path : String) : Task Unit :=
  atomicWrite path (Utf8.encode r.toJson.indented)

end FlagRegistry

end SourceDelta
