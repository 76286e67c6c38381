import SourceDelta.Json.Reader
import SourceDelta.Text.Cut

/-!
# Artifacts and their flags

A store keeps one artifact for each source path, one for the build and one for
the variability model. A flag says why an artifact changed since the start of
the generation.
-/

set_option autoImplicit false

namespace SourceDelta

inductive ArtifactKind
  | code | build | variability
  deriving DecidableEq, Inhabited

namespace ArtifactKind

def all : List ArtifactKind := [code, build, variability]

def name : ArtifactKind → String
  | code => "code"
  | build => "build"
  | variability => "variability"

def ofName? (s : String) : Option ArtifactKind := all.find? (·.name == s)

theorem ofName?_name (k : ArtifactKind) : ofName? k.name = some k := by
  cases k <;> decide

end ArtifactKind

inductive Key
  | code (path : String)
  | build
  | variability
  deriving DecidableEq, Inhabited

namespace Key

def ofPath (path : String) : Key := .code (String.ofList (Text.forward path.toList))

def kind : Key → ArtifactKind
  | code _ => .code
  | build => .build
  | variability => .variability

def path? : Key → Option String
  | code path => some path
  | _ => none

def text : Key → String
  | code path => "code artifact '" ++ path ++ "'"
  | build => "build artifact"
  | variability => "variability artifact"

/-- Code keys come first, in the order of their paths. -/
def before : Key → Key → Bool
  | code p, code q => p < q
  | code _, _ => true
  | build, variability => true
  | _, _ => false

def toJson : Key → Json
  | code path => .object [("kind", .string "code"), ("path", .string path)]
  | k => .object [("kind", .string k.kind.name)]

def ofParts? (kind : Json) (path : Option Json) : Option Key := do
  let name ← kind.name?
  match ← ArtifactKind.ofName? name, path with
  | .code, some (.string p) => some (.code p)
  | .code, _ => none
  | .build, none | .build, some .null => some .build
  | .variability, none | .variability, some .null => some .variability
  | _, _ => none

def ofJson? : Json → Option Key
  | .array [kind, path] => ofParts? kind (some path)
  | .array _ => none
  | j => do
    match ← j.fields? ["kind", "path"] with
    | [some kind, path] => ofParts? kind path
    | _ => none

def wanted : Json.Wanted := .record [("kind", .all), ("path", .all)]

end Key

inductive Flag
  | addition | modification | deletion
  | extractionChange
  | auxiliaryChange
  deriving DecidableEq, Inhabited

namespace Flag

def all : List Flag := [addition, modification, deletion, extractionChange, auxiliaryChange]

def name : Flag → String
  | addition => "addition"
  | modification => "modification"
  | deletion => "deletion"
  | extractionChange => "extraction_change"
  | auxiliaryChange => "auxiliary_change"

def ofName? (s : String) : Option Flag := all.find? (·.name == s)

theorem ofName?_name (f : Flag) : ofName? f.name = some f := by
  cases f <;> decide

end Flag

structure FlagSet where
  addition : Bool := false
  modification : Bool := false
  deletion : Bool := false
  extractionChange : Bool := false
  auxiliaryChange : Bool := false
  deriving DecidableEq, Inhabited

namespace FlagSet

def empty : FlagSet := {}

def contains (s : FlagSet) : Flag → Bool
  | .addition => s.addition
  | .modification => s.modification
  | .deletion => s.deletion
  | .extractionChange => s.extractionChange
  | .auxiliaryChange => s.auxiliaryChange

def insert (s : FlagSet) : Flag → FlagSet
  | .addition => { s with addition := true }
  | .modification => { s with modification := true }
  | .deletion => { s with deletion := true }
  | .extractionChange => { s with extractionChange := true }
  | .auxiliaryChange => { s with auxiliaryChange := true }

def toList (s : FlagSet) : List Flag := Flag.all.filter s.contains

def ofList (fs : List Flag) : FlagSet := fs.foldl insert empty

def isEmpty (s : FlagSet) : Bool := s.toList.isEmpty

theorem contains_insert (s : FlagSet) (f g : Flag) :
    (s.insert f).contains g = (f == g || s.contains g) := by
  cases f <;> cases g <;> simp [insert, contains]

theorem ofList_toList (s : FlagSet) : ofList s.toList = s := by
  rcases s with ⟨a, b, c, d, e⟩
  cases a <;> cases b <;> cases c <;> cases d <;> cases e <;> rfl

end FlagSet

end SourceDelta
