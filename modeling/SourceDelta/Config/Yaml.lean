import SourceDelta.Config
import SourceDelta.Yaml.Node
import SourceDelta.Yaml.Rendering

/-!
# Configurations in YAML

A configuration is a mapping from the names of its fields. Fields may be left
out, unknown names are passed over, and a known name stands at most once. A text
field takes the text of any scalar. What is read has to be valid.
-/

set_option autoImplicit false

namespace SourceDelta.Config
open SourceDelta.Yaml

def text? (document n : Yaml.Node) : Option (List Char) :=
  match document.resolve? n with
  | some (.scalar _ _ _ text) => some text
  | _ => none

def string? (document n : Yaml.Node) : Option String := (text? document n).map String.ofList

def boolTag : Bytes := asciiBytes "tag:yaml.org,2002:bool".toList

/-- A truth value: plain, or in a block with its tag. -/
def bool? (document n : Yaml.Node) : Option Bool :=
  match document.resolve? n with
  | some (.scalar _ tag style text) =>
    if style = .plain || (style = .literal && tag = some boolTag) then
      if trueNames.contains (String.ofList text) then some true
      else if falseNames.contains (String.ofList text) then some false
      else none
    else none
  | _ => none

def isNothing (style : Style) (text : List Char) : Bool :=
  style = .plain && (text.isEmpty || nullNames.contains (String.ofList text))

/-- A name: the text of a scalar, or what follows the exclamation mark of a tag in front of
nothing. -/
def choice? (document n : Yaml.Node) : Option String :=
  match document.resolve? n with
  | some (.scalar _ (some (0x21 :: name)) style text) =>
    match Utf8.decode? name with
    | some name => if isNothing style text then some name else none
    | none => some (String.ofList text)
  | some (.scalar _ _ _ text) => some (String.ofList text)
  | _ => none

def texts? (document n : Yaml.Node) : Option (List String) :=
  match document.resolve? n with
  | some (.sequence _ items) => items.mapM (string? document)
  | some (.scalar _ _ .plain []) => some []
  | _ => none

/-- The value of a field, none when the mapping lacks it; a field that stands twice has no
reading. -/
def field? (pairs : List (String × Yaml.Node)) (name : String) : Option (Option Yaml.Node) :=
  match pairs.filter (·.1 == name) with
  | [] => some none
  | [p] => some (some p.2)
  | _ => none

def orDefault {α : Type} (default : α) (read : Yaml.Node → Option α) :
    Option Yaml.Node → Option α
  | none => some default
  | some n => read n

def ofPairs? (document : Yaml.Node) (pairs : List (String × Yaml.Node)) : Option Config := do
  let root ← field? pairs "store_root"
  let ext ← field? pairs "code_extension"
  let context ← field? pairs "header_context_as_line"
  let filter ← field? pairs "filter"
  let globs ← field? pairs "filter_globs"
  let classifier ← field? pairs "classifier"
  let files ← field? pairs "variability_file_globs"
  some {
    storeRoot := ← orDefault default.storeRoot (string? document) root
    codeExtension := ← orDefault default.codeExtension (string? document) ext
    headerContextAsLine := ← orDefault default.headerContextAsLine (bool? document) context
    filter := ← orDefault default.filter
      (fun n => do FilterKind.ofName? (← choice? document n)) filter
    filterGlobs := ← orDefault default.filterGlobs (texts? document) globs
    classifier := ← orDefault default.classifier
      (fun n => do ClassifierKind.ofName? (← choice? document n)) classifier
    variabilityFileGlobs := ← orDefault default.variabilityFileGlobs (texts? document) files }

def ofNode? : Yaml.Node → Option Config
  | .mapping anchor pairs => do
    let document := Yaml.Node.mapping anchor pairs
    ofPairs? document (← pairs.mapM fun (k, v) => do some (← string? document k, v))
  | .scalar _ _ .plain [] => some default
  | _ => none

/-- Reads a valid configuration. A blank text is the default. -/
def ofYaml (s : String) : Except Fault Config :=
  if Text.allBlank s.toList then .ok default
  else
    match Yaml.Node.ofText? s with
    | none => .error .yaml
    | some root =>
      match (match root with | none => some default | some n => ofNode? n) with
      | none => .error .yaml
      | some c => c.validate.map fun _ => c

def boolText (b : Bool) : List Char := if b then "true".toList else "false".toList

def toYaml (c : Config) : String :=
  String.ofList <|
    renderField "store_root" (renderText c.storeRoot) ++
    renderField "code_extension" (renderText c.codeExtension) ++
    renderField "header_context_as_line" (boolText c.headerContextAsLine) ++
    renderField "filter" (renderText c.filter.name) ++
    renderList "filter_globs" c.filterGlobs ++
    renderField "classifier" (renderText c.classifier.name) ++
    renderList "variability_file_globs" c.variabilityFileGlobs

end SourceDelta.Config
