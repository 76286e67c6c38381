import SourceDelta.Glob
import SourceDelta.Json.Value
import SourceDelta.Text.Blank

/-!
# Configuration

The settings of a run: where artifacts are kept and under which suffix, how
hunk headers count, which paths are selected and which files can bear
variability. A configuration is valid when its store can be laid out and all its
globs can be read.
-/

set_option autoImplicit false

namespace SourceDelta

inductive FilterKind
  | all | changedOnly | glob | variability
  deriving DecidableEq, Inhabited

namespace FilterKind

def kinds : List FilterKind := [all, changedOnly, glob, variability]

def name : FilterKind → String
  | all => "all"
  | changedOnly => "changed-only"
  | glob => "glob"
  | variability => "variability"

def ofName? (s : String) : Option FilterKind := kinds.find? (·.name == s)

end FilterKind

inductive ClassifierKind
  | heuristic | disabled
  deriving DecidableEq, Inhabited

namespace ClassifierKind

def kinds : List ClassifierKind := [heuristic, disabled]

def name : ClassifierKind → String
  | heuristic => "heuristic"
  | disabled => "none"

def ofName? (s : String) : Option ClassifierKind := kinds.find? (·.name == s)

end ClassifierKind

structure Config where
  storeRoot : String
  codeExtension : String
  headerContextAsLine : Bool
  filter : FilterKind
  filterGlobs : List String
  classifier : ClassifierKind
  variabilityFileGlobs : List String
  deriving DecidableEq

namespace Config

def fileName : String := ".varidelta.yaml"

def defaultVariabilityFileGlobs : List String :=
  ["**/*.c", "**/*.h", "**/*.S", "**/Kconfig*", "**/Makefile*", "**/Kbuild*"]

def default : Config :=
  ⟨".varidelta/cache", "cache", true, .all, [], .heuristic, defaultVariabilityFileGlobs⟩

inductive GlobField
  | filterGlobs | variabilityFileGlobs
  deriving DecidableEq

def GlobField.name : GlobField → String
  | filterGlobs => "filter_globs"
  | variabilityFileGlobs => "variability_file_globs"

inductive Fault
  | emptyStoreRoot
  | emptyExtension
  | leadingDot (extension : String)
  | unusableExtension (extension : String)
  | badGlobs (field : GlobField) (bad : Glob.BadPatterns)
  | noFilterGlobs
  | yaml
  deriving DecidableEq

def Fault.message : Fault → String
  | emptyStoreRoot => "config validation failed: store_root must be non-empty"
  | emptyExtension => "config validation failed: code_extension must be non-empty"
  | leadingDot ext =>
    "config validation failed: code_extension must not have a leading dot (found '" ++ ext ++
      "'). Use '" ++ String.ofList (ext.toList.dropWhile (· = '.')) ++ "' instead."
  | unusableExtension ext =>
    "config validation failed: '" ++ ext ++ "' cannot be used as code_extension"
  | badGlobs field (.unreadable pattern fault) =>
    "invalid glob pattern in " ++ field.name ++ ": '" ++ pattern ++ "' - error parsing glob '" ++
      String.ofList (Text.forward pattern.toList) ++ "': " ++ fault.message
  | badGlobs field (.deepExpression expression) =>
    "failed to compile " ++ field.name ++ " globs: error parsing glob '" ++ expression ++
      "': error parsing pattern 0"
  | badGlobs field (.deepAt place) =>
    "failed to compile " ++ field.name ++ " globs: error parsing pattern " ++ toString place
  | noFilterGlobs =>
    "config validation failed: filter 'glob' requires at least one entry in filter_globs"
  | yaml => "failed to parse config YAML"

def globs (field : GlobField) (patterns : List String) : Except Fault (List Glob) :=
  (Glob.ofPatterns patterns).mapError (.badGlobs field)

def validate (c : Config) : Except Fault Unit :=
  let ext := c.codeExtension.toList
  if Text.allBlank c.storeRoot.toList then .error .emptyStoreRoot
  else if ext = [] then .error .emptyExtension
  else if ext.head? = some '.' then .error (.leadingDot c.codeExtension)
  else if ext.contains '/' || ext.contains '\\' || ext = "tmp".toList then
    .error (.unusableExtension c.codeExtension)
  else do
    let _ ← globs .variabilityFileGlobs c.variabilityFileGlobs
    let _ ← globs .filterGlobs c.filterGlobs
    if c.filter = .glob ∧ c.filterGlobs = [] then .error .noFilterGlobs else .ok ()

def fieldNames : List String :=
  ["store_root", "code_extension", "header_context_as_line", "filter", "filter_globs", "classifier",
    "variability_file_globs"]

def strings? (j : Json) : Option (List String) := do
  (← j.list?).mapM Json.string?

def ofJson? (j : Json) : Option Config := do
  match ← j.fields? fieldNames with
  | [root, ext, context, filter, globs, classifier, files] =>
    some {
      storeRoot := ← Json.orElse default.storeRoot Json.string? root
      codeExtension := ← Json.orElse default.codeExtension Json.string? ext
      headerContextAsLine := ← Json.orElse default.headerContextAsLine Json.bool? context
      filter := ← Json.orElse default.filter (fun v => do FilterKind.ofName? (← v.name?)) filter
      filterGlobs := ← Json.orElse default.filterGlobs strings? globs
      classifier := ←
        Json.orElse default.classifier (fun v => do ClassifierKind.ofName? (← v.name?)) classifier
      variabilityFileGlobs := ← Json.orElse default.variabilityFileGlobs strings? files }
  | _ => none

def toJson (c : Config) : Json :=
  .object [
    ("store_root", .string c.storeRoot),
    ("code_extension", .string c.codeExtension),
    ("header_context_as_line", .bool c.headerContextAsLine),
    ("filter", .string c.filter.name),
    ("filter_globs", .array (c.filterGlobs.map .string)),
    ("classifier", .string c.classifier.name),
    ("variability_file_globs", .array (c.variabilityFileGlobs.map .string))]

end Config

end SourceDelta
