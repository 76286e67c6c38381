import SourceDelta.DiffSet
import SourceDelta.Json.Value

/-!
# Diff sets in JSON

A set is written as the list of its changes, a change as the record of its
fields. Permissions that are not stated and empty contents are left out; reading
puts them back, together with the flags and the verdict, which may be left out
as well.
-/

set_option autoImplicit false

namespace SourceDelta

def Run.toJson (r : Run) : Json :=
  .object <| [("kind", .string r.kind.name), ("count", .ofNat r.count.toNat)] ++
    if r.content = "" then [] else [("content", .string r.content)]

def Run.ofJson? (j : Json) : Option Run := do
  match ← j.fields? ["kind", "count", "content"] with
  | [some kind, some count, content] =>
    let name ← kind.name?
    some ⟨← LineKind.ofName? name, ← count.word?, ← Json.orElse "" Json.string? content⟩
  | _ => none

namespace Permissions

def toJson (p : Permissions) : Json := .ofNat p.mode.toNat

def ofJson? (j : Json) : Option Permissions := j.word?.map .mk

end Permissions

namespace FileChange

def optional (name : String) : Option Permissions → List (String × Json)
  | none => []
  | some p => [(name, p.toJson)]

def toJson (c : FileChange) : Json :=
  .object <| [("path", .string c.path), ("change_kind", .string c.kind.name)] ++
    optional "permissions" c.permissions ++ optional "old_permissions" c.oldPermissions ++
    [("lines", .array (c.runs.map Run.toJson)),
      ("no_trailing_newline", .bool c.noTrailingNewline),
      ("binary", .bool c.binary),
      ("variability_change", .string c.verdict.name)]

def fieldNames : List String :=
  ["path", "change_kind", "permissions", "old_permissions", "lines", "no_trailing_newline",
    "binary", "variability_change"]

def ofJson? (j : Json) : Option FileChange := do
  match ← j.fields? fieldNames with
  | [some path, some kind, new, old, some lines, unended, binary, verdict] =>
    let kindName ← kind.name?
    some {
      path := ← path.string?
      kind := ← ChangeKind.ofName? kindName
      permissions := ← Json.orElse none (Json.nullable Permissions.ofJson?) new
      oldPermissions := ← Json.orElse none (Json.nullable Permissions.ofJson?) old
      runs := ← (← lines.list?).mapM Run.ofJson?
      noTrailingNewline := ← Json.orElse false Json.bool? unended
      binary := ← Json.orElse false Json.bool? binary
      verdict := ← Json.orElse .notAnalyzed (fun v => do Verdict.ofName? (← v.name?)) verdict }
  | _ => none

def listOfJson? (j : Json) : Option (List FileChange) := do
  (← j.list?).mapM ofJson?

end FileChange

namespace DiffSet

def toJson (s : DiffSet) : Json := .array (s.entries.map FileChange.toJson)

inductive ReadFault
  | shape
  | duplicate (path : String)
  deriving DecidableEq

def ofJson (j : Json) : Except ReadFault DiffSet :=
  match FileChange.listOfJson? j with
  | none => .error .shape
  | some cs =>
    match ofDistinct cs with
    | .ok s => .ok s
    | .error path => .error (.duplicate path)

end DiffSet

end SourceDelta
