import SourceDelta.FileSystem.Staged
import SourceDelta.Store.Key

/-!
# The layout of a store

A store is a directory with three areas: the current values, the values that
they have displaced, and the values from the start of the generation that were
displaced twice. An artifact of code has a file name that tells its path: `/` is
written `#`, and `%` and `#` are escaped, so that no two paths share a name.
-/

set_option autoImplicit false

namespace SourceDelta

inductive Area
  | current | previous | baseline
  deriving DecidableEq

namespace Area

def all : List Area := [current, previous, baseline]

def name : Area → String
  | current => "current"
  | previous => "previous"
  | baseline => "baseline"

end Area

namespace FileName
open SourceDelta.Text

def encodeChar (c : Char) : List Char :=
  if c = '%' then ['%', '2', '5']
  else if c = '#' then ['%', '2', '3']
  else if c = '/' then ['#']
  else [c]

def stem (path : List Char) : List Char := path.flatMap encodeChar

def encode (ext path : List Char) : List Char := stem path ++ '.' :: ext

def decodeStem : List Char → Option (List Char)
  | [] => some []
  | '#' :: cs => (decodeStem cs).map ('/' :: ·)
  | '%' :: '2' :: '5' :: cs => (decodeStem cs).map ('%' :: ·)
  | '%' :: '2' :: '3' :: cs => (decodeStem cs).map ('#' :: ·)
  | c :: cs => if c = '%' then none else (decodeStem cs).map (c :: ·)

def isTemporary (name : List Char) : Bool :=
  startsWith ['.'] name && (before? ".tmp".toList name).isSome

/-- The path of a file name, none for the files that are no artifacts of code. -/
def decode? (ext name : List Char) : Option (List Char) := do
  if isTemporary name then none
  else
    let name ← before? ext name
    let s ← before? ['.'] name
    decodeStem s

end FileName

structure Layout where
  root : String
  extension : String
  deriving DecidableEq

namespace Layout

def areaPath (l : Layout) (a : Area) : String := Path.join l.root a.name

def codePath (l : Layout) (a : Area) : String := Path.join (l.areaPath a) "code"

def flagsPath (l : Layout) : String := Path.join (Path.join l.root "meta") "flags.json"

def journalPath (l : Layout) : String := Path.join l.root "journal.ndjson"

def codeName (l : Layout) (path : String) : String :=
  String.ofList (FileName.encode l.extension.toList path.toList)

def artifactPath (l : Layout) (a : Area) : Key → String
  | .code path => Path.join (l.codePath a) (l.codeName path)
  | k => Path.join (l.areaPath a) (k.kind.name ++ "." ++ l.extension)

def createAreas (l : Layout) : List Area → Task Unit
  | [] => pure ()
  | a :: rest => do
    Task.attempt (.createDirAll (l.codePath a)) (.file (.createArea (l.codePath a)))
    createAreas l rest

def create (l : Layout) : Task Unit := l.createAreas Area.all

def reset (l : Layout) (a : Area) : Task Unit := do
  let path := l.areaPath a
  if ← Task.ask (.pathExists path) then
    Task.attempt (.removeDirAll path) (.file (.discardArea path))
  Task.attempt (.createDirAll (Path.join path "code")) (.file (.recreateArea path))

def insertSorted (p : String) : List String → List String
  | [] => [p]
  | q :: qs => if p ≤ q then p :: q :: qs else q :: insertSorted p qs

def sorted (ps : List String) : List String := ps.foldr insertSorted []

def codePaths (l : Layout) (names : List String) : List String :=
  sorted (names.filterMap fun n =>
    (FileName.decode? l.extension.toList n.toList).map String.ofList)

/-- The keys with a value in an area: code sorted by path, then the build and the model. -/
def keys (l : Layout) (a : Area) : Task (List Key) := do
  let directory := l.codePath a
  let names ←
    if ← Task.ask (.pathExists directory) then
      Task.attempt (.listDirectory directory) (.file (.listArea directory))
    else pure []
  let hasBuild ← Task.ask (.pathExists (l.artifactPath a .build))
  let hasModel ← Task.ask (.pathExists (l.artifactPath a .variability))
  pure ((l.codePaths names).map Key.code ++
    (if hasBuild then [Key.build] else []) ++ (if hasModel then [Key.variability] else []))

end Layout

end SourceDelta
