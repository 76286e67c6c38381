import SourceDelta.FileSystem.Error
import SourceDelta.Path
import SourceDelta.Text.Utf8

/-!
# File systems

A file system is a finite map from places to directories and files. A place is
the list of the names that lead to it, innermost first, so that the tail of a
place is the directory around it. Some directories are the roots of other
devices; a rename cannot cross from one device to another.
-/

set_option autoImplicit false

namespace SourceDelta

inductive Node
  | directory
  | file (content : Bytes)
  deriving DecidableEq

abbrev Place := List String

structure FileSystem where
  nodes : List (Place × Node)
  /-- The directories where another device starts. -/
  mounts : List Place
  deriving DecidableEq

namespace FileSystem

def empty : FileSystem := ⟨[], []⟩

/-- What stands at a place. The root is always a directory. -/
def node? (fs : FileSystem) : Place → Option Node
  | [] => some .directory
  | p => fs.nodes.lookup p

def erase (fs : FileSystem) (p : Place) : FileSystem :=
  { fs with nodes := fs.nodes.filter (·.1 ≠ p) }

def put (fs : FileSystem) (p : Place) (n : Node) : FileSystem :=
  { fs with nodes := (p, n) :: (fs.erase p).nodes }

def within (directory p : Place) : Bool := directory.isSuffixOf p

def eraseTree (fs : FileSystem) (p : Place) : FileSystem :=
  { fs with nodes := fs.nodes.filter (!within p ·.1) }

def eraseBelow (fs : FileSystem) (p : Place) : FileSystem :=
  { fs with nodes := fs.nodes.filter fun (q, _) => q = p || !within p q }

def moveTree (fs : FileSystem) (source target : Place) : FileSystem :=
  let moved := fs.nodes.filter (within source ·.1)
  let rename (p : Place) : Place := p.take (p.length - source.length) ++ target
  let kept := ((fs.eraseTree source).eraseTree target).nodes
  { fs with nodes := moved.map (fun (p, n) => (rename p, n)) ++ kept }

def names (fs : FileSystem) (directory : Place) : List String :=
  fs.nodes.filterMap fun (p, _) =>
    match p with
    | name :: d => if d = directory then some name else none
    | [] => none

/-- The device of a place, named by the directory where it starts. -/
def device (fs : FileSystem) (p : Place) : Place :=
  (fs.mounts.find? (within · p)).getD []

inductive Last
  | name (s : String)
  | here
  | up
  deriving DecidableEq

/-- A lookup before its last step: the directory it has come to, and whether the path ends in a
slash and so names a directory. -/
structure Target where
  directory : Place
  last : Last
  slash : Bool
  deriving DecidableEq

def Last.ofName (s : String) : Last := if s = "." then .here else if s = ".." then .up else .name s

def Last.isName : Last → Bool
  | .name _ => true
  | _ => false

def maxName : Nat := 255

def maxPath : Nat := 4095

def step (fs : FileSystem) (directory : Place) (last : Last) : Except IoError Place :=
  match fs.node? directory with
  | none => .error .noEntry
  | some (.file _) => .error .notDirectory
  | some .directory =>
    match last with
    | .here => .ok directory
    | .up => .ok directory.tail
    | .name s => if maxName < s.utf8ByteSize then .error .nameTooLong else .ok (s :: directory)

def follow (fs : FileSystem) (slash : Bool) : Place → List String → Except IoError Target
  | d, [] => .ok ⟨d, .here, slash⟩
  | d, [s] => .ok ⟨d, .ofName s, slash⟩
  | d, s :: t :: rest =>
    match fs.step d (.ofName s) with
    | .ok d => follow fs slash d (t :: rest)
    | .error e => .error e

def target (fs : FileSystem) (cwd : Place) (path : String) : Except IoError Target :=
  if Path.hasNul path then .error .nulInPath
  else if path = "" then .error .noEntry
  else if maxPath < path.utf8ByteSize then .error .nameTooLong
  else
    let (names, slash) := Path.names path
    match fs.follow slash (if Path.isAbsolute path then [] else cwd) names with
    | .error e => .error e
    | .ok t =>
      match fs.node? t.directory with
      | none => .error .noEntry
      | some (.file _) => .error .notDirectory
      | some .directory => .ok t

def place (fs : FileSystem) (cwd : Place) (path : String) : Except IoError Place :=
  match fs.target cwd path with
  | .error e => .error e
  | .ok t => fs.step t.directory t.last

def find (fs : FileSystem) (cwd : Place) (path : String) : Except IoError (Place × Node) :=
  match fs.target cwd path with
  | .error e => .error e
  | .ok t =>
    match fs.step t.directory t.last with
    | .error e => .error e
    | .ok p =>
      match fs.node? p, t.slash with
      | none, _ => .error .noEntry
      | some (.file _), true => .error .notDirectory
      | some n, _ => .ok (p, n)

def pathExists (fs : FileSystem) (cwd : Place) (path : String) : Bool :=
  match fs.find cwd path with
  | .ok _ => true
  | .error _ => false

def isFile (fs : FileSystem) (cwd : Place) (path : String) : Bool :=
  match fs.find cwd path with
  | .ok (_, .file _) => true
  | _ => false

def isDirectory (fs : FileSystem) (cwd : Place) (path : String) : Bool :=
  match fs.find cwd path with
  | .ok (_, .directory) => true
  | _ => false

def createDirectory (fs : FileSystem) (cwd : Place) (path : String) : Except IoError FileSystem :=
  match fs.place cwd path with
  | .error e => .error e
  | .ok p =>
    match fs.node? p with
    | some _ => .error .alreadyExists
    | none => .ok (fs.put p .directory)

/-- Creates a directory, and before it the directories around it that are missing. Those that were
created before an error stay. -/
def createDirectories (cwd : Place) : Nat → String → FileSystem → Except IoError Unit × FileSystem
  | 0, _, fs => (.ok (), fs)
  | depth + 1, path, fs =>
    if path = "" || fs.isDirectory cwd path then (.ok (), fs)
    else
      match fs.createDirectory cwd path with
      | .ok fs => (.ok (), fs)
      | .error .noEntry =>
        match Path.parent? path with
        | none => (.error .noEntry, fs)
        | some parent =>
          match createDirectories cwd depth parent fs with
          | (.error e, fs) => (.error e, fs)
          | (.ok (), fs) =>
            if fs.isDirectory cwd path then (.ok (), fs)
            else
              match fs.createDirectory cwd path with
              | .ok fs => (.ok (), fs)
              | .error e => (.error e, fs)
      | .error e => (.error e, fs)

/-- Creates a directory with those around it. A path has fewer names than characters. -/
def createDirAll (fs : FileSystem) (cwd : Place) (path : String) :
    Except IoError Unit × FileSystem :=
  createDirectories cwd (path.length + 1) path fs

def readFile (fs : FileSystem) (cwd : Place) (path : String) : Except IoError Bytes :=
  match fs.find cwd path with
  | .error e => .error e
  | .ok (_, .directory) => .error .isDirectory
  | .ok (_, .file content) => .ok content

def listDirectory (fs : FileSystem) (cwd : Place) (path : String) : Except IoError (List String) :=
  match fs.find cwd path with
  | .error e => .error e
  | .ok (p, .directory) => .ok (fs.names p)
  | .ok (_, .file _) => .error .notDirectory

/-- Opens a file for writing and creates it when it is missing; `change` gives the content that an
existing file is left with. -/
def openFile (change : Bytes → Bytes) (fs : FileSystem) (cwd : Place) (path : String) :
    Except IoError FileSystem :=
  match fs.target cwd path with
  | .error e => .error e
  | .ok t =>
    match fs.step t.directory t.last with
    | .error e => .error e
    | .ok p =>
      match fs.node? p with
      | some .directory => .error .isDirectory
      | some (.file content) =>
        if t.slash then .error .notDirectory else .ok (fs.put p (.file (change content)))
      | none => if t.slash then .error .isDirectory else .ok (fs.put p (.file []))

def modifyFile (change : Bytes → Bytes) (fs : FileSystem) (cwd : Place) (path : String) :
    Except IoError FileSystem :=
  match fs.find cwd path with
  | .error e => .error e
  | .ok (_, .directory) => .error .isDirectory
  | .ok (p, .file content) => .ok (fs.put p (.file (change content)))

def renameNode (fs : FileSystem) (source target : Place) : Except IoError FileSystem :=
  match fs.node? source with
  | none => .error .noEntry
  | some n =>
    if source = target then .ok fs
    else if within source target then .error .invalidArgument
    else if within target source then .error .notEmpty
    else
      match n, fs.node? target with
      | .directory, some (.file _) => .error .notDirectory
      | .file _, some .directory => .error .isDirectory
      | .directory, some .directory =>
        if fs.names target = [] then .ok (fs.moveTree source target) else .error .notEmpty
      | .directory, none => .ok (fs.moveTree source target)
      | .file content, _ => .ok ((fs.erase source).put target (.file content))

/-- Renames a file or directory, in the place of what stands at the new path. Both paths have to end
in names. -/
def rename (fs : FileSystem) (cwd : Place) (old new : String) : Except IoError FileSystem :=
  match fs.target cwd old with
  | .error e => .error e
  | .ok s =>
    match fs.target cwd new with
    | .error e => .error e
    | .ok t =>
      if fs.device s.directory ≠ fs.device t.directory then .error .crossDevice
      else if !s.last.isName || !t.last.isName then .error .busy
      else
        match fs.step s.directory s.last with
        | .error e => .error e
        | .ok source =>
          match fs.node? source with
          | none => .error .noEntry
          | some n =>
            match fs.step t.directory t.last with
            | .error e => .error e
            | .ok target =>
              if n ≠ .directory && (s.slash || t.slash) then .error .notDirectory
              else fs.renameNode source target

def removeFile (fs : FileSystem) (cwd : Place) (path : String) : Except IoError FileSystem :=
  match fs.find cwd path with
  | .error e => .error e
  | .ok (_, .directory) => .error .isDirectory
  | .ok (p, .file _) => .ok (fs.erase p)

/-- Removes a directory with everything in it. The directory itself goes only where the path ends
in its name: a dot there is refused when the directory is already empty, and a `..` no longer leads
to it. -/
def removeDirAll (fs : FileSystem) (cwd : Place) (path : String) :
    Except IoError Unit × FileSystem :=
  match fs.find cwd path with
  | .error e => (.error e, fs)
  | .ok (_, .file _) => (.error .notDirectory, fs)
  | .ok (p, .directory) =>
    match fs.target cwd path with
    | .ok ⟨_, .name _, _⟩ => (.ok (), fs.eraseTree p)
    | .ok ⟨_, .here, _⟩ => (.error .invalidArgument, fs.eraseBelow p)
    | _ => (.ok (), fs.eraseBelow p)

end FileSystem

end SourceDelta
