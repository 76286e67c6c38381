import SourceDelta.Config
import SourceDelta.Diff.Fault
import SourceDelta.FileSystem.Error
import SourceDelta.Store.Key
import SourceDelta.Script
import SourceDelta.Position

/-!
# Failures

Everything that can end an operation, by its cause. A failure belongs to a
category, and the category decides the exit code; the message names the cause.
-/

set_option autoImplicit false

namespace SourceDelta

/-- What was being done to a file when the system refused. -/
inductive FileTask
  | readDiff (path : String)
  | replace (path : String)
  | createParent (path : String)
  | createTemporary (path : String)
  | writeTemporary (path : String)
  | createDestination (path : String)
  | move (source target : String)
  | deleteMoved (path : String)
  | remove (path : String)
  | createArea (path : String)
  | discardArea (path : String)
  | recreateArea (path : String)
  | listArea (path : String)
  | readFlags (path : String)
  | readArtifact (key : Key) (path : String)
  | readJournal (path : String)
  | createJournalDirectory (path : String)
  | openJournal (path : String)
  | appendJournal (path : String)
  deriving DecidableEq

def inQuotes (s : String) : String := "'" ++ s ++ "'"

def FileTask.text : FileTask → String
  | readDiff p => "failed to read diff file " ++ inQuotes p
  | replace p => "failed to atomically replace " ++ inQuotes p
  | createParent p => "failed to create parent directory " ++ inQuotes p
  | createTemporary p => "failed to create temporary file " ++ inQuotes p
  | writeTemporary p => "failed to write temporary file " ++ inQuotes p
  | createDestination p => "failed to create destination directory " ++ inQuotes p
  | move a b => "failed to move " ++ inQuotes a ++ " to " ++ inQuotes b
  | deleteMoved p => "moved " ++ inQuotes p ++ " across devices but failed to delete the source"
  | remove p => "failed to remove " ++ inQuotes p
  | createArea p => "failed to create store directory " ++ inQuotes p
  | discardArea p => "failed to discard store directory " ++ inQuotes p
  | recreateArea p => "failed to recreate store directory " ++ inQuotes p
  | listArea p => "failed to list store directory " ++ inQuotes p
  | readFlags p => "failed to read flag metadata " ++ inQuotes p
  | readArtifact key p => "failed to read " ++ key.text ++ " " ++ inQuotes p
  | readJournal p => "failed to read journal " ++ inQuotes p
  | createJournalDirectory p => "failed to create journal directory " ++ inQuotes p
  | openJournal p => "failed to open journal " ++ inQuotes p
  | appendJournal p => "failed to append to journal " ++ inQuotes p

inductive Generation
  | current | previous
  deriving DecidableEq

def Generation.name : Generation → String
  | current => "current"
  | previous => "previous"

inductive Misuse
  | lineZero
  | noDiff
  | unknownKind (name : String)
  | unknownFlag (name : String)
  | noPath
  | unconfirmed (command : String)
  deriving DecidableEq

def Misuse.message : Misuse → String
  | lineZero => "line numbers start at 1"
  | noDiff => "either a diff file or --git OLD NEW is required"
  | unknownKind name =>
    "unknown artifact kind " ++ inQuotes name ++ " (expected code, build, or variability)"
  | unknownFlag name =>
    "unknown flag " ++ inQuotes name ++ " (expected one of: " ++
      String.intercalate ", " (Flag.all.map Flag.name) ++ ")"
  | noPath => "a source path is required for code artifacts"
  | unconfirmed command =>
    "refusing to " ++ command.map (fun c => if c = '-' then ' ' else c) ++
      " without --force flag.\n\nThis discards the previous generation of every artifact.\n\n" ++
      "To proceed, run:\n  varidelta store " ++ command ++ " --force"

inductive Failure
  | diff (m : Diff.Malformed)
  | file (task : FileTask) (error : IoError)
  /-- A file on another device cannot be read after its rename was refused. -/
  | readForMove (path : String) (error refused : IoError)
  | noFileName (path : String)
  | noValue (key : Key) (generation : Generation)
  | noValueBefore (key : Key)
  | oneSided (cause : OneSided)
  | unencodable
  | artifactText
  | flagText (path : String)
  | flagVersion (version : Nat) (path : String)
  | journalText (entry : Nat) (path : String)
  | config (fault : Config.Fault)
  | readConfig (path : String) (error : IoError)
  | workingDirectory (error : IoError)
  | misuse (cause : Misuse)
  | noRepository (directory : String)
  | gitStart (command : String) (error : IoError)
  | gitExit (command : String) (code : Int) (output : String)
  | overflow
  deriving DecidableEq

inductive Category
  | parse | io | notFound | serialization | config | git | overflow
  deriving DecidableEq

def Category.exitCode : Category → Nat
  | config => 1
  | parse => 2
  | io | notFound | serialization => 3
  | git => 4
  | overflow => 101

def Category.heading : Category → String
  | parse | config | overflow => ""
  | io => "I/O error: "
  | notFound => "not found: "
  | serialization => "serialization error: "
  | git => "git operation failed: "

namespace Failure

def category : Failure → Category
  | diff _ => .parse
  | file _ _ | readForMove _ _ _ | noFileName _ => .io
  | noValue _ _ | noValueBefore _ | oneSided _ => .notFound
  | unencodable | artifactText | flagText _ | flagVersion _ _ | journalText _ _ => .serialization
  | config _ | readConfig _ _ | workingDirectory _ | misuse _ | noRepository _ => .config
  | gitStart _ _ | gitExit _ _ _ => .git
  | overflow => .overflow

def exitCode (f : Failure) : Nat := f.category.exitCode

def cause : Failure → String
  | diff m => m.message
  | file task error => task.text ++ ": " ++ error.message
  | readForMove path error refused =>
    "failed to read " ++ inQuotes path ++ " for cross-device move: " ++ error.message ++
      " (original rename error: " ++ refused.message ++ ")"
  | noFileName path => "invalid file path " ++ inQuotes path
  | noValue key generation => key.text ++ " has no " ++ generation.name ++ " value"
  | noValueBefore key => key.text ++ " was added in this generation and has no previous value"
  | oneSided cause => cause.message
  | unencodable => "failed to encode artifact"
  | artifactText => "failed to decode artifact"
  | flagText path => "failed to parse flag metadata " ++ inQuotes path
  | flagVersion version path =>
    "unsupported flag metadata version " ++ toString version ++ " in " ++ inQuotes path
  | journalText entry path =>
    "invalid journal entry " ++ toString entry ++ " in " ++ inQuotes path
  | config fault => fault.message
  | readConfig path error =>
    "failed to read config file " ++ inQuotes path ++ ": " ++ error.message
  | workingDirectory error => "failed to get current working directory: " ++ error.message
  | misuse cause => cause.message
  | noRepository directory => inQuotes directory ++ " is not inside a git repository"
  | gitStart command error =>
    "failed to execute git " ++ command ++ ": " ++ error.message ++ " (is git installed?)"
  | gitExit command code output =>
    "git " ++ command ++ " failed (exit code " ++ toString code ++ "): " ++ output
  | overflow => "a line number does not fit 32 bits"

def message (f : Failure) : String := f.category.heading ++ f.cause

end Failure

abbrev Task (α : Type) : Type 1 := ExceptT Failure Script α

namespace Task

def ask {β : Type} (r : Request β) : Task β := ExceptT.lift (Script.single r)

def fail {α : Type} (f : Failure) : Task α := ExceptT.mk (.done (.error f))

def attempt {β : Type} (r : Request (Except IoError β)) (failure : IoError → Failure) : Task β :=
  ExceptT.mk do
    match ← Script.single r with
    | .ok b => pure (.ok b)
    | .error e => pure (.error (failure e))

def ofExcept {ε α : Type} (failure : ε → Failure) : Except ε α → Task α
  | .ok a => pure a
  | .error e => fail (failure e)

def readText (path : String) (failure : IoError → Failure) : Task String := do
  let bytes ← attempt (.readFile path) failure
  match Utf8.decode? bytes with
  | some s => pure s
  | none => fail (failure .invalidText)

end Task

end SourceDelta
