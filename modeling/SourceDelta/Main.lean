import SourceDelta.Command.Run
import Std.Time.DateTime.Timestamp

/-!
# The program

Reads the arguments, runs the command on the files of the computer, prints what
it has to say, and leaves the exit code of the outcome. This program starts no
other one: a command that needs git finds none.
-/

set_option autoImplicit false

namespace SourceDelta.Program

def codeOf : IO.Error → Nat × String
  | .alreadyExists _ n s | .otherError n s | .resourceBusy n s | .resourceVanished n s
  | .unsupportedOperation n s | .hardwareFault n s | .unsatisfiedConstraints n s
  | .illegalOperation n s | .protocolError n s | .timeExpired n s | .interrupted _ n s
  | .noFileOrDirectory _ n s | .invalidArgument _ n s | .permissionDenied _ n s
  | .resourceExhausted _ n s | .inappropriateType _ n s | .noSuchThing _ n s => (n.toNat, s)
  | .unexpectedEof => (0, "unexpected end of file")
  | .userError s => (0, s)

def attempt {α : Type} (action : IO α) : IO (Except IoError α) := do
  try
    return .ok (← action)
  catch e =>
    let (code, text) := codeOf e
    return .error (.ofCode text code)

def holds (action : IO Bool) : IO Bool := do
  try action catch _ => return false

def now : IO Instant := do
  let t ← Std.Time.Timestamp.now
  let nanos := t.toNanosecondsSinceUnixEpoch.val
  return ⟨nanos.fdiv 1000000000, (nanos.fmod 1000000000).toNat⟩

def appendBytes (path : String) (bytes : Bytes) : IO Unit := do
  let h ← IO.FS.Handle.mk path .append
  h.write ⟨bytes.toArray⟩
  h.flush

def answer {β : Type} : Request β → IO β
  | .pathExists p => holds do
    let _ ← IO.FS.realPath p
    return true
  | .isFile p => holds do
    let real ← IO.FS.realPath p
    return (← real.metadata).type == .file
  | .readFile p => attempt do return (← IO.FS.readBinFile p).data.toList
  | .listDirectory p => attempt do
    let real ← IO.FS.realPath p
    return (← real.readDir).toList.map (·.fileName)
  | .createDirAll p => attempt (IO.FS.createDirAll p)
  | .removeDirAll p => attempt (IO.FS.removeDirAll p)
  | .createFile p => attempt (IO.FS.writeBinFile p ByteArray.empty)
  | .openAppend p => attempt (appendBytes p [])
  | .write p bytes => attempt (appendBytes p bytes)
  | .sync _ => return .ok ()
  | .rename old new => attempt (IO.FS.rename old new)
  | .removeFile p => attempt (IO.FS.removeFile p)
  | .freshName => return (← IO.rand 1 999999, ← IO.monoNanosNow)
  | .now => now
  | .workingDirectory => attempt do return (← IO.currentDir).toString
  | .git _ _ => return .error .noEntry

def run {α : Type} : Script α → IO α
  | .done a => return a
  | .ask r next => do run (next (← answer r))

def exitCode (n : Nat) : UInt32 := UInt32.ofNat n

def perform (args : List String) : IO UInt32 := do
  match CommandLine.parse args with
  | .error ending =>
    IO.print (ending.text?.getD "")
    return exitCode ending.exitCode
  | .ok invocation =>
    match ← run invocation.run.run with
    | .ok text =>
      IO.print text
      return 0
    | .error failure =>
      IO.eprintln ("Error: " ++ failure.message)
      return exitCode failure.exitCode

end SourceDelta.Program

def main (args : List String) : IO UInt32 := SourceDelta.Program.perform args
