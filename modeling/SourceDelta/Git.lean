import SourceDelta.Diff.Document
import SourceDelta.Failure
import SourceDelta.Text.Blank

/-!
# Git

Commands run in a directory. What they print is text, with U+FFFD for bytes that
are none; a command that fails says why on its error output, or else on its
output.
-/

set_option autoImplicit false

namespace SourceDelta

/-- What a successful command has printed; the error output is trimmed. -/
structure GitOutput where
  stdout : String
  stderr : String

namespace GitOutput

def trimmed (s : String) : String := String.ofList (Text.trim s.toList)

def isEmpty (o : GitOutput) : Bool := Text.allBlank o.stdout.toList

def lines (o : GitOutput) : List String :=
  ((Text.lines o.stdout.toList).filter (· ≠ [])).map String.ofList

end GitOutput

namespace Git

def killedCode : Int := -1

def exitCode (r : GitRun) : Int :=
  match r.exitCode with
  | some n => n
  | none => killedCode

def run (directory : String) (args : List String) : Task GitOutput := do
  let command := args.head?.getD ""
  let r ← Task.attempt (.git directory args) (.gitStart command)
  let stdout := Utf8.lossy r.stdout
  let stderr := GitOutput.trimmed (Utf8.lossy r.stderr)
  if exitCode r = 0 then pure ⟨stdout, stderr⟩
  else
    let output := if stderr = "" then GitOutput.trimmed stdout else stderr
    Task.fail (.gitExit command (exitCode r) output)

def repositoryRoot (directory : String) : Task String := do
  let found ← ExceptT.lift (run directory ["rev-parse", "--show-toplevel"]).run
  match found with
  | .ok output => pure (GitOutput.trimmed output.stdout)
  | .error _ => Task.fail (.noRepository directory)

/-- The diff between two revisions. A renamed file is deleted and added, and changes of binary
files show. -/
def diffRevisions (repository old new : String) : Task String := do
  let output ← run repository ["diff", "--no-renames", "--no-color", "--binary", old, new]
  pure output.stdout

def changes (contextLine : Bool) (repository old new : String) : Task DiffSet := do
  let text ← diffRevisions repository old new
  Task.ofExcept .diff (Diff.parse contextLine text)

def apply (tree diffFile : String) : Task Unit := do
  let _ ← run tree ["apply", "--whitespace=nowarn", diffFile]
  pure ()

end Git

def Diff.parseFile (contextLine : Bool) (path : String) : Task DiffSet := do
  let text ← Task.readText path (.file (.readDiff path))
  Task.ofExcept .diff (Diff.parse contextLine text)

end SourceDelta
