import SourceDelta.FileSystem.Tree
import SourceDelta.Script

/-!
# Running scripts on a world

A world is a file system with everything else that a script can ask for: the
working directory, the clock, the numbers for fresh names, and the git program
there is. Running a script on a world gives its result and the world after it.
A run may also be disturbed: requests may be refused, and it may stop.
-/

set_option autoImplicit false

namespace SourceDelta

structure World where
  files : FileSystem
  directory : String
  place : Place
  process : Nat
  fresh : Nat
  clock : Instant
  /-- What git does when it is run, none when there is no git. -/
  git : Option GitRun
  /-- The directory and the arguments of every run of git, the last one first. -/
  gitRuns : List (Place × List String)

namespace World

def change (w : World) : Except IoError FileSystem → Except IoError Unit × World
  | .ok fs => (.ok (), { w with files := fs })
  | .error e => (.error e, w)

def runGit (w : World) (directory : String) (args : List String) :
    Except IoError GitRun × World :=
  if (directory :: args).any Path.hasNul then (.error .nulInCommand, w)
  else
    match w.files.find w.place directory with
    | .error e => (.error e, w)
    | .ok (_, .file _) => (.error .notDirectory, w)
    | .ok (p, .directory) =>
      match w.git with
      | none => (.error .noEntry, w)
      | some run => (.ok run, { w with gitRuns := (p, args) :: w.gitRuns })

def answer {β : Type} (w : World) : Request β → β × World
  | .pathExists p => (w.files.pathExists w.place p, w)
  | .isFile p => (w.files.isFile w.place p, w)
  | .readFile p => (w.files.readFile w.place p, w)
  | .listDirectory p => (w.files.listDirectory w.place p, w)
  | .createDirAll p =>
    let (created, fs) := w.files.createDirAll w.place p
    (created, { w with files := fs })
  | .removeDirAll p =>
    let (removed, fs) := w.files.removeDirAll w.place p
    (removed, { w with files := fs })
  | .createFile p => w.change (w.files.openFile (fun _ => []) w.place p)
  | .openAppend p => w.change (w.files.openFile id w.place p)
  | .write p bs => w.change (w.files.modifyFile (· ++ bs) w.place p)
  | .sync p => w.change (w.files.modifyFile id w.place p)
  | .rename a b => w.change (w.files.rename w.place a b)
  | .removeFile p => w.change (w.files.removeFile w.place p)
  | .freshName => ((w.process, w.fresh), { w with fresh := w.fresh + 1 })
  | .now => (w.clock, w)
  | .workingDirectory => (.ok w.directory, w)
  | .git d args => w.runGit d args

end World

namespace Script

def run {α : Type} : Script α → World → α × World
  | .done a, w => (a, w)
  | .ask r next, w =>
    let (b, w) := w.answer r
    run (next b) w

/-- Runs a script while the requests that `refuse` names by their number fail with no effect. -/
def runRefusing {α : Type} (refuse : Nat → Option IoError) : Nat → Script α → World → α × World
  | _, .done a, w => (a, w)
  | n, .ask r next, w =>
    match (refuse n).bind fun e => r.refusal? e with
    | some b => runRefusing refuse (n + 1) (next b) w
    | none =>
      let (b, w) := w.answer r
      runRefusing refuse (n + 1) (next b) w

/-- The world in which a script has answered its first requests and then stopped. -/
def stopAfter {α : Type} : Nat → Script α → World → World
  | _, .done _, w => w
  | 0, .ask _ _, w => w
  | n + 1, .ask r next, w =>
    let (b, w) := w.answer r
    stopAfter n (next b) w

theorem run_bind {α γ : Type} (s : Script α) (f : α → Script γ) (w : World) :
    (s.bind f).run w = (f (s.run w).1).run (s.run w).2 := by
  induction s generalizing w with
  | done a => rfl
  | ask r next ih => simp only [bind, run, ih]

theorem runRefusing_none {α : Type} (n : Nat) (s : Script α) (w : World) :
    s.runRefusing (fun _ => none) n w = s.run w := by
  induction s generalizing n w with
  | done a => rfl
  | ask r next ih => simp [runRefusing, run, ih]

end Script

end SourceDelta
