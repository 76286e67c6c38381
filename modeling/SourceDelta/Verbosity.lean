import SourceDelta.Text.Blank

/-!
# Verbosity

How much is logged: what the environment asks for, or else a level that each
repetition of the verbose option raises.
-/

set_option autoImplicit false

namespace SourceDelta.Verbosity

def environmentName : String := "VARIDELTA_LOG"

def levelName : Nat → String
  | 0 => "warn"
  | 1 => "info"
  | 2 => "debug"
  | _ => "trace"

def directive (repetitions : Nat) (environment : Option String) : String :=
  match environment.map fun s => Text.trim s.toList with
  | none | some [] => levelName repetitions
  | some cs => String.ofList cs

end SourceDelta.Verbosity
