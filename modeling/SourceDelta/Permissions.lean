import SourceDelta.Text.Blank
import SourceDelta.Text.Digits

/-!
# Permission bits

The mode of a file as a diff states it: three octal digits, and a fourth before
them when set-user, set-group or sticky bits are on.
-/

set_option autoImplicit false

namespace SourceDelta
open SourceDelta.Text

structure Permissions where
  mode : UInt32
  deriving DecidableEq, Inhabited

namespace Permissions

def ofOctal? (ds : List Char) : Option Permissions :=
  if 3 ≤ ds.length ∧ ds.length ≤ 4 ∧ ds.all isOctal then
    some ⟨UInt32.ofNat (valueIn 8 ds)⟩
  else none

def text (p : Permissions) : String := String.ofList (octal p.mode.toNat)

def executable (p : Permissions) : Bool := p.mode &&& 0o111 != 0

/-- The permissions in the last word of a header line such as `index 1a2b..3c4d 100644`:
its last three digits, or its last four when the fourth is not zero. -/
def trailing? (line : List Char) : Option Permissions := do
  let word ← lastWord? line
  if word.length < 3 || !word.all isDigit then none
  else
    match word.drop (word.length - 4) with
    | [d, a, b, c] => if d = '0' then ofOctal? [a, b, c] else ofOctal? [d, a, b, c]
    | ds => ofOctal? ds

end Permissions

end SourceDelta
