/-!
# Numbers written in digits

Decimal and octal numbers in ASCII digits, and their reading into 32-bit words:
a number that does not fit is no number.
-/

set_option autoImplicit false

namespace SourceDelta.Text

def isDigit (c : Char) : Bool := '0' ≤ c && c ≤ '9'

def isOctal (c : Char) : Bool := '0' ≤ c && c ≤ '7'

def digitValue (c : Char) : Nat := c.toNat - '0'.toNat

/-- The value of the digits in a base, without looking whether they are digits. -/
def valueIn (base : Nat) (ds : List Char) : Nat :=
  ds.foldl (fun v d => v * base + digitValue d) 0

def natural? (ds : List Char) : Option Nat :=
  if ds ≠ [] ∧ ds.all isDigit then some (valueIn 10 ds) else none

def word? (ds : List Char) : Option UInt32 := do
  let n ← natural? ds
  if n < UInt32.size then some (UInt32.ofNat n) else none

def octal (n : Nat) : List Char :=
  let ds := Nat.toDigits 8 n
  List.replicate (3 - ds.length) '0' ++ ds

end SourceDelta.Text
