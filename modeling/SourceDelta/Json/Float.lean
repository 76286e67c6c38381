/-!
# Doubles in decimal

A double is written with the fewest digits that read back, the nearest to its
value among those. It is written in positions when its decimal exponent lies
between -5 and 15, and with an exponent otherwise.
-/

set_option autoImplicit false

namespace SourceDelta.Double

/-- A finite double without its sign, as `mantissa * 2 ^ exponent`; `edge` tells that the doubles
below it are half as far away as those above. -/
structure Binary where
  mantissa : Nat
  exponent : Int
  edge : Bool

def Binary.ofBits (bits : UInt64) : Binary :=
  let fraction : Nat := bits.toNat % (1 <<< 52)
  let biased : Nat := bits.toNat / (1 <<< 52) % (1 <<< 11)
  if biased = 0 then ⟨fraction, -1074, false⟩
  else ⟨fraction + (1 <<< 52), (biased : Int) - 1075, fraction = 0 && 1 < biased⟩

def isNegative (bits : UInt64) : Bool := (1 <<< 63) ≤ bits.toNat

/-- Digits without a trailing zero, and the decimal exponent of the first of them. -/
structure Decimal where
  digits : List Char
  exponent : Int

/-- Four times the value and the ends of the interval that reads back, over one denominator. -/
structure Interval where
  low : Nat
  value : Nat
  high : Nat
  scale : Nat
  closed : Bool

def Binary.interval (b : Binary) : Interval :=
  let up := 1 <<< b.exponent.toNat
  let four := 4 * b.mantissa
  ⟨(four - if b.edge then 1 else 2) * up, four * up, (four + 2) * up,
    4 * (1 <<< (-b.exponent).toNat), b.mantissa % 2 = 0⟩

def exponentOf (n d : Nat) : Int :=
  if d ≤ n then ((Nat.toDigits 10 (n / d)).length : Int) - 1
  else match (List.range 400).find? fun k => d ≤ n * Nat.pow 10 k with
    | some k => -(k : Int)
    | none => 0

def Interval.holds (i : Interval) (digits : Nat) (exponent : Int) : Bool :=
  let point := digits * Nat.pow 10 exponent.toNat * i.scale
  let shift := Nat.pow 10 (-exponent).toNat
  if i.closed then i.low * shift ≤ point && point ≤ i.high * shift
  else i.low * shift < point && point < i.high * shift

def Interval.nearest? (i : Interval) (exponent : Int) : Option Nat :=
  let num := i.value * Nat.pow 10 (-exponent).toNat
  let den := i.scale * Nat.pow 10 exponent.toNat
  let below := num / den
  let twice := 2 * (num % den)
  let upFirst := den < twice || (twice = den && below % 2 = 1)
  let order := if upFirst then [below + 1, below] else [below, below + 1]
  order.find? (i.holds · exponent)

def dropZeros (ds : List Char) : List Char := (ds.reverse.dropWhile (· = '0')).reverse

def shortest (bits : UInt64) : Decimal :=
  let i := (Binary.ofBits bits).interval
  let top := exponentOf i.value i.scale
  match (List.range 17).findSome? fun (k : Nat) =>
      (i.nearest? (top - k)).map fun d => (d, k) with
  | some (d, k) =>
    let ds := Nat.toDigits 10 d
    ⟨dropZeros ds, top - k + (ds.length - 1 : Nat)⟩
  | none => ⟨['0'], 0⟩

def signed (n : Int) : List Char :=
  if n < 0 then '-' :: Nat.toDigits 10 n.natAbs else '+' :: Nat.toDigits 10 n.natAbs

def exponentText (n : Int) : List Char :=
  'e' :: signed n

def Decimal.text (d : Decimal) : List Char :=
  let n := d.digits.length
  if -5 ≤ d.exponent ∧ d.exponent ≤ 15 then
    if d.exponent < 0 then
      "0.".toList ++ List.replicate (-d.exponent - 1).toNat '0' ++ d.digits
    else
      let whole := d.exponent.toNat + 1
      if n ≤ whole then d.digits ++ List.replicate (whole - n) '0' ++ ".0".toList
      else d.digits.take whole ++ '.' :: d.digits.drop whole
  else
    d.digits.take 1 ++ (if n = 1 then [] else '.' :: d.digits.drop 1) ++ exponentText d.exponent

def text (bits : UInt64) : List Char :=
  let body := if bits.toNat % (1 <<< 63) = 0 then "0.0".toList else (shortest bits).text
  if isNegative bits then '-' :: body else body

/-- Multiplies a double by a power of ten, none when the product is too large. Powers beyond the
largest double are divided out in steps. -/
def scale : Nat → Float → Int → Option Float
  | 0, f, _ => some f
  | steps + 1, f, exponent =>
    let k := exponent.natAbs
    if k ≤ 308 then
      let power := Float.ofScientific 1 false k
      if 0 ≤ exponent then
        let product := f * power
        if product.isInf then none else some product
      else some (f / power)
    else if f == 0 then some f
    else if 0 ≤ exponent then none
    else scale steps (f / Float.ofScientific 1 false 308) (exponent + 308)

/-- The bits of the double `digits * 10 ^ exponent`, none when it is too large. Dividing by 10^308
three times leaves zero, so four steps suffice. -/
def ofParts? (negative : Bool) (digits : UInt64) (exponent : Int) : Option UInt64 :=
  (scale 8 digits.toFloat exponent).map fun f => (if negative then -f else f).toBits

end SourceDelta.Double
