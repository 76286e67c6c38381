import SourceDelta.Json.Float
import SourceDelta.Json.Value
import SourceDelta.Text.Cut
import SourceDelta.Text.Digits

/-!
# Reading JSON text

Strict JSON: one value, blanks around it, and nothing else. Values nest at most
127 deep. A number without fraction and exponent is an integer as long as it
fits 64 bits; any other number is a double, and has no value when it is too
large for one. Where only some fields of a record are wanted, the others are
passed over without a look at their values.
-/

set_option autoImplicit false

namespace SourceDelta.Json
open SourceDelta.Text

def isSpace (c : Char) : Bool := c = ' ' || c = '\t' || c = '\n' || c = '\r'

def skip (cs : List Char) : List Char := cs.dropWhile isSpace

/-- Appends digits to a number while it fits 64 bits; the digits that do not are left. -/
def accumulate : Nat → List Char → Nat × List Char
  | v, [] => (v, [])
  | v, d :: ds =>
    let w := v * 10 + digitValue d
    if w < UInt64.size then accumulate w ds else (v, d :: ds)

/-- The digits after a decimal point, none when there is a point without digits. -/
def fraction? : List Char → Option (List Char × List Char)
  | '.' :: cs =>
    match cs.takeWhile isDigit with
    | [] => none
    | ds => some (ds, cs.dropWhile isDigit)
  | cs => some ([], cs)

def exponent? (cs : List Char) : Option (Option (Bool × Nat) × List Char) :=
  match cs with
  | c :: rest =>
    if c = 'e' || c = 'E' then
      let (negative, rest) :=
        match rest with
        | '-' :: rest => (true, rest)
        | '+' :: rest => (false, rest)
        | rest => (false, rest)
      match rest.takeWhile isDigit with
      | [] => none
      | ds => some (some (negative, valueIn 10 ds), rest.dropWhile isDigit)
    else some (none, cs)
  | [] => some (none, cs)

/-- The double with these digits; an exponent too large for a word leaves zero or no value. -/
def float? (negative : Bool) (digits : Nat) (shift : Int) :
    Option (Bool × Nat) → Option Number
  | none => (Double.ofParts? negative (UInt64.ofNat digits) shift).map .float
  | some (down, e) =>
    if e < (1 <<< 31) then
      (Double.ofParts? negative (UInt64.ofNat digits) (if down then shift - e else shift + e)).map
        .float
    else if digits ≠ 0 && !down then none
    else some (.float (if negative then 0x8000000000000000 else 0))

def integerOf (negative : Bool) (n : Nat) : Option Number :=
  if !negative then some (.integer n)
  else if n ≠ 0 && n ≤ (1 <<< 63) then some (.integer (-(n : Int)))
  else float? true n 0 none

structure Numeral where
  negative : Bool
  whole : List Char
  fraction : List Char
  exponent : Option (Bool × Nat)

def numeral? (cs : List Char) : Option (Numeral × List Char) := do
  let (negative, cs) :=
    match cs with
    | '-' :: cs => (true, cs)
    | cs => (false, cs)
  let whole := cs.takeWhile isDigit
  if whole = [] || (1 < whole.length && whole.head? = some '0') then none
  else
    let (fraction, rest) ← fraction? (cs.dropWhile isDigit)
    let (exponent, rest) ← exponent? rest
    some (⟨negative, whole, fraction, exponent⟩, rest)

/-- The number that is written; digits that do not fit 64 bits count as zeros. -/
def Numeral.number? (n : Numeral) : Option Number :=
  let (digits, beyond) := accumulate 0 n.whole
  if n.fraction = [] && beyond = [] && n.exponent.isNone then integerOf n.negative digits
  else
    let (digits, left) := accumulate digits n.fraction
    let shift : Int := (beyond.length : Int) - (n.fraction.length - left.length : Nat)
    float? n.negative digits shift n.exponent

def hexValue? (c : Char) : Option Nat :=
  if isDigit c then some (digitValue c)
  else if 'a' ≤ c && c ≤ 'f' then some (c.toNat - 'a'.toNat + 10)
  else if 'A' ≤ c && c ≤ 'F' then some (c.toNat - 'A'.toNat + 10)
  else none

def hex? (a b c d : Char) : Option Nat := do
  some ((((← hexValue? a) * 16 + (← hexValue? b)) * 16 + (← hexValue? c)) * 16 + (← hexValue? d))

def unescape? : Char → Option Char
  | '"' => some '"'
  | '\\' => some '\\'
  | '/' => some '/'
  | 'b' => some (Char.ofNat 8)
  | 'f' => some (Char.ofNat 12)
  | 'n' => some '\n'
  | 'r' => some '\r'
  | 't' => some '\t'
  | _ => none

/-- Reads to the closing quote. A high surrogate needs a low one right after it. -/
def stringTail? : List Char → Option (List Char × List Char)
  | [] => none
  | '"' :: cs => some ([], cs)
  | '\\' :: 'u' :: a :: b :: c :: d :: cs => do
    let n ← hex? a b c d
    if n < 0xD800 || 0xE000 ≤ n then
      let (s, rest) ← stringTail? cs
      some (Char.ofNat n :: s, rest)
    else if n < 0xDC00 then
      match cs with
      | '\\' :: 'u' :: a :: b :: c :: d :: cs => do
        let m ← hex? a b c d
        if 0xDC00 ≤ m && m < 0xE000 then
          let (s, rest) ← stringTail? cs
          some (Char.ofNat ((n - 0xD800) * 0x400 + (m - 0xDC00) + 0x10000) :: s, rest)
        else none
      | _ => none
    else none
  | '\\' :: e :: cs => do
    let c ← unescape? e
    let (s, rest) ← stringTail? cs
    some (c :: s, rest)
  | c :: cs =>
    if c.toNat < 32 || c = '\\' then none
    else do
      let (s, rest) ← stringTail? cs
      some (c :: s, rest)

/-- Passes the rest of a string. An escape by code has its digits, whatever they stand for. -/
def pastString? : List Char → Option (List Char)
  | [] => none
  | '"' :: cs => some cs
  | '\\' :: 'u' :: a :: b :: c :: d :: cs =>
    if (hex? a b c d).isSome then pastString? cs else none
  | '\\' :: e :: cs => if (unescape? e).isSome then pastString? cs else none
  | c :: cs => if c.toNat < 32 || c = '\\' then none else pastString? cs

def pastName? (cs : List Char) : Option (List Char) :=
  (after? "null".toList cs).or ((after? "true".toList cs).or (after? "false".toList cs))

mutual
def past? : Nat → List Char → Option (List Char)
  | 0, _ => none
  | fuel + 1, cs =>
    match skip cs with
    | '"' :: cs => pastString? cs
    | '[' :: cs =>
      match skip cs with
      | ']' :: rest => some rest
      | cs => pastItems? fuel cs
    | '\x7b' :: cs =>
      match skip cs with
      | '\x7d' :: rest => some rest
      | cs => pastMembers? fuel cs
    | cs => (pastName? cs).or ((numeral? cs).map Prod.snd)

def pastItems? : Nat → List Char → Option (List Char)
  | 0, _ => none
  | fuel + 1, cs => do
    match skip (← past? fuel cs) with
    | ',' :: rest => pastItems? fuel rest
    | ']' :: rest => some rest
    | _ => none

def pastMembers? : Nat → List Char → Option (List Char)
  | 0, _ => none
  | fuel + 1, cs =>
    match skip cs with
    | '"' :: cs => do
      match skip (← pastString? cs) with
      | ':' :: rest =>
        match skip (← past? fuel rest) with
        | ',' :: rest => pastMembers? fuel rest
        | '\x7d' :: rest => some rest
        | _ => none
      | _ => none
    | _ => none
end

/-- What is taken from a text. A member of a record that it does not name is passed over, so that
its value needs the form of one only. -/
inductive Wanted
  | all
  | record (fields : List (String × Wanted))
  | list (item : Wanted)

def Wanted.item : Wanted → Nat → Wanted
  | .all, _ => .all
  | .record fields, i => (fields[i]?.map Prod.snd).getD .all
  | .list w, _ => w

def Wanted.member? : Wanted → String → Option Wanted
  | .record fields, name => fields.lookup name
  | _, _ => some .all

mutual
def value? : Nat → Nat → Wanted → List Char → Option (Json × List Char)
  | 0, _, _, _ => none
  | fuel + 1, depth, w, cs =>
    match skip cs with
    | '"' :: cs => do
      let (s, rest) ← stringTail? cs
      some (.string (String.ofList s), rest)
    | '[' :: cs =>
      if depth = 0 then none
      else match skip cs with
        | ']' :: rest => some (.array [], rest)
        | cs => do
          let (xs, rest) ← items? fuel (depth - 1) w 0 cs
          some (.array xs, rest)
    | '\x7b' :: cs =>
      if depth = 0 then none
      else match skip cs with
        | '\x7d' :: rest => some (.object [], rest)
        | cs => do
          let (ms, rest) ← members? fuel (depth - 1) w cs
          some (.object ms, rest)
    | cs =>
      match after? "null".toList cs, after? "true".toList cs, after? "false".toList cs with
      | some rest, _, _ => some (.null, rest)
      | _, some rest, _ => some (.bool true, rest)
      | _, _, some rest => some (.bool false, rest)
      | _, _, _ => do
        let (n, rest) ← numeral? cs
        some (.number (← n.number?), rest)

def items? : Nat → Nat → Wanted → Nat → List Char → Option (List Json × List Char)
  | 0, _, _, _, _ => none
  | fuel + 1, depth, w, i, cs => do
    let (x, rest) ← value? fuel depth (w.item i) cs
    match skip rest with
    | ',' :: rest => do
      let (xs, rest) ← items? fuel depth w (i + 1) rest
      some (x :: xs, rest)
    | ']' :: rest => some ([x], rest)
    | _ => none

def members? : Nat → Nat → Wanted → List Char → Option (List (String × Json) × List Char)
  | 0, _, _, _ => none
  | fuel + 1, depth, w, cs =>
    match skip cs with
    | '"' :: cs => do
      let (k, rest) ← stringTail? cs
      let k := String.ofList k
      match skip rest with
      | ':' :: rest => do
        let (m, rest) ←
          match w.member? k with
          | some w => (value? fuel depth w rest).map fun (v, rest) => ([(k, v)], rest)
          | none => (past? fuel rest).map fun rest => ([], rest)
        match skip rest with
        | ',' :: rest => do
          let (ms, rest) ← members? fuel depth w rest
          some (m ++ ms, rest)
        | '\x7d' :: rest => some (m, rest)
        | _ => none
      | _ => none
    | _ => none
end

def maxDepth : Nat := 127

/-- Reads what is wanted of a whole text. Every call but one at each value takes a character, so
twice the length is fuel enough. -/
def take? (w : Wanted) (text : String) : Option Json := do
  let cs := text.toList
  let (j, rest) ← value? (2 * cs.length + 2) maxDepth w cs
  if skip rest = [] then some j else none

def parse? (text : String) : Option Json := take? .all text

end SourceDelta.Json
