import SourceDelta.Text.Blank
import SourceDelta.Text.Cut
import SourceDelta.Text.Digits

/-!
# Instants

A point in time: whole seconds since the start of 1970 in UTC, and nanoseconds
within the second. A leap second counts on in the nanoseconds of the second
before it. Instants are read with an offset from UTC and written without one,
with as many groups of three fractional digits as they need.
-/

set_option autoImplicit false

namespace SourceDelta
open SourceDelta.Text

structure Instant where
  seconds : Int
  nanos : Nat
  deriving DecidableEq, Inhabited

namespace Instant

def isLeap (year : Int) : Bool := year % 4 = 0 && (year % 100 ≠ 0 || year % 400 = 0)

def daysInMonth (year : Int) (month : Nat) : Nat :=
  match month with
  | 2 => if isLeap year then 29 else 28
  | 4 | 6 | 9 | 11 => 30
  | _ => 31

/-- Days from the start of 1970 to a date. Years start in March, so that a leap day ends one. -/
def daysOfDate (year : Int) (month day : Nat) : Int :=
  let y := if month ≤ 2 then year - 1 else year
  let era := y.fdiv 400
  let yearOfEra := y - era * 400
  let monthFromMarch : Int := ((month + 9) % 12 : Nat)
  let dayOfYear := (153 * monthFromMarch + 2) / 5 + (day : Int) - 1
  let dayOfEra := yearOfEra * 365 + yearOfEra / 4 - yearOfEra / 100 + dayOfYear
  era * 146097 + dayOfEra - 719468

def dateOfDays (days : Int) : Int × Nat × Nat :=
  let z := days + 719468
  let era := z.fdiv 146097
  let dayOfEra := z - era * 146097
  let yearOfEra := (dayOfEra - dayOfEra / 1460 + dayOfEra / 36524 - dayOfEra / 146096) / 365
  let dayOfYear := dayOfEra - (365 * yearOfEra + yearOfEra / 4 - yearOfEra / 100)
  let monthFromMarch := (5 * dayOfYear + 2) / 153
  let day := dayOfYear - (153 * monthFromMarch + 2) / 5 + 1
  let month := if monthFromMarch < 10 then monthFromMarch + 3 else monthFromMarch - 9
  let year := yearOfEra + era * 400
  (if month ≤ 2 then year + 1 else year, month.toNat, day.toNat)

def padded (width n : Nat) : List Char :=
  let ds := Nat.toDigits 10 n
  List.replicate (width - ds.length) '0' ++ ds

def yearText (year : Int) : List Char :=
  if 0 ≤ year ∧ year ≤ 9999 then padded 4 year.toNat
  else (if year < 0 then '-' else '+') :: padded 4 year.natAbs

structure Fields where
  year : Int
  month : Nat
  day : Nat
  hour : Nat
  minute : Nat
  second : Nat
  nanos : Nat

def fields (t : Instant) : Fields :=
  let days := t.seconds.fdiv 86400
  let rest := (t.seconds - days * 86400).toNat
  let (year, month, day) := dateOfDays days
  let leap := 1000000000 ≤ t.nanos
  ⟨year, month, day, rest / 3600, rest / 60 % 60, rest % 60 + (if leap then 1 else 0),
    if leap then t.nanos - 1000000000 else t.nanos⟩

def Fields.date (f : Fields) : List Char :=
  yearText f.year ++ '-' :: padded 2 f.month ++ '-' :: padded 2 f.day

def Fields.time (f : Fields) : List Char :=
  padded 2 f.hour ++ ':' :: padded 2 f.minute ++ ':' :: padded 2 f.second

def fraction (nanos : Nat) : List Char :=
  if nanos = 0 then []
  else if nanos % 1000000 = 0 then '.' :: padded 3 (nanos / 1000000)
  else if nanos % 1000 = 0 then '.' :: padded 6 (nanos / 1000)
  else '.' :: padded 9 nanos

def text (t : Instant) : String :=
  let f := t.fields
  String.ofList (f.date ++ 'T' :: f.time ++ fraction f.nanos ++ ['Z'])

def plainText (t : Instant) : String :=
  let f := t.fields
  String.ofList (f.date ++ ' ' :: f.time ++ " UTC".toList)

def number? (width : Nat) (cs : List Char) : Option (Nat × List Char) :=
  let cs := trimStart cs
  match (cs.take width).takeWhile isDigit with
  | [] => none
  | ds => some (valueIn 10 ds, cs.drop ds.length)

def bounded? (width low high : Nat) (cs : List Char) : Option (Nat × List Char) := do
  let (n, rest) ← number? width cs
  if low ≤ n ∧ n ≤ high then some (n, rest) else none

def year? (cs : List Char) : Option (Int × List Char) := do
  let signed (ds rest : List Char) (sign : Int) : Option (Int × List Char) :=
    if ds = [] then none else some (sign * (valueIn 10 ds : Int), rest)
  match trimStart cs with
  | '-' :: rest => signed (rest.takeWhile isDigit) (rest.dropWhile isDigit) (-1)
  | '+' :: rest => signed (rest.takeWhile isDigit) (rest.dropWhile isDigit) 1
  | cs =>
    let (n, rest) ← number? 4 cs
    some (n, rest)

def mark? (c : Char) (cs : List Char) : Option (List Char) := after? [c] (trimStart cs)

/-- The nanoseconds after a point; digits beyond the ninth are skipped. -/
def nanos? (cs : List Char) : Option (Nat × List Char) :=
  match cs with
  | '.' :: rest =>
    match (rest.take 9).takeWhile isDigit with
    | [] => none
    | ds => some (valueIn 10 ds * Nat.pow 10 (9 - ds.length), rest.dropWhile isDigit)
  | cs => some (0, cs)

def lower (c : Char) : Char := if 'A' ≤ c && c ≤ 'Z' then Char.ofNat (c.toNat + 32) else c

def offset? (cs : List Char) : Option (Int × List Char) :=
  if 3 ≤ cs.length && (cs.take 3).map lower = "utc".toList then some (0, cs.drop 3)
  else
    match cs with
    | c :: rest =>
      if c = 'Z' || c = 'z' then some (0, rest)
      else if c = '+' || c = '-' || c = '\u2212' then
        match rest with
        | h :: k :: rest =>
          match rest.dropWhile (fun c => c = ':' || isBlank c) with
          | m :: n :: rest =>
            if [h, k, m, n].all isDigit && m ≤ '5' then
              let seconds : Int := (valueIn 10 [h, k] * 3600 + valueIn 10 [m, n] * 60 : Nat)
              if seconds < 86400 then some (if c = '+' then seconds else -seconds, rest) else none
            else none
          | _ => none
        | _ => none
      else none
    | [] => none

def hasCalendar (year : Int) : Bool := -262143 ≤ year && year ≤ 262142

/-- Reads a date, a `T` or a blank, a time and an offset. The date has to be in the calendar where
it is read and in UTC. -/
def ofText? (s : String) : Option Instant := do
  let (year, cs) ← year? s.toList
  let cs ← mark? '-' cs
  let (month, cs) ← bounded? 2 1 12 cs
  let cs ← mark? '-' cs
  let (day, cs) ← bounded? 2 1 31 cs
  let cs ←
    match cs with
    | c :: cs => if c = 'T' || c = 't' || c = ' ' then some cs else none
    | [] => none
  let (hour, cs) ← bounded? 2 0 23 cs
  let cs ← mark? ':' cs
  let (minute, cs) ← bounded? 2 0 59 cs
  let cs ← mark? ':' cs
  let (second, cs) ← bounded? 2 0 60 cs
  let (nanos, cs) ← nanos? cs
  let (offset, cs) ← offset? (trimStart cs)
  if trimStart cs ≠ [] || !hasCalendar year || daysInMonth year month < day then none
  else
    let (second, nanos) := if second = 60 then (59, nanos + 1000000000) else (second, nanos)
    let wall : Int := daysOfDate year month day * 86400 + ((hour * 60 + minute) * 60 + second : Nat)
    let t : Instant := ⟨wall - offset, nanos⟩
    if hasCalendar t.fields.year then some t else none

end Instant

end SourceDelta
