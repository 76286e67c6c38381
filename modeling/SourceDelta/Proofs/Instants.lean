import Mathlib.Tactic.IntervalCases
import SourceDelta.Instant
import SourceDelta.Proofs.Numerals

/-!
# Instants and their texts

Every day has a date of the calendar, and a date tells its day. So the text of an
instant has everything that the instant is, and it is read back: years with their
sign where they need one, fractions in as many groups of digits as they have, and
a leap second as the second that it follows.
-/

set_option autoImplicit false

namespace SourceDelta.Instant
open SourceDelta.Text

/-- A year that starts in March and ends with the February of a leap year. -/
def EndsLeap (y : Int) : Prop := (y + 1) % 4 = 0 ∧ ((y + 1) % 100 ≠ 0 ∨ (y + 1) % 400 = 0)

/-- A day of the 400 years of a cycle, by its century, its period of four years in the century, its
year in the period and its place in the year. Only leap years have a place 365. -/
structure InCycle (n c b t d : Int) : Prop where
  sum : n = 36524 * c + 1461 * b + 365 * t + d
  century : 0 ≤ c ∧ c ≤ 3
  period : 0 ≤ b ∧ b ≤ 24
  year : 0 ≤ t ∧ t ≤ 3
  place : 0 ≤ d ∧ d ≤ 364 ∨ d = 365 ∧ t = 3 ∧ (b < 24 ∨ c = 3)

theorem exists_inCycle {n : Int} (h₀ : 0 ≤ n) (h₁ : n < 146097) : ∃ c b t d, InCycle n c b t d := by
  obtain ⟨c, hc⟩ : ∃ c, c = min (n / 36524) 3 := ⟨_, rfl⟩
  obtain ⟨r, hr⟩ : ∃ r, r = n - 36524 * c := ⟨_, rfl⟩
  have hcentury : 0 ≤ r ∧ (r ≤ 36523 ∨ r = 36524 ∧ c = 3) := by omega
  refine ⟨c, r / 1461, min (r % 1461 / 365) 3, r % 1461 - 365 * min (r % 1461 / 365) 3, ?_⟩
  constructor <;> omega

theorem InCycle.year_eq {n c b t d : Int} (h : InCycle n c b t d) :
    (n - n / 1460 + n / 36524 - n / 146096) / 365 = 100 * c + 4 * b + t := by
  obtain ⟨hn, hc, hb, ht, hd⟩ := h
  have hcentury : 36524 * c ≤ n ∧ (n ≤ 36524 * c + 36523 ∨ c = 3 ∧ n = 146096) := by omega
  have hcenturies : n / 36524 - n / 146096 = c := by omega
  have hperiods : n / 1460 = 25 * c + b + if 1460 ≤ 24 * c + b + 365 * t + d then 1 else 0 := by
    split <;> omega
  split at hperiods <;> omega

theorem exists_year_of_day {n : Int} (h₀ : 0 ≤ n) (h₁ : n < 146097) : ∃ y d : Int,
    (n - n / 1460 + n / 36524 - n / 146096) / 365 = y ∧ n = 365 * y + y / 4 - y / 100 + d ∧
      (0 ≤ y ∧ y < 400) ∧ 0 ≤ d ∧ d ≤ 365 ∧ (d = 365 → EndsLeap y) := by
  obtain ⟨c, b, t, d, h⟩ := exists_inCycle h₀ h₁
  refine ⟨100 * c + 4 * b + t, d, h.year_eq, ?_⟩
  obtain ⟨hn, hc, hb, ht, hd⟩ := h
  have hfourth : (100 * c + 4 * b + t) / 4 = 25 * c + b := by omega
  have hhundredth : (100 * c + 4 * b + t) / 100 = c := by omega
  refine ⟨?_, by omega, by omega, by omega, fun hlast => ?_⟩
  · rw [hfourth, hhundredth]
    omega
  · rw [EndsLeap]
    omega

structure IsDate (year : Int) (month day : Nat) : Prop where
  month_pos : 1 ≤ month
  month_le : month ≤ 12
  day_pos : 1 ≤ day
  day_le : day ≤ daysInMonth year month

theorem isLeap_of_endsLeap {y : Int} (h : EndsLeap y) : isLeap (y + 1) = true := by
  simpa [isLeap, EndsLeap] using h

theorem exists_month_of_day {y d : Int} (h₀ : 0 ≤ d) (h₁ : d ≤ 365)
    (hlast : d = 365 → isLeap (y + 1) = true) : ∃ p month day : Nat,
      (5 * d + 2) / 153 = p ∧ month = (if p < 10 then p + 3 else p - 9) ∧
        d - (153 * p + 2) / 5 + 1 = day ∧ p < 12 ∧
        IsDate (if month ≤ 2 then y + 1 else y) month day := by
  obtain ⟨p, hp⟩ := Int.eq_ofNat_of_zero_le (show 0 ≤ (5 * d + 2) / 153 by omega)
  obtain ⟨day, hday⟩ := Int.eq_ofNat_of_zero_le (show 0 ≤ d - (153 * p + 2) / 5 + 1 by omega)
  have hlow : 153 * (p : Int) ≤ 5 * d + 2 := by omega
  have hhigh : 5 * d + 2 < 153 * (p : Int) + 153 := by omega
  have hp12 : p < 12 := by omega
  refine ⟨p, _, day, hp, rfl, hday, hp12, ?_⟩
  clear hp
  by_cases hfebruary : p = 11
  · subst hfebruary
    have hlength : day ≤ if isLeap (y + 1) then 29 else 28 := by
      by_cases hd : d = 365
      · rw [if_pos (hlast hd)]
        omega
      · split <;> omega
    exact ⟨by decide, by decide, by omega, hlength⟩
  · have hp11 : p < 11 := by omega
    interval_cases p <;> exact ⟨by decide, by decide, by omega, by simp [daysInMonth]; omega⟩

/-- Every day has a date of the calendar, and is the day of that date. -/
theorem dateOfDays_spec (days : Int) : ∃ year month day, dateOfDays days = (year, month, day) ∧
    IsDate year month day ∧ daysOfDate year month day = days := by
  obtain ⟨z, hz⟩ : ∃ z, days + 719468 = z := ⟨_, rfl⟩
  obtain ⟨era, hera⟩ : ∃ era, z.fdiv 146097 = era := ⟨_, rfl⟩
  have hdiv : z / 146097 = era := by rw [← hera, Int.fdiv_eq_ediv_of_nonneg _ (by decide)]
  obtain ⟨n, hn⟩ : ∃ n, z - era * 146097 = n := ⟨_, rfl⟩
  obtain ⟨y, d, hyear, hday, ⟨hy₀, hy₁⟩, hd₀, hd₁, hlast⟩ :=
    exists_year_of_day (n := n) (by omega) (by omega)
  have hleap : d = 365 → isLeap (y + era * 400 + 1) = true := by
    intro hd
    apply isLeap_of_endsLeap
    have := hlast hd
    rw [EndsLeap] at this ⊢
    omega
  obtain ⟨p, month, day, hp, hm, he, hp12, hdate⟩ := exists_month_of_day hd₀ hd₁ hleap
  have hd : n - (365 * y + y / 4 - y / 100) = d := by omega
  have hmonth : (if (p : Int) < 10 then (p : Int) + 3 else p - 9).toNat = month := by
    split <;> split at hm <;> omega
  have hyears : (if (if (p : Int) < 10 then (p : Int) + 3 else p - 9) ≤ 2 then y + era * 400 + 1
      else y + era * 400) = if month ≤ 2 then y + era * 400 + 1 else y + era * 400 := by
    split at hm <;> simp [hm] <;> omega
  refine ⟨_, month, day, ?_, hdate, ?_⟩
  · simp only [dateOfDays, hz, hera, hn, hyear, hd, hp, he, hmonth, hyears]
    rfl
  · have hback : (if month ≤ 2 then (if month ≤ 2 then y + era * 400 + 1 else y + era * 400) - 1
        else (if month ≤ 2 then y + era * 400 + 1 else y + era * 400)) = y + era * 400 := by
      split <;> omega
    have hera' : (y + era * 400).fdiv 400 = era := by
      rw [Int.fdiv_eq_ediv_of_nonneg _ (by decide)]
      omega
    have hy : y + era * 400 - era * 400 = y := by omega
    have hmarch : (month + 9) % 12 = p := by split at hm <;> omega
    simp only [daysOfDate, hback, hera', hy, hmarch]
    omega

theorem numeral_padded (width n : Nat) : Numeral n (padded width n) := ⟨_, rfl⟩

theorem length_padded {width n : Nat} (hw : 0 < width) (hn : n < 10 ^ width) :
    (padded width n).length = width := by
  have hle : (Nat.toDigits 10 n).length ≤ width :=
    (Nat.length_toDigits_le_iff (by decide) hw).mpr hn
  rw [padded, List.length_append, List.length_replicate]
  omega

theorem valueIn_padded (width n : Nat) : valueIn 10 (padded width n) = n := by
  rw [padded, valueIn_zeros, valueIn_toDigits]

theorem padded_ne_nil (width n : Nat) : padded width n ≠ [] := by
  simp [padded]

theorem isBlank_of_isDigit {c : Char} (h : isDigit c = true) : isBlank c = false := by
  simp only [isDigit, Bool.and_eq_true, decide_eq_true_eq, Char.le_def, UInt32.le_iff_toNat_le] at h
  have h₀ : 48 ≤ c.toNat := h.1
  have h₁ : c.toNat ≤ 57 := h.2
  simp [isBlank]
  omega

theorem trimStart_padded (width n : Nat) (rest : List Char) :
    trimStart (padded width n ++ rest) = padded width n ++ rest := by
  obtain ⟨d, ds, hds⟩ := List.exists_cons_of_ne_nil (padded_ne_nil width n)
  have hd : isDigit d = true := (numeral_padded width n).isDigit (by simp [hds])
  rw [hds, List.cons_append, trimStart, List.dropWhile_cons_of_neg]
  simp [isBlank_of_isDigit hd]

theorem number?_padded {width n : Nat} (hw : 0 < width) (hn : n < 10 ^ width) (rest : List Char) :
    number? width (padded width n ++ rest) = some (n, rest) := by
  have hlength := length_padded hw hn
  have hdigits : (padded width n).takeWhile isDigit = padded width n := by
    have hwhole : (padded width n ++ []).takeWhile isDigit = padded width n :=
      takeWhile_digits (fun c hc => (numeral_padded width n).isDigit hc) nofun
    rwa [List.append_nil] at hwhole
  rw [number?, trimStart_padded, List.take_left' hlength, hdigits]
  split
  next h => exact absurd h (padded_ne_nil width n)
  next => rw [valueIn_padded, List.drop_left' rfl]

theorem bounded?_padded {width n low high : Nat} (hw : 0 < width) (hn : n < 10 ^ width)
    (h₀ : low ≤ n) (h₁ : n ≤ high) (rest : List Char) :
    bounded? width low high (padded width n ++ rest) = some (n, rest) := by
  simp [bounded?, number?_padded hw hn, h₀, h₁]

theorem mark?_cons {c : Char} (hc : isBlank c = false) (rest : List Char) :
    mark? c (c :: rest) = some rest := by
  rw [mark?, trimStart, List.dropWhile_cons_of_neg (by simp [hc])]
  simp [after?]

theorem digitsEnd_cons {c : Char} (hc : isDigit c = false) (rest : List Char) :
    DigitsEnd (c :: rest) := by
  intro d hd
  cases hd
  exact hc

theorem year?_yearText (year : Int) {rest : List Char} (hrest : DigitsEnd rest) :
    year? (yearText year ++ rest) = some (year, rest) := by
  have hdigits : ∀ n, ∀ c ∈ padded 4 n, isDigit c = true :=
    fun n _ hc => (numeral_padded 4 n).isDigit hc
  rw [yearText]
  split
  next h =>
    have hread : number? 4 (padded 4 year.toNat ++ rest) = some (year.toNat, rest) :=
      number?_padded (by decide) (by omega) rest
    obtain ⟨d, ds, hds⟩ := List.exists_cons_of_ne_nil (padded_ne_nil 4 year.toNat)
    have hd : isDigit d = true := hdigits year.toNat d (by simp [hds])
    rw [year?, trimStart_padded]
    rw [hds, List.cons_append] at hread ⊢
    split
    next heq =>
      rw [(List.cons.inj heq).1] at hd
      exact absurd hd (by decide)
    next heq =>
      rw [(List.cons.inj heq).1] at hd
      exact absurd hd (by decide)
    next =>
      rw [hread]
      simp
      omega
  next h =>
    have hne := padded_ne_nil 4 year.natAbs
    have htake := takeWhile_digits (hdigits year.natAbs) hrest
    have hdrop := dropWhile_digits (hdigits year.natAbs) hrest
    by_cases hneg : year < 0
    · have habs : -1 * (year.natAbs : Int) = year := by omega
      rw [if_pos hneg, year?, List.cons_append, trimStart,
        List.dropWhile_cons_of_neg (by decide)]
      simp only [htake, hdrop, hne, if_false, valueIn_padded, habs]
    · have habs : 1 * (year.natAbs : Int) = year := by omega
      rw [if_neg hneg, year?, List.cons_append, trimStart,
        List.dropWhile_cons_of_neg (by decide)]
      simp only [htake, hdrop, hne, if_false, valueIn_padded, habs]

theorem nanos?_padded {width n : Nat} (hw : 0 < width) (hw9 : width ≤ 9) (hn : n < 10 ^ width)
    {rest : List Char} (hrest : DigitsEnd rest) :
    nanos? ('.' :: padded width n ++ rest) = some (n * 10 ^ (9 - width), rest) := by
  have hlength := length_padded hw hn
  have hdigits : ∀ c ∈ padded width n, isDigit c = true :=
    fun _ hc => (numeral_padded width n).isDigit hc
  have hend : DigitsEnd (rest.take (9 - width)) := by
    intro c hc
    rw [List.head?_take] at hc
    split at hc
    · cases hc
    · exact hrest c hc
  rw [List.cons_append, nanos?]
  have htake : (padded width n ++ rest).take 9 = padded width n ++ rest.take (9 - width) := by
    rw [List.take_append, List.take_of_length_le (by omega), hlength]
  rw [htake, takeWhile_digits hdigits hend]
  split
  next h => exact absurd h (padded_ne_nil width n)
  next =>
    rw [valueIn_padded, hlength, dropWhile_digits hdigits hrest]
    rfl

theorem nanos?_fraction {n : Nat} (hn : n < 1000000000) (rest : List Char) :
    nanos? (fraction n ++ 'Z' :: rest) = some (n, 'Z' :: rest) := by
  have hend : DigitsEnd ('Z' :: rest) := digitsEnd_cons (by decide) rest
  rw [fraction]
  split
  next h =>
    rw [h]
    rfl
  split
  next h =>
    rw [nanos?_padded (by decide) (by decide) (by omega) hend]
    have : n / 1000000 * 10 ^ (9 - 3) = n := by omega
    rw [this]
  split
  next h =>
    rw [nanos?_padded (by decide) (by decide) (by omega) hend]
    have : n / 1000 * 10 ^ (9 - 6) = n := by omega
    rw [this]
  next =>
    rw [nanos?_padded (by decide) (by decide) (by omega) hend]
    simp

/-- An instant of the calendar. Nanoseconds beyond a second are those of a leap second, which follows
the last second of a minute. -/
structure Valid (t : Instant) : Prop where
  nanos : t.nanos < 1000000000 ∨ t.nanos < 2000000000 ∧ t.seconds % 60 = 59
  calendar : hasCalendar t.fields.year = true

structure Tells (t : Instant) (f : Fields) : Prop where
  date : IsDate f.year f.month f.day
  hour : f.hour ≤ 23
  minute : f.minute ≤ 59
  seconds : daysOfDate f.year f.month f.day * 86400 + f.hour * 3600 + f.minute * 60 + f.second =
    t.seconds + if 1000000000 ≤ t.nanos then 1 else 0
  second : f.second ≤ if 1000000000 ≤ t.nanos then 60 else 59
  leap : 1000000000 ≤ t.nanos → f.second = 60
  nanos : f.nanos + (if 1000000000 ≤ t.nanos then 1000000000 else 0) = t.nanos
  nanos_lt : f.nanos < 1000000000

theorem Valid.tells {t : Instant} (h : t.Valid) : Tells t t.fields := by
  obtain ⟨year, month, day, hdate, hvalid, hback⟩ := dateOfDays_spec (t.seconds.fdiv 86400)
  have hn := h.nanos
  have hdays : t.seconds.fdiv 86400 = t.seconds / 86400 := Int.fdiv_eq_ediv_of_nonneg _ (by decide)
  obtain ⟨rest, hrest⟩ := Int.eq_ofNat_of_zero_le
    (show 0 ≤ t.seconds - t.seconds.fdiv 86400 * 86400 by omega)
  have hlt : rest < 86400 := by omega
  have hfields : t.fields = ⟨year, month, day, rest / 3600, rest / 60 % 60,
      rest % 60 + (if 1000000000 ≤ t.nanos then 1 else 0),
      if 1000000000 ≤ t.nanos then t.nanos - 1000000000 else t.nanos⟩ := by
    rw [fields, hdate, hrest]
    simp
  rw [hfields]
  exact {
    date := hvalid
    hour := show rest / 3600 ≤ 23 by omega
    minute := show rest / 60 % 60 ≤ 59 by omega
    seconds := by
      simp only [hback]
      push_cast
      split <;> omega
    second := by simp only; split <;> omega
    leap := by simp only; intro hl; rw [if_pos hl]; omega
    nanos := by simp only; split <;> omega
    nanos_lt := by simp only; split <;> omega }

theorem Tells.read {t : Instant} {f : Fields} (h : Tells t f) : ∃ second nanos : Nat,
    (if f.second = 60 then (59, f.nanos + 1000000000) else (f.second, f.nanos)) =
      (second, nanos) ∧ (⟨daysOfDate f.year f.month f.day * 86400 +
        (((f.hour * 60 + f.minute) * 60 + second : Nat) : Int) - 0, nanos⟩ : Instant) = t := by
  obtain ⟨-, -, -, hseconds, hsecond, hleap, hnanos, -⟩ := h
  by_cases hl : 1000000000 ≤ t.nanos
  · rw [if_pos hl] at hseconds hnanos
    have hs := hleap hl
    refine ⟨59, t.nanos, by rw [if_pos hs, hnanos], ?_⟩
    exact congrArg₂ Instant.mk (show _ = t.seconds by omega) rfl
  · rw [if_neg hl] at hseconds hnanos hsecond
    refine ⟨f.second, t.nanos, by rw [if_neg (by omega), ← hnanos, Nat.add_zero], ?_⟩
    exact congrArg₂ Instant.mk (show _ = t.seconds by omega) rfl

theorem daysInMonth_le (year : Int) (month : Nat) : daysInMonth year month ≤ 31 := by
  unfold daysInMonth
  split
  · split <;> decide
  all_goals decide

theorem ofText?_text {t : Instant} (h : t.Valid) : ofText? t.text = some t := by
  have ht := h.tells
  have hcalendar := h.calendar
  rw [text]
  generalize t.fields = f at ht hcalendar
  obtain ⟨second, nanos, hread, hback⟩ := ht.read
  obtain ⟨hdate, hhour, hminute, -, hsecond, -, -, hlt⟩ := ht
  have hday : f.day ≤ 31 := Nat.le_trans hdate.day_le (daysInMonth_le _ _)
  have hsixty : f.second ≤ 60 := by split at hsecond <;> omega
  have htext : f.date ++ 'T' :: f.time ++ fraction f.nanos ++ ['Z'] = yearText f.year ++ '-' ::
      (padded 2 f.month ++ '-' :: (padded 2 f.day ++ 'T' :: (padded 2 f.hour ++ ':' ::
        (padded 2 f.minute ++ ':' :: (padded 2 f.second ++ (fraction f.nanos ++ ['Z'])))))) := by
    simp [Fields.date, Fields.time]
  have hminus : isBlank '-' = false := by decide
  have hcolon : isBlank ':' = false := by decide
  have hz : trimStart ['Z'] = ['Z'] := by decide
  have hoffset : offset? ['Z'] = some (0, []) := by decide
  rw [htext, ofText?, String.toList_ofList,
    year?_yearText f.year (digitsEnd_cons (by decide) _), Option.bind_eq_bind, Option.bind_some]
  dsimp only
  rw [mark?_cons hminus, Option.bind_eq_bind, Option.bind_some, bounded?_padded (by decide)
    (by have := hdate.month_le; omega) hdate.month_pos hdate.month_le, Option.bind_eq_bind,
    Option.bind_some]
  dsimp only
  rw [mark?_cons hminus, Option.bind_some, bounded?_padded (by decide) (by omega) hdate.day_pos hday,
    Option.bind_some]
  dsimp only
  rw [if_pos (by decide), Option.bind_some,
    bounded?_padded (by decide) (by omega) (Nat.zero_le _) hhour, Option.bind_some]
  dsimp only
  rw [mark?_cons hcolon, Option.bind_some,
    bounded?_padded (by decide) (by omega) (Nat.zero_le _) hminute, Option.bind_some]
  dsimp only
  rw [mark?_cons hcolon, Option.bind_some,
    bounded?_padded (by decide) (by omega) (Nat.zero_le _) hsixty, Option.bind_some]
  dsimp only
  rw [nanos?_fraction hlt, Option.bind_some]
  dsimp only
  rw [hz, hoffset, Option.bind_some]
  rw [if_neg (by simp [trimStart, hcalendar, hdate.day_le]), hread]
  dsimp only
  rw [hback, if_pos h.calendar]

end SourceDelta.Instant
