import Mathlib.Algebra.Group.Nat.Defs
import SourceDelta.Text.Digits

/-!
# Decimal numerals

The digits of a number are read back as the number, by every reading of digits
that the program has.
-/

set_option autoImplicit false

namespace SourceDelta.Text

theorem isDigit_eq (c : Char) : isDigit c = c.isDigit := by
  simp only [isDigit, Char.isDigit, ge_iff_le, Char.le_def]

theorem isDigit_of_mem_toDigits {n : Nat} {c : Char} (h : c ∈ Nat.toDigits 10 n) :
    isDigit c = true := by
  rw [isDigit_eq]
  exact Nat.isDigit_of_mem_toDigits (by decide) (by decide) h

theorem valueIn_toDigits (n : Nat) : valueIn 10 (Nat.toDigits 10 n) = n := by
  have hstep : (fun v d => v * 10 + digitValue d) =
      fun (v : Nat) (d : Char) => 10 * v + (d.toNat - '0'.toNat) := by
    funext v d
    rw [Nat.mul_comm, digitValue]
  rw [valueIn, hstep, ← Nat.ofDigitChars_eq_foldl]
  exact Nat.ofDigitChars_ten_toDigits

/-- The digits of a number, zeros before them or not. -/
def Numeral (n : Nat) (ds : List Char) : Prop :=
  ∃ zeros, ds = List.replicate zeros '0' ++ Nat.toDigits 10 n

theorem Numeral.isDigit {n : Nat} {ds : List Char} (h : Numeral n ds) {c : Char} (hc : c ∈ ds) :
    isDigit c = true := by
  obtain ⟨zeros, rfl⟩ := h
  rcases List.mem_append.mp hc with hc | hc
  · rw [List.eq_of_mem_replicate hc]
    decide
  · exact isDigit_of_mem_toDigits hc

theorem valueIn_zeros (zeros : Nat) (ds : List Char) :
    valueIn 10 (List.replicate zeros '0' ++ ds) = valueIn 10 ds := by
  induction zeros with
  | zero => rfl
  | succ zeros ih =>
    rw [List.replicate_succ, List.cons_append, valueIn, List.foldl_cons]
    exact ih

theorem Numeral.word? {n : Nat} {ds : List Char} (h : Numeral n ds) (hn : n < 2 ^ 32) :
    word? ds = some (UInt32.ofNat n) := by
  have hall : ds.all Text.isDigit = true := List.all_eq_true.mpr fun _ hc => h.isDigit hc
  obtain ⟨zeros, rfl⟩ := h
  have hne : List.replicate zeros '0' ++ Nat.toDigits 10 n ≠ [] := by
    simp
  rw [Text.word?, natural?, if_pos ⟨hne, hall⟩, valueIn_zeros, valueIn_toDigits]
  exact if_pos hn

def DigitsEnd (rest : List Char) : Prop := ∀ c ∈ rest.head?, isDigit c = false

theorem DigitsEnd.takeWhile {rest : List Char} (h : DigitsEnd rest) :
    rest.takeWhile isDigit = [] := by
  cases rest with
  | nil => rfl
  | cons c cs => exact List.takeWhile_cons_of_neg (by simp [h c rfl])

theorem DigitsEnd.dropWhile {rest : List Char} (h : DigitsEnd rest) :
    rest.dropWhile isDigit = rest := by
  cases rest with
  | nil => rfl
  | cons c cs => exact List.dropWhile_cons_of_neg (by simp [h c rfl])

theorem takeWhile_digits {ds rest : List Char} (hds : ∀ c ∈ ds, isDigit c = true)
    (hrest : DigitsEnd rest) : (ds ++ rest).takeWhile isDigit = ds := by
  rw [List.takeWhile_append_of_pos hds, hrest.takeWhile, List.append_nil]

theorem dropWhile_digits {ds rest : List Char} (hds : ∀ c ∈ ds, isDigit c = true)
    (hrest : DigitsEnd rest) : (ds ++ rest).dropWhile isDigit = rest := by
  rw [List.dropWhile_append_of_pos hds, hrest.dropWhile]

theorem head?_toDigits {n : Nat} (h : 0 < n) : (Nat.toDigits 10 n).head? ≠ some '0' := by
  induction n using Nat.strongRecOn with
  | _ n ih =>
    by_cases hn : n < 10
    · rw [Nat.toDigits_of_lt_base hn]
      intro he
      have h0 := Nat.digitChar_eq_zero.mp (Option.some.inj he)
      omega
    · rw [Nat.toDigits_of_base_le (by decide) (by omega)]
      have hhead := ih (n / 10) (by omega) (by omega)
      obtain ⟨c, cs, hcs⟩ := List.exists_cons_of_ne_nil Nat.toDigits_ne_nil
      rw [hcs] at hhead ⊢
      exact hhead

end SourceDelta.Text
