import SourceDelta.Diff.Hunk
import SourceDelta.Proofs.Numerals
import SourceDelta.Proofs.TextLines

/-!
# Reading hunks

A hunk that is written with its ranges and its lines is read as one with these
ranges and with lines of these kinds, whatever stands after its header and
whatever it notes about the end of a file.
-/

set_option autoImplicit false

namespace SourceDelta.Diff
open SourceDelta.Text

/-- A range of lines as a header writes it. -/
inductive Range : Nat → Nat → List Char → Prop
  | counted {start count : Nat} {a b : List Char} (ha : Numeral start a) (hb : Numeral count b) :
      Range start count (a ++ ',' :: b)
  | single {start : Nat} {a : List Char} (ha : Numeral start a) : Range start 1 a

/-- A header with the old and the new range, and anything behind it. -/
inductive HeaderText (oldStart oldCount newStart newCount : Nat) : List Char → Prop
  | mk {a b : List Char} (ha : Range oldStart oldCount a) (hb : Range newStart newCount b)
      (tail : List Char) : HeaderText oldStart oldCount newStart newCount
        (("@@ -".toList ++ a ++ " +".toList ++ b ++ " @@".toList) ++ tail)

variable {start count oldStart oldCount newStart newCount : Nat} {cs rest : List Char}

/-- After a range stands neither a digit nor a comma. -/
def RangeEnd (rest : List Char) : Prop := ∀ c ∈ rest.head?, isDigit c = false ∧ c ≠ ','

theorem Range.range? (h : Range start count cs) (hs : start < 2 ^ 32) (hc : count < 2 ^ 32)
    (hrest : RangeEnd rest) :
    HunkHeader.range? (cs ++ rest) = some (UInt32.ofNat start, UInt32.ofNat count, rest) := by
  have hend : DigitsEnd rest := fun c hc => (hrest c hc).1
  cases h with
  | counted ha hb =>
    rename_i a b
    have hcomma : DigitsEnd (',' :: (b ++ rest)) := by
      intro c hc
      cases hc
      decide
    rw [HunkHeader.range?, List.append_assoc, List.cons_append,
      takeWhile_digits (fun _ => ha.isDigit) hcomma, dropWhile_digits (fun _ => ha.isDigit) hcomma,
      ha.word? hs]
    simp only [Option.bind_eq_bind, Option.bind_some]
    rw [takeWhile_digits (fun _ => hb.isDigit) hend, dropWhile_digits (fun _ => hb.isDigit) hend,
      hb.word? hc]
    rfl
  | single ha =>
    rw [HunkHeader.range?, takeWhile_digits (fun _ => ha.isDigit) hend,
      dropWhile_digits (fun _ => ha.isDigit) hend, ha.word? hs]
    simp only [Option.bind_eq_bind, Option.bind_some]
    split
    next more => exact absurd rfl (hrest ',' rfl).2
    next => rfl

def headerLine (a b tail : List Char) : List Char :=
  "@@ -".toList ++ a ++ " +".toList ++ b ++ " @@".toList ++ tail

theorem headerLine_eq (a b tail : List Char) : headerLine a b tail =
    "@@ -".toList ++ a ++ " +".toList ++ b ++ " @@".toList ++ tail := rfl

def textBehind (tail : List Char) : List Char := (after? [' '] tail).getD tail

theorem ofLine?_headerLine {oldStart oldCount newStart newCount : UInt32} {a b : List Char}
    (ha : Range oldStart.toNat oldCount.toNat a) (hb : Range newStart.toNat newCount.toNat b)
    (tail : List Char) : HunkHeader.ofLine? (headerLine a b tail) =
      if fits : bodyStartOf oldStart oldCount + oldCount.toNat < UInt32.size then
        some ⟨oldStart, oldCount, newStart, newCount, textBehind tail, fits⟩
      else none := by
  have hplus : RangeEnd (" +".toList ++ (b ++ (" @@".toList ++ tail))) := by
    intro c hc
    cases hc
    decide
  have hclose : RangeEnd (" @@".toList ++ tail) := by
    intro c hc
    cases hc
    decide
  have hopen : after? "@@ -".toList (headerLine a b tail) =
      some (a ++ (" +".toList ++ (b ++ (" @@".toList ++ tail)))) := by
    refine after?_eq_some.mpr ?_
    simp only [headerLine_eq, List.append_assoc]
  have hold := ha.range? oldStart.toNat_lt oldCount.toNat_lt hplus
  have hnew := hb.range? newStart.toNat_lt newCount.toNat_lt hclose
  simp only [UInt32.ofNat_toNat] at hold hnew
  rw [HunkHeader.ofLine?, hopen]
  simp only [Option.bind_eq_bind, Option.bind_some, hold, after?_eq_some.mpr rfl, hnew]
  rfl

theorem HeaderText.ofLine? (h : HeaderText oldStart oldCount newStart newCount cs)
    (hold : oldStart < 2 ^ 32) (hcount : oldCount < 2 ^ 32) (hnew : newStart < 2 ^ 32)
    (hcount' : newCount < 2 ^ 32)
    (hfits : bodyStartOf (UInt32.ofNat oldStart) (UInt32.ofNat oldCount) + oldCount < 2 ^ 32) :
    ∃ h, HunkHeader.ofLine? cs = some h ∧ h.oldStart = UInt32.ofNat oldStart ∧
      h.oldCount = UInt32.ofNat oldCount ∧ h.newStart = UInt32.ofNat newStart ∧
      h.newCount = UInt32.ofNat newCount := by
  obtain ⟨ha, hb, tail⟩ := h
  rw [← UInt32.toNat_ofNat_of_lt' hold, ← UInt32.toNat_ofNat_of_lt' hcount] at ha
  rw [← UInt32.toNat_ofNat_of_lt' hnew, ← UInt32.toNat_ofNat_of_lt' hcount'] at hb
  have hfit : bodyStartOf (UInt32.ofNat oldStart) (UInt32.ofNat oldCount) +
      (UInt32.ofNat oldCount).toNat < UInt32.size := by
    rw [UInt32.toNat_ofNat_of_lt' hcount]
    exact hfits
  have hread := ofLine?_headerLine ha hb tail
  rw [dif_pos hfit] at hread
  exact ⟨_, hread, rfl, rfl, rfl, rfl⟩

end SourceDelta.Diff
