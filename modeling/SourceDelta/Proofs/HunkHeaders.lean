import Mathlib.Data.List.Induction
import SourceDelta.Proofs.CheckedHunks
import SourceDelta.Proofs.HunkReading

/-!
# Hunk headers to the letter

A header line is two ranges and what stands behind the closing mark. Reading it takes
exactly the numbers that are written, with zeros in front or not, and it is refused when
one of them is no word in ASCII digits or the old lines have numbers that are no words.
Nothing is read as a header but such a line, and the sums of a header that is read are words.
-/

set_option autoImplicit false

namespace SourceDelta

namespace Text

variable {ds : List Char} {n : UInt32}

theorem digitChar_digitValue {c : Char} (h : isDigit c = true) :
    digitValue c < 10 ∧ Nat.digitChar (digitValue c) = c := by
  rw [isDigit, Bool.and_eq_true, decide_eq_true_eq, decide_eq_true_eq] at h
  have hlow : 48 ≤ c.toNat := h.1
  have hhigh : c.toNat ≤ 57 := h.2
  have hall : ∀ i < 10, Nat.digitChar i = Char.ofNat (i + 48) := by decide
  have hvalue : digitValue c = c.toNat - 48 := rfl
  refine ⟨by omega, ?_⟩
  rw [hvalue, hall _ (by omega), Nat.sub_add_cancel hlow, Char.ofNat_toNat]

theorem valueIn_concat (ds : List Char) (d : Char) :
    valueIn 10 (ds ++ [d]) = valueIn 10 ds * 10 + digitValue d := by
  rw [valueIn, List.foldl_append, ← valueIn]
  rfl

theorem numeral_valueIn (hne : ds ≠ []) (hds : ∀ c ∈ ds, isDigit c = true) :
    Numeral (valueIn 10 ds) ds := by
  induction ds using List.reverseRecOn with
  | nil => exact absurd rfl hne
  | append_singleton ds d ih =>
    obtain ⟨hlt, hchar⟩ := digitChar_digitValue (hds d (by simp))
    have hlast : Nat.toDigits 10 (digitValue d) = [d] := by
      rw [Nat.toDigits_of_lt_base hlt, hchar]
    rw [valueIn_concat]
    by_cases hnil : ds = []
    · subst hnil
      refine ⟨0, ?_⟩
      rw [show valueIn 10 [] = 0 from rfl, Nat.zero_mul, Nat.zero_add, hlast]
      rfl
    obtain ⟨zeros, hzeros⟩ := ih hnil fun c hc => hds c (by simp [hc])
    by_cases hvalue : valueIn 10 ds = 0
    · refine ⟨zeros + 1, ?_⟩
      rw [hvalue] at hzeros ⊢
      rw [Nat.zero_mul, Nat.zero_add, hlast, hzeros, List.replicate_succ']
      rfl
    · refine ⟨zeros, ?_⟩
      have hdiv : (valueIn 10 ds * 10 + digitValue d) / 10 = valueIn 10 ds := by omega
      have hmod : (valueIn 10 ds * 10 + digitValue d) % 10 = digitValue d := by omega
      rw [Nat.toDigits_of_base_le (by decide) (by omega), hdiv, hmod, hchar,
        ← List.append_assoc, ← hzeros]

/-- What is read as a word is the word, in ASCII digits. -/
theorem word?_eq_some : word? ds = some n ↔ Numeral n.toNat ds := by
  constructor
  · intro h
    rw [word?, natural?] at h
    split at h
    next hds =>
      rw [Option.bind_eq_bind, Option.bind_some] at h
      split at h
      next hlt =>
        cases h
        rw [UInt32.toNat_ofNat_of_lt' hlt]
        exact numeral_valueIn hds.1 (List.all_eq_true.mp hds.2)
      next => cases h
    next => cases h
  · intro h
    rw [h.word? n.toNat_lt, UInt32.ofNat_toNat]

theorem not_numeral_of (h : (∃ c ∈ ds, isDigit c = false) ∨ 2 ^ 32 ≤ valueIn 10 ds) :
    ¬ Numeral n.toNat ds := by
  intro hnumeral
  rcases h with ⟨c, hc, hdigit⟩ | hlarge
  · rw [hnumeral.isDigit hc] at hdigit
    cases hdigit
  · have hlt := n.toNat_lt
    obtain ⟨zeros, rfl⟩ := hnumeral
    rw [valueIn_zeros, valueIn_toDigits] at hlarge
    omega

theorem cut_unique {mark : Char} {xs ys us vs : List Char} (hx : mark ∉ xs) (hy : mark ∉ ys)
    (he : xs ++ mark :: us = ys ++ mark :: vs) : xs = ys ∧ us = vs := by
  induction xs generalizing ys with
  | nil =>
    cases ys with
    | nil => exact ⟨rfl, (List.cons.inj he).2⟩
    | cons y ys => exact absurd (List.cons.inj he).1 fun hm => hy (by simp [hm])
  | cons x xs ih =>
    cases ys with
    | nil => exact absurd (List.cons.inj he).1 fun hm => hx (by simp [hm])
    | cons y ys =>
      obtain ⟨rfl, htail⟩ := List.cons.inj he
      obtain ⟨rfl, hrest⟩ := ih (fun hm => hx (List.mem_cons_of_mem _ hm))
        (fun hm => hy (List.mem_cons_of_mem _ hm)) htail
      exact ⟨rfl, hrest⟩

end Text

namespace Diff
open SourceDelta.Text

variable {start count : UInt32} {a b cs ds rest tail line : List Char} {h : HunkHeader}

theorem range?_eq_some (hread : HunkHeader.range? cs = some (start, count, rest)) :
    ∃ a, Range start.toNat count.toNat a ∧ cs = a ++ rest := by
  have hcut : ∀ ds : List Char, ds = ds.takeWhile isDigit ++ ds.dropWhile isDigit :=
    fun ds => List.takeWhile_append_dropWhile.symm
  rw [HunkHeader.range?, Option.bind_eq_bind, Option.bind_eq_some_iff] at hread
  obtain ⟨s, hs, hread⟩ := hread
  have hstart := word?_eq_some.mp hs
  split at hread
  next more hmore =>
    rw [Option.bind_eq_some_iff] at hread
    obtain ⟨k, hk, hread⟩ := hread
    cases hread
    refine ⟨_, .counted hstart (word?_eq_some.mp hk), ?_⟩
    rw [List.append_assoc, List.cons_append, ← hcut more, ← hmore, ← hcut]
  next =>
    cases hread
    exact ⟨_, .single hstart, hcut cs⟩

theorem Range.not_mem_space {n m : Nat} (hr : Range n m a) : ' ' ∉ a := by
  have hspace : ∀ {n : Nat} {ds : List Char}, Numeral n ds → ' ' ∉ ds := fun hn hc =>
    absurd (hn.isDigit hc) (by decide)
  cases hr with
  | counted ha hb => simp [hspace ha, hspace hb]
  | single ha => exact hspace ha

theorem textBehind_eq {text : List Char} :
    textBehind tail = text ↔ tail = ' ' :: text ∨ tail = text ∧ text.head? ≠ some ' ' := by
  rw [textBehind]
  cases hcut : after? [' '] tail with
  | some rest =>
    rw [after?_eq_some] at hcut
    subst hcut
    simp only [Option.getD_some, List.singleton_append, List.cons.injEq, true_and]
    refine ⟨.inl, ?_⟩
    rintro (hrest | ⟨rfl, hhead⟩)
    · exact hrest
    · exact absurd rfl hhead
  | none =>
    have hno : ∀ rest, tail ≠ ' ' :: rest := fun rest he => by
      rw [he, after?_eq_some.mpr (List.singleton_append).symm] at hcut
      cases hcut
    simp only [Option.getD_none]
    refine ⟨?_, fun he => (he.resolve_left (hno text)).1⟩
    rintro rfl
    refine .inr ⟨rfl, fun hhead => ?_⟩
    obtain ⟨rest, hrest⟩ := List.head?_eq_some_iff.mp hhead
    exact hno rest hrest

theorem ofLine?_eq_some : HunkHeader.ofLine? line = some h ↔
    ∃ a b tail, Range h.oldStart.toNat h.oldCount.toNat a ∧
      Range h.newStart.toNat h.newCount.toNat b ∧ line = headerLine a b tail ∧
      textBehind tail = h.context := by
  constructor
  · intro hread
    simp only [HunkHeader.ofLine?, Option.bind_eq_bind, Option.bind_eq_some_iff] at hread
    obtain ⟨cs, hopen, ⟨oldStart, oldCount, cs₁⟩, hold, cs₂, hplus, ⟨newStart, newCount, cs₃⟩, hnew,
      tail, hclose, hread⟩ := hread
    obtain ⟨a, ha, rfl⟩ := range?_eq_some hold
    obtain ⟨b, hb, rfl⟩ := range?_eq_some hnew
    rw [after?_eq_some] at hopen hplus hclose
    dsimp only at hplus hclose hread
    split at hread
    next hfits =>
      cases hread
      refine ⟨a, b, tail, ha, hb, ?_, rfl⟩
      simp only [hopen, hplus, hclose, headerLine_eq, List.append_assoc]
    next => cases hread
  · rintro ⟨a, b, tail, ha, hb, rfl, htext⟩
    rw [ofLine?_headerLine ha hb, dif_pos h.fits, htext]

theorem fits_iff : bodyStartOf start count + count.toNat < UInt32.size ↔
    start.toNat + count.toNat + (if count = 0 then 1 else 0) ≤ 2 ^ 32 - 1 := by
  have hsize : UInt32.size = 2 ^ 32 := rfl
  rw [bodyStartOf, hsize]
  split <;> omega

def rangeText (start : List Char) : Option (List Char) → List Char
  | none => start
  | some count => start ++ ',' :: count

def fieldsOf (start : List Char) (count : Option (List Char)) : List (List Char) :=
  start :: count.toList

/-- No part of a field is taken for a mark. -/
def Closed (fields : List (List Char)) : Prop := ∀ f ∈ fields, ' ' ∉ f ∧ ',' ∉ f

instance (fields : List (List Char)) : Decidable (Closed fields) :=
  inferInstanceAs (Decidable (∀ f ∈ fields, ' ' ∉ f ∧ ',' ∉ f))

theorem Range.fields {f : List Char} {g : Option (List Char)}
    (hr : Range start.toNat count.toNat (rangeText f g)) (hclosed : Closed (fieldsOf f g)) :
    ∀ d ∈ fieldsOf f g, ∃ n : UInt32, Numeral n.toNat d := by
  have hcomma : ∀ {n : Nat} {ds : List Char}, Numeral n ds → ',' ∉ ds := fun hn hc =>
    absurd (hn.isDigit hc) (by decide)
  have hf : ',' ∉ f := (hclosed f (by simp [fieldsOf])).2
  generalize htext : rangeText f g = text at hr
  generalize hcount : count.toNat = m at hr
  cases hr with
  | counted ha hb =>
    cases g with
    | none =>
      rw [rangeText] at htext
      rw [htext] at hf
      simp at hf
    | some g =>
      obtain ⟨rfl, rfl⟩ := cut_unique hf (hcomma ha) htext
      rw [← hcount] at hb
      simpa [fieldsOf] using ⟨⟨start, ha⟩, ⟨count, hb⟩⟩
  | single ha =>
    cases g with
    | none =>
      rw [rangeText] at htext
      subst htext
      simpa [fieldsOf] using Exists.intro start ha
    | some g =>
      have := hcomma ha
      rw [← htext, rangeText] at this
      simp at this

theorem Closed.not_mem_space {f : List Char} {g : Option (List Char)}
    (hclosed : Closed (fieldsOf f g)) : ' ' ∉ rangeText f g := by
  have hf : ' ' ∉ f := (hclosed f (by simp [fieldsOf])).1
  cases g with
  | none => exact hf
  | some g =>
    have hg : ' ' ∉ g := (hclosed g (by simp [fieldsOf])).1
    simp [rangeText, hf, hg]

/-- Where no range has a space a header line is cut in one way only. -/
theorem headerLine_inj {a' b' tail' : List Char} (ha : ' ' ∉ a) (ha' : ' ' ∉ a') (hb : ' ' ∉ b)
    (hb' : ' ' ∉ b') (he : headerLine a b tail = headerLine a' b' tail') :
    a = a' ∧ b = b' ∧ tail = tail' := by
  have hplus : ∀ x : List Char, " +".toList ++ x = ' ' :: '+' :: x := fun _ => rfl
  have hclose : ∀ x : List Char, " @@".toList ++ x = ' ' :: '@' :: '@' :: x := fun _ => rfl
  simp only [headerLine_eq, List.append_assoc, List.append_cancel_left_eq] at he
  rw [hplus, hplus] at he
  obtain ⟨rfl, hnew⟩ := cut_unique ha ha' he
  rw [hclose, hclose] at hnew
  obtain ⟨rfl, htail⟩ := cut_unique hb hb' (List.cons.inj hnew).2
  exact ⟨rfl, rfl, (List.cons.inj (List.cons.inj htail).2).2⟩

theorem ofLine?_eq_none {f k : List Char} {g l : Option (List Char)}
    (hclosed : Closed (fieldsOf f g ++ fieldsOf k l))
    (hbad : ∃ d ∈ fieldsOf f g ++ fieldsOf k l,
      (∃ c ∈ d, isDigit c = false) ∨ 2 ^ 32 ≤ valueIn 10 d) :
    HunkHeader.ofLine? (headerLine (rangeText f g) (rangeText k l) tail) = none := by
  have hold : Closed (fieldsOf f g) := fun d hd => hclosed d (List.mem_append_left _ hd)
  have hnew : Closed (fieldsOf k l) := fun d hd => hclosed d (List.mem_append_right _ hd)
  rw [Option.eq_none_iff_forall_ne_some]
  intro h hread
  obtain ⟨a, b, tail', ha, hb, hline, -⟩ := ofLine?_eq_some.mp hread
  obtain ⟨rfl, rfl, rfl⟩ := headerLine_inj hold.not_mem_space ha.not_mem_space hnew.not_mem_space
    hb.not_mem_space hline
  obtain ⟨d, hd, hbad⟩ := hbad
  have hword : ∃ n : UInt32, Numeral n.toNat d := by
    rcases List.mem_append.mp hd with hd | hd
    · exact ha.fields hold d hd
    · exact hb.fields hnew d hd
  obtain ⟨n, hn⟩ := hword
  exact not_numeral_of hbad hn

def tailOf (text : List Char) : List Char := if text = [] then [] else ' ' :: text

theorem textBehind_tailOf (text : List Char) : textBehind (tailOf text) = text := by
  rw [textBehind_eq, tailOf]
  split
  next hnil => simp [hnil]
  next => exact .inl rfl

/-- Headers are read to the letter. A header that is written with its numbers, with zeros in front or
not, and with its text is read as these exactly if the last old line has a number that is a word. What
is read as a header is written so, but for the space before the text. A number that is too large or not in
ASCII digits is refused. On a header that is read the first and the last old line are words, and they are
as far apart as its count says. -/
theorem headers_exact :
    (∀ (oldStart oldCount newStart newCount : UInt32) (a b text : List Char), '\n' ∉ text →
      Range oldStart.toNat oldCount.toNat a → Range newStart.toNat newCount.toNat b →
      (HunkHeader.ofLine? (headerLine a b (tailOf text))).map Checked.Header.plain =
        if oldStart.toNat + oldCount.toNat + (if oldCount = 0 then 1 else 0) ≤ 2 ^ 32 - 1 then
          some ⟨oldStart, oldCount, newStart, newCount, text⟩
        else none) ∧
    (∀ line h, '\n' ∉ line → HunkHeader.ofLine? line = some h → '\n' ∉ h.context ∧
      ∃ a b tail, Range h.oldStart.toNat h.oldCount.toNat a ∧
        Range h.newStart.toNat h.newCount.toNat b ∧ line = headerLine a b tail ∧
        (tail = ' ' :: h.context ∨ tail = h.context ∧ h.context.head? ≠ some ' ')) ∧
    (∀ (f k : List Char) (g l : Option (List Char)) (tail : List Char),
      Closed (fieldsOf f g ++ fieldsOf k l) →
      (∃ d ∈ fieldsOf f g ++ fieldsOf k l,
        (∃ c ∈ d, isDigit c = false) ∨ 2 ^ 32 ≤ valueIn 10 d) →
      HunkHeader.ofLine? (headerLine (rangeText f g) (rangeText k l) tail) = none) ∧
    ∀ line h, HunkHeader.ofLine? line = some h → ∃ start stop : UInt32,
      ((Checked.Header.plain h).bodyStart : SourceDelta.Checked Malformed UInt32) = .ok start ∧
      ((Checked.Header.plain h).oldEnd : SourceDelta.Checked Malformed UInt32) = .ok stop ∧
      (1 ≤ start.toNat + h.oldCount.toNat →
        stop.toNat = start.toNat + h.oldCount.toNat - 1) := by
  refine ⟨?_, ?_, fun f k g l tail => ofLine?_eq_none, ?_⟩
  · intro oldStart oldCount newStart newCount a b text _ ha hb
    rw [ofLine?_headerLine ha hb, textBehind_tailOf]
    simp only [← fits_iff]
    split <;> rfl
  · intro line h hline hread
    obtain ⟨a, b, tail, ha, hb, rfl, htext⟩ := ofLine?_eq_some.mp hread
    rw [textBehind_eq] at htext
    refine ⟨fun hmem => hline ?_, a, b, tail, ha, hb, rfl, ?_⟩
    · rw [headerLine_eq]
      refine List.mem_append_right _ ?_
      rcases htext with rfl | ⟨rfl, -⟩
      · exact List.mem_cons_of_mem _ hmem
      · exact hmem
    · rcases htext with htail | ⟨htail, hhead⟩
      · exact .inl htail
      · exact .inr ⟨htail, hhead⟩
  · intro line h _
    refine ⟨_, _, Checked.Header.bodyStart_eq h, Checked.Header.oldEnd_eq h, fun _ => ?_⟩
    rw [UInt32.toNat_ofNat_of_lt' (Checked.Header.oldEnd_lt h),
      UInt32.toNat_ofNat_of_lt' (Checked.Header.bodyStart_lt h), HunkHeader.oldEnd]

theorem headers_exact_of_insertion :
    '\n' ∉ "fn main".toList ∧ Range 7 0 "007,0".toList ∧ Range 12 1 "12".toList ∧
    (HunkHeader.ofLine? "@@ -007,0 +12 @@ fn main".toList).map Checked.Header.plain =
      some ⟨7, 0, 12, 1, "fn main".toList⟩ ∧
    (∃ h, HunkHeader.ofLine? "@@ -3 +4,2 @@x".toList = some h ∧
      (∃ a b tail, Range h.oldStart.toNat h.oldCount.toNat a ∧
        Range h.newStart.toNat h.newCount.toNat b ∧
        "@@ -3 +4,2 @@x".toList = headerLine a b tail) ∧
      ∃ start stop : UInt32,
        ((Checked.Header.plain h).bodyStart : SourceDelta.Checked Malformed UInt32) = .ok start ∧
        ((Checked.Header.plain h).oldEnd : SourceDelta.Checked Malformed UInt32) = .ok stop) ∧
    HunkHeader.ofLine? "@@ -1,4294967296 +1 @@".toList = none ∧
    HunkHeader.ofLine? "@@ -1 +٣ @@".toList = none := by
  have hold : Range 7 0 "007,0".toList :=
    .counted (a := "007".toList) (b := "0".toList) ⟨2, by decide⟩ ⟨0, by decide⟩
  have hnew : Range 12 1 "12".toList := .single ⟨0, by decide⟩
  obtain ⟨hwritten, hread, hrefused, hsums⟩ := headers_exact
  refine ⟨by decide, hold, hnew, ?_, ?_, ?_, ?_⟩
  · exact hwritten 7 0 12 1 _ _ "fn main".toList (by decide) hold hnew
  · have hsome : (HunkHeader.ofLine? "@@ -3 +4,2 @@x".toList).isSome = true := by decide
    obtain ⟨h, hh⟩ := Option.isSome_iff_exists.mp hsome
    obtain ⟨-, a, b, tail, ha, hb, hline, -⟩ := hread _ h (by decide) hh
    obtain ⟨start, stop, hstart, hstop, -⟩ := hsums _ h hh
    exact ⟨h, hh, ⟨a, b, tail, ha, hb, hline⟩, start, stop, hstart, hstop⟩
  · exact hrefused "1".toList "1".toList (some "4294967296".toList) none [] (by decide)
      ⟨"4294967296".toList, by decide, .inr (by decide)⟩
  · exact hrefused "1".toList "٣".toList none none [] (by decide)
      ⟨"٣".toList, by decide, .inl ⟨'٣', by decide, by decide⟩⟩

end Diff

end SourceDelta
