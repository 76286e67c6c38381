import Mathlib.Data.List.Forall2
import SourceDelta.Text.Blank
import SourceDelta.Text.Cut
import SourceDelta.Text.Line

/-!
# The pieces and lines of a written text

A text without the separator is one piece, and a separator parts the pieces. A
text that is written line by line is read as its lines again, each of them whole
or without the carriage return at its end; a line that starts with a mark is read
as one that does.
-/

set_option autoImplicit false

namespace SourceDelta.Text

variable {c sep : Char} {cs rest l l' mark : List Char} {ls : List (List Char)}

theorem pieces_of_not_mem (h : sep ∉ cs) : pieces sep cs = [cs] := by
  induction cs with
  | nil => rfl
  | cons c cs ih =>
    simp only [List.mem_cons, not_or] at h
    rw [pieces, if_neg (Ne.symm h.1), ih h.2]

theorem pieces_append_sep (sep : Char) (xs ys : List Char) :
    pieces sep (xs ++ sep :: ys) = pieces sep xs ++ pieces sep ys := by
  induction xs with
  | nil => simp [pieces]
  | cons x xs ih =>
    by_cases h : x = sep
    · simp [pieces, h, ih]
    · simp only [List.cons_append, pieces, h, if_false, ih]
      cases hp : pieces sep xs with
      | nil => exact absurd hp (pieces_ne_nil sep xs)
      | cons p ps => rfl

theorem not_mem_of_mem_pieces {sep : Char} {cs p : List Char} (h : p ∈ pieces sep cs) :
    sep ∉ p := by
  induction cs generalizing p with
  | nil =>
    simp only [pieces, List.mem_singleton] at h
    simp [h]
  | cons c cs ih =>
    simp only [pieces] at h
    split at h
    next =>
      rcases List.mem_cons.mp h with rfl | h
      · simp
      · exact ih h
    next hc =>
      cases hp : pieces sep cs with
      | nil => exact absurd hp (pieces_ne_nil sep cs)
      | cons q qs =>
        rw [hp] at h ih
        rcases List.mem_cons.mp h with rfl | h
        · have hq := ih (p := q) (by simp)
          simp [hq, Ne.symm hc]
        · exact ih (by simp [h])

theorem lines_append (h : '\n' ∉ l) : lines (l ++ '\n' :: rest) = dropReturn l :: lines rest := by
  rw [lines, lines, pieces_append_sep, pieces_of_not_mem h, List.singleton_append]
  cases hp : pieces '\n' rest with
  | nil => exact absurd hp (pieces_ne_nil _ _)
  | cons p ps => cases l <;> rfl

theorem lines_of_not_mem (h : '\n' ∉ l) (hne : l ≠ []) : lines l = [l] := by
  rw [lines, pieces_of_not_mem h]
  cases l with
  | nil => exact absurd rfl hne
  | cons c cs => rfl

/-- How a line is read. -/
def Reads (l l' : List Char) : Prop := l' = l ∨ l' = dropReturn l

/-- The text of lines, the last of which need not be ended by a line feed. -/
inductive Written : List (List Char) → List Char → Prop
  | nil : Written [] []
  | last {l : List Char} (hl : '\n' ∉ l) (hne : l ≠ []) : Written [l] l
  | line {l cs : List Char} {ls : List (List Char)} (hl : '\n' ∉ l) (h : Written ls cs) :
      Written (l :: ls) (l ++ '\n' :: cs)

theorem written_flatMap (h : ∀ l ∈ ls, '\n' ∉ l) : Written ls (ls.flatMap fun l => l ++ ['\n']) := by
  induction ls with
  | nil => exact .nil
  | cons l ls ih =>
    rw [List.flatMap_cons, List.append_assoc]
    exact .line (h l List.mem_cons_self) (ih fun l' hl' => h l' (List.mem_cons_of_mem _ hl'))

theorem exists_written (cs : List Char) : ∃ ls, Written ls cs := by
  induction cs with
  | nil => exact ⟨[], .nil⟩
  | cons c cs ih =>
    obtain ⟨ls, h⟩ := ih
    by_cases hc : c = '\n'
    · subst hc
      exact ⟨[] :: ls, .line List.not_mem_nil h⟩
    have hfree : ∀ {l : List Char}, '\n' ∉ l → '\n' ∉ c :: l :=
      fun hl => List.not_mem_cons_of_ne_of_not_mem (Ne.symm hc) hl
    cases h with
    | nil => exact ⟨[[c]], .last (hfree List.not_mem_nil) (List.cons_ne_nil _ _)⟩
    | last hl hne => exact ⟨[c :: cs], .last (hfree hl) (List.cons_ne_nil _ _)⟩
    | @line l cs ls hl h => exact ⟨(c :: l) :: ls, .line (hfree hl) h⟩

theorem Written.lines (h : Written ls cs) : List.Forall₂ Reads ls (lines cs) := by
  induction h with
  | nil => exact .nil
  | last hl hne =>
    rw [lines_of_not_mem hl hne]
    exact .cons (.inl rfl) .nil
  | line hl _ ih =>
    rw [lines_append hl]
    exact .cons (.inr rfl) ih

theorem dropReturn_cons (h : c ≠ '\r') : dropReturn (c :: cs) = c :: dropReturn cs := by
  rw [dropReturn, dropReturn, List.reverse_cons]
  cases hr : cs.reverse with
  | nil =>
    rw [List.reverse_eq_nil_iff.mp hr, List.nil_append]
    split
    next heq => exact absurd (List.cons.inj heq).1 h
    next => rfl
  | cons d ds =>
    rw [List.cons_append]
    by_cases hd : d = '\r'
    · subst hd
      simp
    · split
      next heq => exact absurd (List.cons.inj heq).1 hd
      next =>
        split
        next heq => exact absurd (List.cons.inj heq).1 hd
        next => rfl

theorem dropReturn_prefix (l : List Char) : dropReturn l <+: l := by
  rw [dropReturn]
  split
  next rest h =>
    refine ⟨['\r'], ?_⟩
    have := congrArg List.reverse h
    simpa using this.symm
  next => exact List.prefix_refl l

theorem Reads.prefix (h : Reads l l') : l' <+: l := by
  rcases h with rfl | rfl
  · exact List.prefix_refl _
  · exact dropReturn_prefix l

theorem Reads.nil (h : Reads [] l') : l' = [] := List.prefix_nil.mp h.prefix

theorem Reads.cons (h : Reads (c :: cs) l') (hc : c ≠ '\r') : ∃ cs', l' = c :: cs' ∧ Reads cs cs' := by
  rcases h with rfl | rfl
  · exact ⟨cs, rfl, .inl rfl⟩
  · exact ⟨dropReturn cs, dropReturn_cons hc, .inr rfl⟩

theorem Reads.append (h : Reads (mark ++ rest) l') (hm : '\r' ∉ mark) :
    ∃ rest', l' = mark ++ rest' ∧ Reads rest rest' := by
  induction mark generalizing l' with
  | nil => exact ⟨l', rfl, h⟩
  | cons m ms ih =>
    simp only [List.mem_cons, not_or] at hm
    obtain ⟨cs', rfl, hcs⟩ := Reads.cons h (Ne.symm hm.1)
    obtain ⟨rest', rfl, hrest⟩ := ih hcs hm.2
    exact ⟨rest', rfl, hrest⟩

theorem Reads.not_startsWith (h : Reads l l') (hm : startsWith mark l = false) :
    startsWith mark l' = false := by
  rw [Bool.eq_false_iff] at hm ⊢
  intro hl'
  obtain ⟨rest, rfl⟩ := startsWith_iff.mp hl'
  obtain ⟨more, rfl⟩ := h.prefix
  exact hm (startsWith_iff.mpr ⟨rest ++ more, by rw [List.append_assoc]⟩)

theorem Reads.trimEnd (h : Reads l l') : trimEnd l' = trimEnd l := by
  rcases h with rfl | rfl
  · rfl
  · rw [dropReturn]
    split
    next rest hr =>
      have hblank : isBlank '\r' = true := by decide
      rw [Text.trimEnd, Text.trimEnd, hr, List.reverse_reverse, List.dropWhile_cons_of_pos hblank]
    next => rfl

end SourceDelta.Text
