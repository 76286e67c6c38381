import Mathlib.Data.List.TakeWhile
import SourceDelta.Strategy

/-!
# Lines that bear variability

A line bears variability when it is a conditional of the preprocessor or when a word
of it starts as a configuration symbol. Both are patterns of a line, spelled out here
part by part, and the scans find exactly the lines that have them.
-/

set_option autoImplicit false

namespace SourceDelta
open SourceDelta.Text

variable {c : Char} {cs line mark rest : List Char} {inWord : Bool} {path : String}

/-- Blanks, a hash, blanks, and a directive that the word behind it does not go on. -/
def Conditional (line : List Char) : Prop :=
  ∃ before between directive rest, line = before ++ '#' :: (between ++ (directive ++ rest)) ∧
    (∀ c ∈ before, isBlank c = true) ∧ (∀ c ∈ between, isBlank c = true) ∧
    directive ∈ directives ∧ ∀ c ∈ rest.head?, isWordChar c = false

theorem exists_trimStart (cs : List Char) :
    ∃ before, cs = before ++ trimStart cs ∧ ∀ c ∈ before, isBlank c = true :=
  ⟨cs.takeWhile isBlank, (List.takeWhile_append_dropWhile).symm,
    fun _ hc => List.mem_takeWhile_imp hc⟩

theorem trimStart_append {before : List Char} (hb : ∀ c ∈ before, isBlank c = true)
    (hc : isBlank c = false) : trimStart (before ++ c :: cs) = c :: cs := by
  rw [trimStart, List.dropWhile_append_of_pos hb, List.dropWhile_cons_of_neg (by simp [hc])]

theorem wordEnds_iff : wordEnds rest = true ↔ ∀ c ∈ rest.head?, isWordChar c = false := by
  cases rest <;> simp [wordEnds]

theorem exists_cons_of_mem_directives {d : List Char} (hd : d ∈ directives) :
    ∃ c cs, d = c :: cs ∧ isBlank c = false := by
  have hfirst : ∀ d ∈ directives, d.head?.map isBlank = some false := by decide
  obtain ⟨c, hc, hblank⟩ := Option.map_eq_some_iff.mp (hfirst d hd)
  obtain ⟨cs, rfl⟩ := List.head?_eq_some_iff.mp hc
  exact ⟨c, cs, rfl, hblank⟩

theorem isConditional_iff : isConditional line = true ↔ Conditional line := by
  rw [isConditional]
  constructor
  · intro h
    obtain ⟨before, hline, hbefore⟩ := exists_trimStart line
    split at h
    next rest hrest =>
      obtain ⟨between, hbetween, hblank⟩ := exists_trimStart rest
      obtain ⟨d, hd, hword⟩ := List.any_eq_true.mp h
      split at hword
      next tail htail =>
        refine ⟨before, between, d, tail, ?_, hbefore, hblank, hd, wordEnds_iff.mp hword⟩
        rw [← after?_eq_some.mp htail, ← hbetween, ← hrest]
        exact hline
      next => cases hword
    next => cases h
  · rintro ⟨before, between, d, rest, rfl, hbefore, hbetween, hd, hword⟩
    obtain ⟨c, cs, rfl, hc⟩ := exists_cons_of_mem_directives hd
    rw [trimStart_append hbefore (by decide)]
    refine List.any_eq_true.mpr ⟨c :: cs, hd, ?_⟩
    rw [List.cons_append, trimStart_append hbetween hc, ← List.cons_append,
      after?_eq_some.mpr rfl]
    exact wordEnds_iff.mpr hword

def symbolStart : List Char := "CONFIG_".toList

/-- The start of a symbol, at the start of a word, and a character of a name behind it. -/
def MentionsSymbol (line : List Char) : Prop :=
  ∃ front c back, line = front ++ (symbolStart ++ c :: back) ∧ isSymbolChar c = true ∧
    ∀ d ∈ front.getLast?, isWordChar d = false

theorem symbolHere_iff : symbolHere cs = true ↔
    ∃ c back, cs = symbolStart ++ c :: back ∧ isSymbolChar c = true := by
  rw [symbolHere]
  constructor
  · intro h
    split at h
    next c back hafter => exact ⟨c, back, after?_eq_some.mp hafter, h⟩
    next => cases h
  · rintro ⟨c, back, rfl, hc⟩
    have hafter : after? "CONFIG_".toList (symbolStart ++ c :: back) = some (c :: back) :=
      after?_eq_some.mpr rfl
    rw [hafter]
    exact hc

/-- The scan carries along whether a word character stands before the rest of the line. -/
theorem mentionsSymbol_iff_of_inWord : mentionsSymbol inWord cs = true ↔
    ∃ front c back, cs = front ++ (symbolStart ++ c :: back) ∧ isSymbolChar c = true ∧
      (front.getLast?.map isWordChar).getD inWord = false := by
  induction cs generalizing inWord with
  | nil => simp [mentionsSymbol]
  | cons x cs ih =>
    rw [mentionsSymbol, Bool.or_eq_true, Bool.and_eq_true, Bool.not_eq_true', symbolHere_iff, ih]
    constructor
    · rintro (⟨hword, c, back, hcs, hc⟩ | ⟨front, c, back, rfl, hc, hlast⟩)
      · exact ⟨[], c, back, hcs, hc, hword⟩
      · refine ⟨x :: front, c, back, rfl, hc, ?_⟩
        cases front with
        | nil => exact hlast
        | cons y front => rwa [List.getLast?_cons_cons]
    · rintro ⟨front, c, back, hcs, hc, hlast⟩
      cases front with
      | nil => exact .inl ⟨hlast, c, back, hcs, hc⟩
      | cons y front =>
        obtain ⟨rfl, rfl⟩ := List.cons.inj hcs
        refine .inr ⟨front, c, back, rfl, hc, ?_⟩
        cases front with
        | nil => exact hlast
        | cons z front => rwa [List.getLast?_cons_cons] at hlast

theorem mentionsSymbol_iff : mentionsSymbol false line = true ↔ MentionsSymbol line := by
  rw [mentionsSymbol_iff_of_inWord, MentionsSymbol]
  refine exists_congr fun front => exists_congr fun c => exists_congr fun back => ?_
  cases front.getLast? <;> simp

def BearsVariability (line : List Char) : Prop := Conditional line ∨ MentionsSymbol line

theorem bearsVariability_iff : bearsVariability line = true ↔ BearsVariability line := by
  rw [bearsVariability, Bool.or_eq_true, isConditional_iff, mentionsSymbol_iff, BearsVariability]

example : bearsVariability "  # ifdef X".toList = true ∧
    bearsVariability "#iffy".toList = false ∧
    bearsVariability "x = (CONFIG_A);".toList = true ∧
    bearsVariability "MY_CONFIG_A CONFIG_".toList = false := by
  decide

def LastPart (sep : Char) (cs part : List Char) : Prop :=
  sep ∉ part ∧ (cs = part ∨ ∃ front, cs = front ++ sep :: part)

theorem LastPart.lastPart_eq {sep : Char} {part : List Char} (h : LastPart sep cs part) :
    lastPart sep cs = part := by
  obtain ⟨hpart, hcs⟩ := h
  have hkeep : ∀ c ∈ part.reverse, decide (c ≠ sep) = true := by
    intro c hc
    rw [decide_eq_true_eq]
    rintro rfl
    exact hpart (List.mem_reverse.mp hc)
  rcases hcs with rfl | ⟨front, rfl⟩
  · rw [lastPart, List.takeWhile_eq_self_iff.mpr hkeep, List.reverse_reverse]
  · rw [lastPart, List.reverse_append, List.reverse_cons, List.append_assoc,
      List.takeWhile_append_of_pos hkeep]
    simp

theorem exists_lastPart (sep : Char) (cs : List Char) : ∃ part, LastPart sep cs part := by
  by_cases hsep : sep ∈ cs
  · obtain ⟨part, front, hcs, hpart⟩ := List.eq_append_cons_of_mem (List.mem_reverse.mpr hsep)
    refine ⟨part.reverse, by simpa using hpart, .inr ⟨front.reverse, ?_⟩⟩
    simpa using congrArg List.reverse hcs
  · exact ⟨cs, hsep, .inl rfl⟩

theorem lastPart_iff {sep : Char} {part : List Char} :
    lastPart sep cs = part ↔ LastPart sep cs part := by
  obtain ⟨p, hp⟩ := exists_lastPart sep cs
  rw [hp.lastPart_eq]
  exact ⟨fun h => h ▸ hp, fun h => hp.lastPart_eq.symm.trans h.lastPart_eq⟩

theorem isKconfig_iff : isKconfig path = true ↔
    ∃ rest, LastPart '/' path.toList ("Kconfig".toList ++ rest) := by
  rw [isKconfig, startsWith_iff]
  exact exists_congr fun rest => lastPart_iff

end SourceDelta
