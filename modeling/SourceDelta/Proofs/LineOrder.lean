import SourceDelta.Proofs.LineByLine

/-!
# There and back, and in order

A line that stays has one place and a number on each side, so the walk back from
its number in the one file finds its number in the other; it goes over the same
runs and needs no sum that the walk there did not need. Later lines are at later
places, where the target has as many lines before them or more.
-/

set_option autoImplicit false

namespace SourceDelta
open Run

namespace Direction

def reverse : Direction → Direction
  | oldToNew => newToOld
  | newToOld => oldToNew

@[simp] theorem inSource_reverse (d : Direction) : d.reverse.inSource = d.inTarget := by
  cases d <;> rfl

@[simp] theorem inTarget_reverse (d : Direction) : d.reverse.inTarget = d.inSource := by
  cases d <;> rfl

end Direction

variable {d : Direction} {rs : List Run} {m n line line' : UInt32} {p p' : Position}

theorem locate?_reverse (h : locate? d rs m = some (.kept n)) :
    locate? d.reverse rs n = some (.kept m) := by
  by_cases hm : m = 0
  · subst hm
    cases locate?_zero.mp h
    exact locate?_zero.mpr rfl
  obtain ⟨hfits, w, hn, hkept⟩ := (locate?_eq_some hm).mp h
  obtain ⟨htarget, hw⟩ := Position.ofTarget_eq_kept.mp hkept.symm
  rw [hw, exactNumber] at hn
  have hne : n ≠ 0 := by
    rintro rfl
    exact absurd hn (Nat.succ_ne_zero _).symm
  have hsource := kindAt_place d.inSource_unmodified rs m.toNat
  have hline := before_place d.inSource_unmodified rs (toNat_ne_zero hm)
  rw [locate?_eq_some hne, exactNumber, d.inSource_reverse, d.inTarget_reverse, hn,
    place_before htarget]
  exact ⟨hfits, m, hline.symm, (Position.ofTarget_eq_kept.mpr ⟨hsource, rfl⟩).symm⟩

/-- On lines that stay the two directions undo each other, and no sum fails on the way back. -/
theorem kept_both_ways (rs : List Run) (m n : UInt32) :
    locate? .oldToNew rs m = some (.kept n) ↔ locate? .newToOld rs n = some (.kept m) :=
  ⟨locate?_reverse, locate?_reverse⟩

theorem inTarget_of_kept (hne : line ≠ 0) (h : locate? d rs line = some (.kept n)) :
    d.inTarget (kindAt rs (place d.inSource rs line.toNat)) = true := by
  obtain ⟨-, _, -, hkept⟩ := (locate?_eq_some hne).mp h
  exact (Position.ofTarget_eq_kept.mp hkept.symm).1

theorem line_located (hne : line ≠ 0) (h : locate? d rs line = some p) :
    p.line.toNat = exactNumber d rs line.toNat := by
  obtain ⟨-, n, hn, rfl⟩ := (locate?_eq_some hne).mp h
  rw [Position.line_ofTarget, hn]

/-- A later line goes on at the same line or a later one, and at a later one if the earlier line
stays. So nothing else comes to the number of a line that stays, be it kept or dropped there. -/
theorem locate?_monotone (hlt : line < line') (h : locate? d rs line = some p)
    (h' : locate? d rs line' = some p') :
    p.line ≤ p'.line ∧ ∀ n, p = .kept n → p.line < p'.line ∧ p' ≠ .kept n ∧ p' ≠ .dropped n := by
  have hne' : line' ≠ 0 := by
    rintro rfl
    exact absurd (UInt32.lt_iff_toNat_lt.mp hlt) (Nat.not_lt_zero _)
  have hline' := line_located hne' h'
  suffices hstep : p.line.toNat ≤ p'.line.toNat ∧
      ((∃ n, p = .kept n) → p.line.toNat < p'.line.toNat) by
    refine ⟨UInt32.le_iff_toNat_le.mpr hstep.1, fun n hn => ?_⟩
    have hstrict : p.line < p'.line := UInt32.lt_iff_toNat_lt.mpr (hstep.2 ⟨n, hn⟩)
    subst hn
    refine ⟨hstrict, ?_, ?_⟩
    · rintro rfl
      exact UInt32.lt_irrefl _ hstrict
    · rintro rfl
      exact UInt32.lt_irrefl _ hstrict
  by_cases hne : line = 0
  · subst hne
    cases locate?_zero.mp h
    rw [hline']
    exact ⟨Nat.zero_le _, fun _ => Nat.succ_pos _⟩
  have hline := line_located hne h
  have hplaces : place d.inSource rs line.toNat < place d.inSource rs line'.toNat :=
    place_lt d.inSource_unmodified rs (toNat_ne_zero hne) (UInt32.lt_iff_toNat_lt.mp hlt)
  rw [hline, hline', exactNumber, exactNumber]
  refine ⟨Nat.succ_le_succ (before_mono hplaces.le), ?_⟩
  rintro ⟨n, rfl⟩
  exact Nat.succ_lt_succ (before_lt (inTarget_of_kept hne h) hplaces)

theorem locate?_monotone_of_replaced :
    (6 : UInt32) < 7 ∧ locate? .oldToNew replacedRuns 6 = some (.kept 6) ∧
      locate? .oldToNew replacedRuns 7 = some (.dropped 7) ∧
      (Position.kept 6).line ≤ (Position.dropped 7).line ∧
      ∀ n, Position.kept 6 = .kept n → (Position.kept 6).line < (Position.dropped 7).line ∧
        Position.dropped 7 ≠ .kept n ∧ Position.dropped 7 ≠ .dropped n := by
  have hlt : (6 : UInt32) < 7 := by decide
  have hkept : locate? .oldToNew replacedRuns 6 = some (.kept 6) := by decide
  have hdropped : locate? .oldToNew replacedRuns 7 = some (.dropped 7) := by decide
  exact ⟨hlt, hkept, hdropped, locate?_monotone hlt hkept hdropped⟩

end SourceDelta
