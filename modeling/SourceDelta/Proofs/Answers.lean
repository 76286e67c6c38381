import SourceDelta.Proofs.Chronicles
import SourceDelta.Proofs.Reading

/-!
# The values that a generation answers with

Whatever was written, deleted and flagged since a generation has started, in any
order and with openings in between: what a store answers for the current value of
an artifact is what the latest write or deletion has left, and what it answers for
the previous one is what was moved out last, or the value from the start while
nothing was. After the history is cleared both are the current value.

That every artifact has a file of its own is a matter of the extension. With one
that leads out of the directory of the artifact two artifacts share a file, and
with one that ends as staged files do an artifact may stand where another one is
staged.
-/

set_option autoImplicit false

namespace SourceDelta

namespace Store

/-- What a store answers for the current and the previous value of every artifact. What there is not
is not found, as far as there can be a file of the name at all. -/
structure Answers (l : Layout) (now before : Key → Option Bytes) (s : Store) (w : World) :
    Prop where
  current : ∀ k c, ((s.readBytes k).run.run w).1 = .ok c ↔ now k = some c
  noCurrent : ∀ k, l.Holdable .current k → now k = none →
    ∃ e, ((s.readBytes k).run.run w).1 = .error e ∧ e.category = .notFound
  previous : ∀ k c, ((s.readPreviousBytes k).run.run w).1 = .ok c ↔ before k = some c
  noPrevious : ∀ k, l.Holdable .current k → before k = none →
    ∃ e, ((s.readPreviousBytes k).run.run w).1 = .error e ∧ e.category = .notFound

end Store

namespace Layout
open SourceDelta.Store (Action Change Chronicle Course Answers)

variable {l : Layout} {cwd : Place} {w w' w₀ : World} {s s' s₀ : Store} {k : Key}
  {start now before : Key → Option Bytes} {es : Chronicle}

theorem answers_of_held (hl : s.layout = l) (hf : Footing l cwd w)
    (hc : ∀ k, l.held cwd w.files .current k = now k)
    (hp : ∀ k, (l.held cwd w.files .previous k).or
      (if s.flags.has k .addition then none else l.held cwd w.files .current k) = before k) :
    Answers l now before s w := by
  refine ⟨fun k c => ?_, fun k hh hk => ?_, fun k c => ?_, fun k hh hk => ?_⟩
  · rw [readBytes_ok hl hf, hc]
  · exact ⟨_, readBytes_missing hl hf ((hc k).trans hk) hh, rfl⟩
  · rw [readPreviousBytes_ok hl hf, hp]
  · exact readPreviousBytes_missing hl hf hh ((hp k).trans hk)

theorem Chronicled.previous_eq (h : Chronicled l cwd start es s w)
    (hplain : ∀ k, .flagged k .addition ∉ es) (k : Key) :
    (l.held cwd w.files .previous k).or
      (if s.flags.has k .addition then none else l.held cwd w.files .current k) =
      es.previous start k := by
  rw [h.told.previous, h.told.current, Chronicle.previous]
  cases hd : es.displaced start k with
  | some d => rw [Option.some_or, Option.some_or]
  | none =>
    have hflag : s.flags.has k .addition = true ↔ start k = none ∧ 0 < es.writes k := by
      rw [h.told.flags]
      simp [hplain k, Chronicle.Raises]
    rw [Option.none_or, Option.none_or]
    -- an artifact of which nothing was moved out is new, or it is as it was
    rcases Chronicle.of_displaced_none hd with hnew | ⟨hnever, hsame⟩
    · rw [if_pos (hflag.mpr hnew), hnew.1]
    · rw [if_neg, hsame]
      rw [hflag, hnever]
      simp

theorem Chronicled.cleared (h : Chronicled l cwd start es s w)
    (hroom : (Store.clearHistory.on s).roomy w = true) :
    ∃ s' w', (Store.clearHistory.on s).run w = ((.ok (), s'), w') ∧
      Answers l (es.value start) (es.value start) s' w' := by
  obtain ⟨l', i, r⟩ := s
  obtain rfl : l' = l := h.layout
  have hends := Script.run_of_roomy (clearHistory_ends (v := .calm) (i := i) (r := r) h.footing)
    hroom
  generalize (Store.clearHistory.on ⟨l', i, r⟩).run w = p at hends
  obtain ⟨⟨o, s'⟩, w'⟩ := p
  obtain ⟨r', rfl, hf', hcleared, -⟩ := hends
  cases o with
  | error e => exact absurd hcleared.1 Weather.not_rough_calm
  | ok u =>
    obtain ⟨rfl, hheld, -⟩ := hcleared
    have hcurrent : ∀ k, l'.held cwd w'.files .current k = es.value start k := by
      intro k
      rw [hheld, ← h.told.current k]
      simp [Holdings.clear]
    refine ⟨_, w', rfl, answers_of_held rfl hf' hcurrent fun k => ?_⟩
    rw [FlagRegistry.has_empty, hcurrent, hheld]
    simp [Holdings.clear]

/-- What a store answers after any changes of a generation, and after its history is cleared then. -/
theorem answers_after_course (hu : FileName.Storable l.extension.toList)
    (hclean : Store.Clean l cwd s₀ w₀) (hcourse : Course l s₀ w₀ es s w)
    (hplain : ∀ k, .flagged k .addition ∉ es) :
    Answers l (es.value (s₀.values w₀)) (es.previous (s₀.values w₀)) s w ∧
      (∀ k, 0 < es.writes k ∨ .deleted k ∈ es → Holdable l .current k) ∧
      ((Store.clearHistory.on s).roomy w = true →
        ∃ s' w', (Store.clearHistory.on s).run w = ((.ok (), s'), w') ∧
          Answers l (es.value (s₀.values w₀)) (es.value (s₀.values w₀)) s' w') := by
  have hfresh := fresh_of_clean hu hclean
  have h := chronicled_of_course hfresh.chronicled hcourse
  rw [values_eq hfresh.kept.layout hfresh.kept.footing]
  exact ⟨answers_of_held h.layout h.footing h.told.current (h.previous_eq hplain), h.holdable,
    h.cleared⟩

/-- After two writes of an artifact both of its values are there. -/
theorem answers_after_two_writes : ∃ es s w, Course smallLayout smallStore openedWorld es s w ∧
    ((s.readBytes (.code "a")).run.run w).1 = .ok [2] ∧
      ((s.readPreviousBytes (.code "a")).run.run w).1 = .ok [1] := by
  obtain ⟨s, w, hcourse⟩ := course_of_two_writes
  obtain ⟨h, -⟩ := answers_after_course usable_smallLayout.storable clean_smallStore hcourse
    (by simp)
  refine ⟨_, _, _, hcourse, (h.current _ _).mpr ?_, (h.previous _ _).mpr ?_⟩
  · simp [Chronicle.value]
  · simp [Chronicle.previous, Chronicle.displaced, Chronicle.value]

def Misread (l : Layout) : Prop :=
  ∃ s₀ w₀ es s w, Store.Clean l [] s₀ w₀ ∧ Course l s₀ w₀ es s w ∧
    (∀ k, .flagged k .addition ∉ es) ∧
    ¬ Answers l (es.value (s₀.values w₀)) (es.previous (s₀.values w₀)) s w

/-- An artifact without a value is told otherwise than as one that is not found. -/
def Untold (l : Layout) : Prop :=
  ∃ s w k e, Store.Clean l [] s w ∧ s.values w k = none ∧
    ((s.readBytes k).run.run w).1 = .error e ∧ e.category ≠ .notFound

set_option maxRecDepth 100000 in
/-- Neither with every extension nor for every key do stores answer as they are to. -/
theorem answers_need_files :
    Misread ⟨"/s", "/../x"⟩ ∧ Misread ⟨"/s", "2.tmp"⟩ ∧ Untold smallLayout := by
  refine ⟨?_, ?_, ?_⟩
  · obtain ⟨s, w, hcourse, hread, -⟩ := course_of_sharing
    refine ⟨_, _, _, s, w, clean_sharing, hcourse, by simp, fun h => hread ?_⟩
    exact (h.current _ _).mpr (by simp [Chronicle.value])
  · obtain ⟨s, w, hcourse, hread, -⟩ := course_of_staging
    refine ⟨_, _, _, s, w, clean_staging, hcourse, by simp, fun h => hread ?_⟩
    exact (h.previous _ _).mpr (by simp [Chronicle.previous, Chronicle.displaced, Chronicle.value])
  · -- no path of a file holds a NUL character
    have hread : ((smallStore.readBytes (.code "\x00")).run.run openedWorld).1 =
        .error (.file (.readArtifact (.code "\x00")
          (smallLayout.artifactPath .current (.code "\x00"))) .nulInPath) := by decide +kernel
    refine ⟨_, _, .code "\x00", _, clean_smallStore, ?_, hread, by decide⟩
    rw [Store.values, hread]
    rfl

end Layout

end SourceDelta
