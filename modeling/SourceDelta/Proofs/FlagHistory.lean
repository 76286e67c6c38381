import SourceDelta.Proofs.Answers

/-!
# The flags that a generation raises

An artifact that had no value at the start of the generation is new once it is
written and modified once it is written again; one that had a value is modified
once it is written; and what was deleted stays told as deleted. A store takes the
flag of a write from the files that it finds, and knows neither the start nor the
flags before; the flags tell the history all the same, and beside it only what was
raised explicitly.
-/

set_option autoImplicit false

namespace SourceDelta

namespace Store

/-- The flags of a store are those that a chronicle raises, and the lists of the artifacts with a flag
are made from them. -/
structure Recounts (start : Key → Option Bytes) (es : Chronicle) (s : Store) (w : World) : Prop where
  flags : ∀ k f, (s.flags.get k).contains f = true ↔ .flagged k f ∈ es ∨ es.Raises start k f
  listed : ∀ kind f k, k ∈ s.flags.keysWith kind f ↔
    k.kind = kind ∧ (.flagged k f ∈ es ∨ es.Raises start k f)
  sorted : ∀ kind f, (s.flags.keysWith kind f).Pairwise fun k k' => k.before k' = true
  nodup : ∀ kind f, (s.flags.keysWith kind f).Nodup
  changed : ∀ k, s.values w k ≠ start k → ∃ f, (s.flags.get k).contains f = true

end Store

namespace Layout
open SourceDelta.Store (Chronicle Course Recounts)

variable {l : Layout} {cwd : Place} {w w₀ : World} {s s₀ : Store} {start : Key → Option Bytes}
  {es : Chronicle}

theorem Chronicled.recounts (h : Chronicled l cwd start es s w) : Recounts start es s w := by
  have hflags : ∀ k f, (s.flags.get k).contains f = true ↔
      .flagged k f ∈ es ∨ es.Raises start k f := h.told.flags
  refine ⟨hflags, fun kind f k => ?_, h.ordered.sorted_keysWith, h.ordered.nodup_keysWith,
    fun k hk => ?_⟩
  · rw [h.ordered.mem_keysWith, h.told.flags]
  · rw [values_eq h.layout h.footing, h.told.current] at hk
    obtain ⟨f, hf⟩ := Chronicle.raises_of_value_ne hk
    exact ⟨f, (hflags k f).mpr (.inr hf)⟩

/-- After any changes of a generation the flags of a store are those of its history. -/
theorem recounts_after_course (hu : FileName.Storable l.extension.toList)
    (hclean : Store.Clean l cwd s₀ w₀) (hcourse : Course l s₀ w₀ es s w) :
    Recounts (s₀.values w₀) es s w := by
  have hfresh := fresh_of_clean hu hclean
  rw [values_eq hfresh.kept.layout hfresh.kept.footing]
  exact (chronicled_of_course hfresh.chronicled hcourse).recounts

/-- A new artifact that was written twice is modified as well, and was never deleted. -/
theorem recounts_after_two_writes : ∃ es s w, Course smallLayout smallStore openedWorld es s w ∧
    (s.flags.get (.code "a")).contains .addition = true ∧
      (s.flags.get (.code "a")).contains .modification = true ∧
      (s.flags.get (.code "a")).contains .deletion = false := by
  obtain ⟨s, w, hcourse⟩ := course_of_two_writes
  have h := recounts_after_course usable_smallLayout.storable clean_smallStore hcourse
  have hstart : smallStore.values openedWorld (.code "a") = none := by
    have hfresh := fresh_of_clean usable_smallLayout.storable clean_smallStore
    rw [values_eq hfresh.kept.layout hfresh.kept.footing]
    decide +kernel
  refine ⟨_, s, w, hcourse, (h.flags _ _).mpr ?_, (h.flags _ _).mpr ?_, ?_⟩
  · simp [Chronicle.Raises, Chronicle.writes, hstart]
  · simp [Chronicle.Raises, Chronicle.writes, hstart]
  · rw [Bool.eq_false_iff, ne_eq, h.flags]
    simp [Chronicle.Raises]

def Miscounted (l : Layout) : Prop :=
  ∃ s₀ w₀ es s w, Store.Clean l [] s₀ w₀ ∧ Course l s₀ w₀ es s w ∧
    ¬ Recounts (s₀.values w₀) es s w

set_option maxRecDepth 100000 in
/-- With some extensions an artifact is taken for another one, and so are its flags. -/
theorem recounts_need_files : Miscounted ⟨"/s", "/../x"⟩ ∧ Miscounted ⟨"/s", "2.tmp"⟩ := by
  constructor
  · obtain ⟨s, w, hcourse, -, hflag⟩ := course_of_sharing
    refine ⟨_, _, _, s, w, clean_sharing, hcourse, fun h => ?_⟩
    have hstart : Store.values ⟨⟨"/s", "/../x"⟩, true, .empty⟩ (openedWith "/../x") (.code "b") =
        none := by decide +kernel
    have hnew := (h.flags (.code "b") .addition).mpr (.inr ⟨hstart, by simp [Chronicle.writes]⟩)
    rw [FlagRegistry.has, hnew] at hflag
    cases hflag
  · obtain ⟨s, w, hcourse, -, hflag⟩ := course_of_staging
    refine ⟨_, _, _, s, w, clean_staging, hcourse, fun h => ?_⟩
    have hstart : Store.values ⟨⟨"/s", "2.tmp"⟩, true, .empty⟩ (openedWith "2.tmp")
        (.code ".b.2.tmp.1") = none := by decide +kernel
    have hagain := (h.flags (.code ".b.2.tmp.1") .modification).mpr
      (.inr (.inr ⟨hstart, by simp [Chronicle.writes]⟩))
    rw [FlagRegistry.has, hagain] at hflag
    cases hflag

end Layout

end SourceDelta
