import SourceDelta.Proofs.Reading
import SourceDelta.Proofs.Shelves

/-!
# Values that were moved away

A write over a value and a deletion move the value away, and it stays in the
previous area until the history is cleared. So that area holds a value of an
artifact exactly when some step since then has moved one of its values.
-/

set_option autoImplicit false

namespace SourceDelta

namespace Store

def Change.Moves : Change → Prop
  | .write _ _ | .writeBytes _ _ | .delete _ => True
  | .flag _ _ => False

/-- The history of the generation goes on after the step. -/
def Step.Within : Step → Prop
  | .change _ | .reopen _ => True
  | .clearHistory | .rollback => False

/-- A step has moved a value of the artifact away, and the history has not been cleared since. -/
def MovedAway (k : Key) (ts : List Step) (s₀ : Store) (w₀ : World) : Prop :=
  ∃ before c after s w s' w', ts = before ++ .change c :: after ∧ c.key = k ∧ c.Moves ∧
    perform before s₀ w₀ = some (s, w) ∧ ((s.contains k).run.run w).1 = .ok true ∧
    (c.action.on s).run w = ((.ok (), s'), w') ∧ ∀ t ∈ after, t.Within

variable {s s' : Store} {w w' : World} {ts us : List Step}

theorem perform_append : perform (ts ++ us) s w =
    (perform ts s w).bind fun p => perform us p.1 p.2 := by
  induction ts generalizing s w with
  | nil => rfl
  | cons t ts ih =>
    rw [List.cons_append, perform, perform]
    cases t.take s w with
    | none => rfl
    | some p => exact ih

theorem movedAway_snoc {k : Key} {t : Step} {s₀ : Store} {w₀ : World}
    (hrun : perform ts s₀ w₀ = some (s, w)) : MovedAway k (ts ++ [t]) s₀ w₀ ↔
      t.Within ∧ MovedAway k ts s₀ w₀ ∨ ∃ c, t = .change c ∧ c.key = k ∧ c.Moves ∧
        ((s.contains k).run.run w).1 = .ok true ∧
        ∃ s' w', (c.action.on s).run w = ((.ok (), s'), w') := by
  constructor
  · rintro ⟨before, c, after, s₁, w₁, s₂, w₂, hts, hk, hmoves, hbefore, hcontains, hc, hafter⟩
    rcases List.eq_nil_or_concat after with rfl | ⟨after, u, rfl⟩
    · obtain ⟨rfl, hlast⟩ := List.append_inj' hts rfl
      cases hlast
      cases hrun.symm.trans hbefore
      exact .inr ⟨c, rfl, hk, hmoves, hcontains, _, _, hc⟩
    · rw [List.concat_eq_append] at hts hafter
      rw [← List.cons_append, ← List.append_assoc] at hts
      obtain ⟨rfl, hlast⟩ := List.append_inj' hts rfl
      cases hlast
      exact .inl ⟨hafter t (by simp), before, c, after, s₁, w₁, s₂, w₂, rfl, hk, hmoves, hbefore,
        hcontains, hc, fun u hu => hafter u (List.mem_append_left _ hu)⟩
  · rintro (⟨ht, before, c, after, s₁, w₁, s₂, w₂, rfl, hk, hmoves, hbefore, hcontains, hc, hafter⟩ |
      ⟨c, rfl, hk, hmoves, hcontains, s₂, w₂, hc⟩)
    · refine ⟨before, c, after ++ [t], s₁, w₁, s₂, w₂, by simp, hk, hmoves, hbefore, hcontains, hc,
        fun u hu => ?_⟩
      rcases List.mem_append.mp hu with hu | hu
      · exact hafter u hu
      · rw [List.mem_singleton.mp hu]
        exact ht
    · exact ⟨ts, c, [], s, w, s₂, w₂, rfl, hk, hmoves, hrun, hcontains, hc, List.forall_mem_nil _⟩

namespace Shelf

variable {h : Shelf} {c : Change} {hasFile : Bool}

theorem previous_change : (h.after hasFile (.change c)).previous.isSome = true ↔
    h.previous.isSome = true ∨ c.Moves ∧ h.allows hasFile c = true ∧ h.current.isSome = true := by
  have hwritten : ∀ x, ((if hasFile then h.written x else h).previous.isSome = true ↔
      h.previous.isSome = true ∨ hasFile = true ∧ h.current.isSome = true) := by
    intro x
    cases hasFile with
    | false => simp
    | true =>
      by_cases hc : h.current.isSome = true
      · simp [written, hc, displaced, raised]
      · simp [written, hc, raised]
  cases c with
  | write k value =>
    cases value with
    | none => simp [after, allows]
    | some value => simpa [after, allows, Change.Moves] using hwritten _
  | writeBytes k x => simpa [after, allows, Change.Moves] using hwritten x
  | delete k =>
    by_cases hc : h.current.isSome = true
    · simp [after, deleted, hc, displaced, raised, allows, Change.Moves]
    · simp [after, deleted, hc, allows]
  | flag k f => simp [after, raised, Change.Moves]

theorem of_allows (hm : c.Moves) (hc : h.allows hasFile c = true) :
    hasFile = true ∨ h.current.isSome = true := by
  cases c with
  | write k value =>
    cases value with
    | none => cases hc
    | some value => exact .inl hc
  | writeBytes k x => exact .inl hc
  | delete k => exact .inr hc
  | flag k f => exact hm.elim

end Shelf

end Store

namespace Layout
open SourceDelta.Store (Change Step Shelf MovedAway)

variable {l : Layout} {cwd : Place} {w w' w₀ : World} {s s' s₀ : Store} {k : Key} {t : Step}
  {ts : List Step}

variable (hu : FileName.Storable l.extension.toList)

include hu in
theorem Settled.take_settled (hs : Settled l cwd s w) (h : t.take s w = some (s', w')) :
    Settled l cwd s' w' := by
  by_cases ht : t = .rollback
  · subst ht
    obtain ⟨l', i, r⟩ := s
    obtain rfl : l' = l := hs.layout
    exact (hs.rolledBack h).1
  · exact (hs.take hu (fun he => absurd he ht) h).1

include hu in
theorem Settled.perform_settled (hs : Settled l cwd s w)
    (h : Store.perform ts s w = some (s', w')) : Settled l cwd s' w' := by
  induction ts generalizing s w with
  | nil =>
    cases h
    exact hs
  | cons t ts ih =>
    obtain ⟨⟨s₁, w₁⟩, htake, hrest⟩ := Option.bind_eq_some_iff.mp h
    exact ih (hs.take_settled hu htake) hrest

theorem Settled.named {c : Change} (hs : Settled l cwd s w) (hm : c.Moves)
    (hc : (l.shelf cwd s w c.key).allows (l.hasFile c.key) c = true) : l.fileName c.key ≠ ".." := by
  rcases Shelf.of_allows hm hc with hfile | hcurrent
  · simpa [hasFile] using hfile
  · intro hn
    have hnone : (l.shelf cwd s w c.key).current = none := hs.footing.sound.held_nameless hn
    rw [hnone] at hcurrent
    cases hcurrent

include hu in
theorem Settled.previous_change {c : Change} {o : Except Failure Unit} (hs : Settled l cwd s w)
    (hrun : (c.action.on s).run w = ((o, s'), w')) (ho : ∀ e, o = .error e → e.refused = false) :
    l.held cwd w'.files .previous k ≠ none ↔ l.held cwd w.files .previous k ≠ none ∨
      c.key = k ∧ c.Moves ∧ ((s.contains k).run.run w).1 = .ok true ∧ o = .ok () := by
  obtain ⟨l', i, r⟩ := s
  obtain rfl : l' = l := hs.layout
  obtain ⟨hleads, hallowed⟩ := hs.change hu c hrun ho
  by_cases hk : c.key = k
  · subst hk
    have hprevious : l'.held cwd w'.files .previous c.key ≠ none ↔
        l'.held cwd w.files .previous c.key ≠ none ∨ c.Moves ∧ o = .ok () ∧
          (l'.shelf cwd ⟨l', i, r⟩ w c.key).current.isSome = true := by
      have hp : (l'.shelf cwd s' w' c.key).previous = l'.held cwd w'.files .previous c.key := rfl
      rw [hallowed, ← Option.isSome_iff_ne_none, ← Option.isSome_iff_ne_none, ← hp, hleads.changed]
      exact Shelf.previous_change
    have hcontains : c.Moves → o = .ok () →
        (((Store.contains ⟨l', i, r⟩ c.key).run.run w).1 = .ok true ↔
          (l'.shelf cwd ⟨l', i, r⟩ w c.key).current.isSome = true) := by
      intro hm hok
      have hn := hs.named hm (hallowed.mp hok)
      rw [contains_run (s := ⟨l', i, r⟩) rfl hs.footing hn, Except.ok.injEq]
      rfl
    refine hprevious.trans (or_congr_right ?_)
    constructor
    · rintro ⟨hm, hok, hcurrent⟩
      exact ⟨rfl, hm, (hcontains hm hok).mpr hcurrent, hok⟩
    · rintro ⟨-, hm, hcurrent, hok⟩
      exact ⟨hm, hok, (hcontains hm hok).mp hcurrent⟩
  · have hsame : l'.held cwd w'.files .previous k = l'.held cwd w.files .previous k :=
      congrArg (·.previous) (hleads.other k (Ne.symm hk))
    simp [hsame, hk]

include hu in
/-- In the previous area are the values that were moved away and none besides. -/
theorem Settled.movedAway_iff (h₀ : Settled l cwd s₀ w₀)
    (hstart : l.held cwd w₀.files .previous k = none)
    (hrun : Store.perform ts s₀ w₀ = some (s, w)) :
    MovedAway k ts s₀ w₀ ↔ l.held cwd w.files .previous k ≠ none := by
  induction ts using List.reverseRecOn generalizing s w with
  | nil =>
    cases hrun
    refine iff_of_false ?_ (not_not_intro hstart)
    rintro ⟨before, c, after, -, -, -, -, hts, -⟩
    simp at hts
  | append_singleton ts t ih =>
    rw [Store.perform_append] at hrun
    obtain ⟨⟨s₁, w₁⟩, hbefore, hlast⟩ := Option.bind_eq_some_iff.mp hrun
    obtain ⟨⟨s₂, w₂⟩, htake, hend⟩ := Option.bind_eq_some_iff.mp hlast
    cases hend
    have hs₁ := h₀.perform_settled hu hbefore
    rw [Store.movedAway_snoc hbefore, ih hbefore]
    cases t with
    | change c =>
      obtain ⟨o, hc, ho⟩ := Step.take_change_eq_some.mp htake
      rw [hs₁.previous_change hu hc ho]
      simp [Step.Within, hc]
    | reopen i =>
      obtain ⟨-, hshelf⟩ := hs₁.take hu (t := .reopen i) nofun htake
      have hsame : l.held cwd w.files .previous k = l.held cwd w₁.files .previous k :=
        congrArg (·.previous) (hshelf k)
      simp [Step.Within, hsame]
    | clearHistory =>
      obtain ⟨-, hshelf⟩ := hs₁.take hu (t := .clearHistory) nofun htake
      have hnone : l.held cwd w.files .previous k = none := congrArg (·.previous) (hshelf k)
      simp [Step.Within, hnone]
    | rollback =>
      obtain ⟨l', i, r⟩ := s₁
      obtain rfl : l' = l := hs₁.layout
      obtain ⟨-, x, hshelf, -⟩ := hs₁.rolledBack htake
      have hnone : l'.held cwd w.files .previous k = none := congrArg (·.previous) (hshelf k)
      simp [Step.Within, hnone]

end Layout

end SourceDelta
