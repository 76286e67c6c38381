import SourceDelta.Proofs.Restoring

/-!
# A rollback that has stopped

A rollback that has stopped at an error is called again. The second one succeeds
and clears what is left of the generation. It has brought back every value but
one: the value of an artifact that was displaced twice stands in the baseline,
and it is looked for there only while there is a previous value. A rollback that
has removed the previous value and stopped before the move leaves the artifact
with the value that it had last.
-/

set_option autoImplicit false

namespace SourceDelta.Layout

variable {l : Layout} {cwd : Place} {fs fs' : FileSystem} {w w' w₀ w₁ w₂ : World}
  {s s' s₀ s₁ s₂ : Store} {k : Key} {r r' : FlagRegistry} {h h' : Holdings}
  {start : Key → Option Bytes}

/-- The value from the start stands in the baseline, and nothing is left that leads there. -/
def Stranded (h : Holdings) (k : Key) : Prop := h .previous k = none ∧ h .baseline k ≠ none

/-- What a rollback that has stopped has left of each artifact, as the next one will see it. -/
structure Midway (start : Key → Option Bytes) (h : Holdings) (r : FlagRegistry) : Prop where
  added : ∀ k, r.has k .addition = true → start k = none ∧ (Stranded h k → h .current k = none)
  displaced : ∀ k, r.has k .addition = false → h .previous k ≠ none →
    (h .baseline k).or (h .previous k) = start k
  plain : ∀ k, r.has k .addition = false → h .previous k = none → h .baseline k = none →
    h .current k = start k

/-- The next rollback brings everything back but what is stranded. -/
theorem Midway.recovered (hm : Midway start h r) (k : Key) :
    recovered h r k = start k ↔ (Stranded h k → h .current k = start k) := by
  rw [Layout.recovered]
  cases hk : r.has k .addition with
  | true =>
    obtain ⟨hstart, hstranded⟩ := hm.added k hk
    simp only [if_true, hstart, true_iff]
    exact hstranded
  | false =>
    simp only [Bool.false_eq_true, if_false]
    by_cases hp : h .previous k = none
    · rw [if_pos hp]
      refine ⟨fun he _ => he, fun he => ?_⟩
      by_cases hb : h .baseline k = none
      · exact hm.plain k hk hp hb
      · exact he ⟨hp, hb⟩
    · rw [if_neg hp]
      exact ⟨fun _ hs => absurd hs.1 hp, fun _ => hm.displaced k hk hp⟩

theorem Midway.of_settled (hr : ∀ k, r.has k .addition = true → start k = none)
    (hc : ∀ k, h .current k = start k)
    (hp : ∀ k, r.has k .addition = false → h .previous k = none) : Midway start h r := by
  refine ⟨fun k hk => ⟨hr k hk, fun _ => ?_⟩, fun k hk hp' => absurd (hp k hk) hp',
    fun k _ _ _ => hc k⟩
  rw [hc, hr k hk]

theorem start_of_displaced (hk : r.has k .addition = false) (hp : h .previous k ≠ none) :
    h.start r k = (h .baseline k).or (h .previous k) := by
  obtain ⟨p, hp⟩ := Option.ne_none_iff_exists'.mp hp
  rw [Holdings.start, if_neg (by simp [hk]), hp, Option.some_or]

theorem displaced_of_halfway (hback : Returned h h' k ∨ Halfway h h' k)
    (hp : h' .previous k ≠ none) :
    (h' .baseline k).or (h' .previous k) = (h .baseline k).or (h .previous k) := by
  rcases hback with hback | hback
  · exact absurd hback.previous hp
  · cases hback with
    | untouched hs => rw [hs, hs]
    | stranded _ _ hnone => exact absurd hnone hp
    | copied _ hprevious hbaseline =>
      rw [hprevious] at hp ⊢
      split at hp
      next hb => rw [if_pos hb, hbaseline]
      next => exact absurd rfl hp

theorem current_of_halfway (hback : Returned h h' k ∨ Halfway h h' k) (hp₀ : h .previous k ≠ none)
    (hp : h' .previous k = none) (hb : h' .baseline k = none) :
    h' .current k = (h .baseline k).or (h .previous k) := by
  rcases hback with hback | hback
  · exact hback.current
  · cases hback with
    | untouched hs => exact absurd ((hs .previous).symm.trans hp) hp₀
    | stranded hb' _ _ hbaseline => exact absurd (hbaseline.symm.trans hb) hb'
    | copied hcurrent => exact hcurrent

theorem Interrupted.midway (hi : Interrupted h r h' r') (ht : Tracked h r) :
    Midway (h.start r) h' r' ∧ Midway (h.start r) h' r := by
  have hadded : ∀ k, r.has k .addition = true → h.start r k = none := by
    intro k hk
    rw [Holdings.start, if_pos hk]
  have hlayered : ∀ k, h .previous k = none → h .baseline k = none := by
    intro k hp
    by_contra hb
    exact ht.layered k hb hp
  cases hi with
  | returning hflags hnew hplain hdisplaced =>
    subst hflags
    suffices hm : Midway (h.start r') h' r' from ⟨hm, hm⟩
    refine ⟨fun k hk => ⟨hadded k hk, fun hs => ?_⟩, fun k hk hp => ?_, fun k hk hp hb => ?_⟩
    · exact absurd ((hnew k hk .baseline (by decide)).trans (ht.fresh k hk)) hs.2
    · by_cases hp₀ : h .previous k = none
      · exact absurd ((hplain k hk hp₀ .previous).trans hp₀) hp
      rw [start_of_displaced hk hp₀]
      exact displaced_of_halfway (hdisplaced k hk hp₀) hp
    · by_cases hp₀ : h .previous k = none
      · rw [hplain k hk hp₀, Holdings.start, if_neg (by simp [hk]), hlayered k hp₀, hp₀,
          Option.none_or, Option.none_or]
      rw [start_of_displaced hk hp₀]
      exact current_of_halfway (hdisplaced k hk hp₀) hp₀ hp hb
  | clearing hflags hcurrent hprevious =>
    have hc : ∀ k, h' .current k = h.start r k := fun k =>
      (hcurrent k).trans (recovered_eq_start ht k)
    refine ⟨?_, .of_settled hadded hc hprevious⟩
    rcases hflags with rfl | ⟨rfl, hnone⟩
    · exact .of_settled hadded hc hprevious
    · refine .of_settled (fun k hk => ?_) hc fun k _ => (hnone k).1
      rw [FlagRegistry.has_empty] at hk
      cases hk

/-- The store is the one whose rollback has stopped, or it has been opened again since. -/
inductive Resumed (l : Layout) (s₁ : Store) (w₁ : World) : Store → World → Prop
  | same : Resumed l s₁ w₁ s₁ w₁
  | reopened {i : Bool} {s₂ : Store} {w₂ : World}
      (hrun : (Store.openAt l i).run.run w₁ = (.ok s₂, w₂)) : Resumed l s₁ w₁ s₂ w₂

theorem values_iff_held (h₁ : Kept l cwd s₁ w₁) (h₂ : Kept l cwd s₂ w₂) :
    ((s₁.readBytes k).run.run w₁).1 = ((s₂.readBytes k).run.run w₂).1 ↔
      l.held cwd w₁.files .current k = l.held cwd w₂.files .current k := by
  refine ⟨fun he => ?_, fun he => readBytes_congr h₂.layout h₁.layout h₂.footing h₁.footing he⟩
  ext c
  rw [← readBytes_ok h₁.layout h₁.footing, ← readBytes_ok h₂.layout h₂.footing, he]

theorem Restored.held (hr : Restored l cwd s₀ w₀ s w) (h₀ : Kept l cwd s₀ w₀)
    (h : Kept l cwd s w) (k : Key) :
    l.held cwd w.files .current k = l.held cwd w₀.files .current k :=
  (values_iff_held h h₀).mp (hr.values k)

structure Stopped (l : Layout) (cwd : Place) (start : Key → Option Bytes) (s : Store) (w : World) :
    Prop where
  layout : s.layout = l
  footing : Footing l cwd w
  ordered : s.flags.Ordered
  midway : Midway start (l.held cwd w.files) s.flags
  written : ∀ k, s.flags.has k .addition = true → Holdable l .current k

/-- A rollback that fails leaves a store that it can be called on again, with the flags that it has in
memory and with those of the document. -/
theorem stopped_of_rollback {refuse : Nat → Option IoError} {n : Nat} {e : Failure}
    (hu : FileName.Usable l.extension.toList) (hway : Underway l cwd start s w)
    (hrefuse : ∀ n e, refuse n = some e → e ≠ .noEntry)
    (hstop : (Store.rollback.on s).runRefusing refuse n w = ((.error e, s₁), w₁)) :
    Kept l cwd s₁ w₁ ∧ Stopped l cwd start s₁ w₁ ∧
      ∃ r, r.Ordered ∧ Recorded l cwd w₁.files r ∧ ∀ i, Stopped l cwd start ⟨l, i, r⟩ w₁ := by
  obtain ⟨l', i, r⟩ := s
  obtain rfl : l' = l := hway.layout
  obtain rfl : (l'.held cwd w.files).start r = start := funext hway.start
  have hrough : Weather.honest.Rough := ⟨.busy, by simp [Weather.honest]⟩
  have hends := Script.runRefusing_of_ends
    (rollback_ends (v := .honest) (i := i) hway.footing hway.ordered) hrough hrefuse n
  rw [hstop] at hends
  obtain ⟨r₁, rfl, hf₁, hhalted⟩ := hends
  obtain ⟨-, hinterrupted⟩ :=
    hhalted.interrupted (by simp [Weather.honest]) (listable_of_usable hu) hway.written
  obtain ⟨hm₁, hm⟩ := hinterrupted.midway hway.tracked
  have hrecorded : Recorded l' cwd w₁.files r := hway.recorded.congr hhalted.document
  have hs : ∀ i, Stopped l' cwd ((l'.held cwd w.files).start r) ⟨l', i, r⟩ w₁ := fun i =>
    ⟨rfl, hf₁, hway.ordered, hm, hway.written⟩
  have hs₁ : Stopped l' cwd ((l'.held cwd w.files).start r) ⟨l', i, r₁⟩ w₁ := by
    rcases hhalted.flags with rfl | rfl
    · exact hs i
    · refine ⟨rfl, hf₁, FlagRegistry.ordered_empty, hm₁, fun k hk => ?_⟩
      rw [FlagRegistry.has_empty] at hk
      cases hk
  exact ⟨⟨rfl, hf₁, hs₁.ordered, r, hway.ordered, hrecorded⟩, hs₁, r, hway.ordered, hrecorded, hs⟩

theorem Resumed.stopped (h : Resumed l s₁ w₁ s₂ w₂) (hs₁ : Stopped l cwd start s₁ w₁)
    (ho : r.Ordered) (hr : Recorded l cwd w₁.files r)
    (hs : ∀ i, Stopped l cwd start ⟨l, i, r⟩ w₁) :
    Stopped l cwd start s₂ w₂ ∧ l.held cwd w₂.files = l.held cwd w₁.files := by
  cases h with
  | same => exact ⟨hs₁, rfl⟩
  | @reopened i _ _ hopen =>
    obtain ⟨hf₂, hheld, -, hok, -⟩ := Script.run_of_ends
      (openAt_ends (v := .any) (i := i) hs₁.footing hr ho) rough_any
    rw [hopen] at hf₂ hheld hok
    obtain rfl := hok s₂ rfl
    exact ⟨⟨rfl, hf₂, ho, hheld ▸ (hs i).midway, (hs i).written⟩, hheld⟩

theorem Stopped.rollback (hu : FileName.Usable l.extension.toList) (h : Stopped l cwd start s w)
    (hroom : (Store.rollback.on s).roomy w = true) :
    ∃ s' w', (Store.rollback.on s).run w = ((.ok (), s'), w') ∧ Fresh l cwd s' w' ∧
      ∀ k, l.held cwd w'.files .current k = start k ↔
        (Stranded (l.held cwd w.files) k → l.held cwd w.files .current k = start k) := by
  obtain ⟨l', i, r⟩ := s
  obtain rfl : l' = l := h.layout
  obtain ⟨s', w', hrun, hfresh, hback⟩ := rollback_run hu h.footing h.ordered h.written hroom
  exact ⟨s', w', hrun, hfresh, fun k => by rw [hback k, h.midway.recovered k]⟩

/-- A rollback that is called again after it has stopped succeeds, and nothing is left of the
generation. It is back at the start exactly when every stranded artifact had its value from the start
already. -/
theorem rollback_again {refuse : Nat → Option IoError} {n : Nat} {e : Failure}
    (hu : FileName.Usable l.extension.toList) (hclean : Store.Clean l cwd s₀ w₀)
    (hrun : Store.Run l s₀ w₀ s w) (hrefuse : ∀ n e, refuse n = some e → e ≠ .noEntry)
    (hstop : (Store.rollback.on s).runRefusing refuse n w = ((.error e, s₁), w₁))
    (hresumed : Resumed l s₁ w₁ s₂ w₂) (hroom : (Store.rollback.on s₂).roomy w₂ = true) :
    ∃ s₃ w₃, (Store.rollback.on s₂).run w₂ = ((.ok (), s₃), w₃) ∧ Fresh l cwd s₃ w₃ ∧
      (Restored l cwd s₀ w₀ s₃ w₃ ↔ ∀ k, Stranded (l.held cwd w₁.files) k →
        ((s₁.readBytes k).run.run w₁).1 = ((s₀.readBytes k).run.run w₀).1) := by
  have hfresh := fresh_of_clean hu.storable hclean
  have hway := underway_of_run hfresh.underway hrun
  obtain ⟨hkept₁, hs₁, r, ho, hr, hs⟩ := stopped_of_rollback hu hway hrefuse hstop
  obtain ⟨hs₂, hheld⟩ := hresumed.stopped hs₁ ho hr hs
  obtain ⟨s₃, w₃, hrun₃, hfresh₃, hback⟩ := hs₂.rollback hu hroom
  rw [hheld] at hback
  refine ⟨s₃, w₃, hrun₃, hfresh₃, fun hr k hs => ?_, fun hs => ?_⟩
  · rw [values_iff_held hkept₁ hfresh.kept]
    exact (hback k).mp (hr.held hfresh.kept hfresh₃.kept k) hs
  · refine hfresh₃.restored hu hfresh.kept fun k => (hback k).mpr fun hk => ?_
    exact (values_iff_held hkept₁ hfresh.kept).mp (hs k hk)

set_option maxRecDepth 100000 in
/-- A rollback whose first removal is refused, and the one after it. -/
theorem rollback_again_after_refusal : ∃ s w s₁ w₁ e,
    Store.Run smallLayout smallStore openedWorld s w ∧
      (Store.rollback.on s).runRefusing (fun n => if n = 0 then some .busy else none) 0 w =
        ((.error e, s₁), w₁) ∧
      ∃ s₃ w₃, (Store.rollback.on s₁).run w₁ = ((.ok (), s₃), w₃) ∧ Fresh smallLayout [] s₃ w₃ ∧
        (Restored smallLayout [] smallStore openedWorld s₃ w₃ ↔
          ∀ k, Stranded (smallLayout.held [] w₁.files) k →
            ((s₁.readBytes k).run.run w₁).1 = ((smallStore.readBytes k).run.run openedWorld).1) := by
  have hwrite : ((Store.Change.writeBytes (.code "a") [1]).action.on smallStore).roomy
      openedWorld = true := by decide +kernel
  have hstopped : ∃ s w, Store.Run smallLayout smallStore openedWorld s w ∧
      ((Store.rollback.on s).runRefusing (fun n => if n = 0 then some .busy else none) 0 w).1.1 =
        .error (.file (.remove "/s/current/code/a.c") .busy) ∧
      (Store.rollback.on ((Store.rollback.on s).runRefusing
        (fun n => if n = 0 then some .busy else none) 0 w).1.2).roomy
        ((Store.rollback.on s).runRefusing (fun n => if n = 0 then some .busy else none) 0 w).2 =
        true :=
    ⟨_, _, Store.Run.next .start (.writeBytes (.code "a") [1]) trivial hwrite, by decide +kernel,
      by decide +kernel⟩
  obtain ⟨s, w, hrun, hstop, hroom⟩ := hstopped
  have hrefuse : ∀ n e, (if n = 0 then some IoError.busy else none) = some e → e ≠ .noEntry := by
    intro n e he
    split at he
    · cases he
      decide
    · cases he
  exact ⟨s, w, _, _, _, hrun, outcome_eq hstop, rollback_again usable_smallLayout clean_smallStore
    hrun hrefuse (outcome_eq hstop) .same hroom⟩

end SourceDelta.Layout
