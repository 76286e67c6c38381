import SourceDelta.Proofs.Interruption

/-!
# A change that was cut off

The process may stop between any two steps of a change. What it leaves on the disk
is what a change leaves that fails because everything is refused from there on, so
that the states between the steps are among those in which a change may fail. A
store that is opened again takes its flags from the document, and a rollback goes
back to the start in all of these states but two. The value from the start may
stand in the baseline while nothing has yet come into the previous area, and it is
not looked for there; and a new artifact may be in place while its flag is not yet
in the document, and it is not taken away.
-/

set_option autoImplicit false

namespace SourceDelta

namespace Script

variable {α : Type} {w : World}

def refuseFrom (n : Nat) : Nat → Option IoError := fun m => if m < n then none else some .busy

theorem answer_of_not_refused {β : Type} {r : Request β} (h : r.refusal? .busy = none) (w : World) :
    (w.answer r).2.files = w.files ∧ (w.answer r).2.place = w.place := by
  cases r <;> first | exact ⟨rfl, rfl⟩ | cases h

theorem runRefusing_of_le {n m : Nat} (s : Script α) (h : n ≤ m) (w : World) :
    (s.runRefusing (refuseFrom n) m w).2.files = w.files ∧
      (s.runRefusing (refuseFrom n) m w).2.place = w.place := by
  induction s generalizing m w with
  | done a => exact ⟨rfl, rfl⟩
  | ask r next ih =>
    have hrefuse : refuseFrom n m = some .busy := by
      rw [refuseFrom, if_neg (Nat.not_lt.mpr h)]
    simp only [runRefusing, hrefuse, Option.bind_some]
    cases hr : r.refusal? .busy with
    | some b => exact ih b (Nat.le_succ_of_le h) w
    | none =>
      obtain ⟨hfiles, hplace⟩ := answer_of_not_refused hr w
      obtain ⟨hf, hp⟩ := ih (w.answer r).1 (Nat.le_succ_of_le h) (w.answer r).2
      exact ⟨hf.trans hfiles, hp.trans hplace⟩

/-- A script that stops leaves the files that it leaves when everything is refused from there on. -/
theorem stopAfter_files (s : Script α) (n m : Nat) (w : World) :
    (s.stopAfter n w).files = (s.runRefusing (refuseFrom (m + n)) m w).2.files ∧
      (s.stopAfter n w).place = (s.runRefusing (refuseFrom (m + n)) m w).2.place := by
  induction s generalizing n m w with
  | done a => cases n <;> exact ⟨rfl, rfl⟩
  | ask r next ih =>
    cases n with
    | zero =>
      obtain ⟨hf, hp⟩ := runRefusing_of_le (.ask r next) (Nat.le_refl m) w
      exact ⟨hf.symm, hp.symm⟩
    | succ n =>
      have hrefuse : refuseFrom (m + (n + 1)) m = none := by
        rw [refuseFrom, if_pos (by omega)]
      have hstep := ih (w.answer r).1 n (m + 1) (w.answer r).2
      rw [show m + 1 + n = m + (n + 1) by omega] at hstep
      simp only [runRefusing, hrefuse, Option.bind_none, stopAfter]
      exact hstep

end Script

namespace Layout
open SourceDelta.Store (Action Change)

variable {l : Layout} {cwd : Place} {fs fs' : FileSystem} {w w' w₀ w₁ : World} {s s' s₀ s₁ : Store}
  {j k : Key} {v : Weather} {i : Bool} {r r' : FlagRegistry} {f : Flag} {h h' d : Holdings}
  {start : Key → Option Bytes} {x : Option Bytes} {e : Failure} {o : Except Failure Unit}

/-- A new artifact is in place and is not known as new. -/
def Unmarked (start : Key → Option Bytes) (h : Holdings) (r : FlagRegistry) (k : Key) : Prop :=
  start k = none ∧ h .current k ≠ none ∧ r.has k .addition = false

/-- The value from the start stands in the baseline out of reach, and another one is in place. -/
def Parted (h : Holdings) (k : Key) : Prop := Stranded h k ∧ h .current k ≠ h .baseline k

/-- A rollback goes back to the start of every artifact, but for one that may be parted from its value
or unmarked. -/
structure Reverts (start : Key → Option Bytes) (k : Key) (h : Holdings) (r : FlagRegistry) :
    Prop where
  other : ∀ j, j ≠ k → recovered h r j = start j
  own : recovered h r k = start k ↔ ¬ Parted h k ∧ ¬ Unmarked start h r k

theorem reverts_of_tracked (ht : Tracked h r) (hs : ∀ j, h.start r j = start j) :
    Reverts start k h r := by
  have hback : ∀ j, recovered h r j = start j := fun j => (recovered_eq_start ht j).trans (hs j)
  refine ⟨fun j _ => hback j, iff_of_true (hback k) ⟨?_, ?_⟩⟩
  · rintro ⟨⟨hp, hb⟩, -⟩
    exact ht.layered k hb hp
  · rintro ⟨hnone, hc, hr⟩
    rw [← hs, Holdings.start, if_neg (by simp [hr]), Option.or_eq_none_iff,
      Option.or_eq_none_iff] at hnone
    exact hc hnone.2.2

theorem reverts_of_stripped (ht : Tracked d r) (hs : ∀ j, d.start r j = start j)
    (hp : d .previous k ≠ none) (hother : ∀ j, j ≠ k → ∀ a, h a j = d a j)
    (hcurrent : h .current k = d .previous k) (hprevious : h .previous k = none)
    (hbaseline : h .baseline k = d .baseline k) : Reverts start k h r := by
  refine ⟨fun j hj => ?_, ?_⟩
  · rw [← hs, ← recovered_eq_start ht, recovered, recovered]
    simp only [hother j hj]
  obtain ⟨p, hp⟩ := Option.ne_none_iff_exists'.mp hp
  cases hr : r.has k .addition with
  | true =>
    have hstart : start k = none := by rw [← hs, Holdings.start, if_pos hr]
    rw [recovered, if_pos hr, hstart]
    refine iff_of_true rfl ⟨?_, ?_⟩
    · rintro ⟨⟨-, hb⟩, -⟩
      exact hb (hbaseline.trans (ht.fresh k hr))
    · rintro ⟨-, -, hnot⟩
      rw [hr] at hnot
      cases hnot
  | false =>
    have hstart : start k = (d .baseline k).or (some p) := by
      rw [← hs, Holdings.start, if_neg (by simp [hr]), hp, Option.some_or]
    have hmarked : ¬ Unmarked start h r k := by
      rintro ⟨hnone, -, -⟩
      rw [hstart, Option.or_eq_none_iff] at hnone
      cases hnone.2
    rw [recovered, if_neg (by simp [hr]), if_pos hprevious, hstart, hcurrent, hp, Parted, Stranded,
      hcurrent, hprevious, hbaseline, hp]
    cases d .baseline k with
    | none => simp [hmarked]
    | some b => simp [hmarked]

theorem reverts_of_unsaved (ht : Tracked h (r.raised k f))
    (hs : ∀ j, h.start (r.raised k f) j = start j) (hnew : r.has k f = false)
    (hc : f = .addition → h .current k ≠ none) : Reverts start k h r := by
  by_cases hf : f = .addition
  · subst hf
    refine ⟨fun j hj => ?_, ?_⟩
    · have hsame : (r.raised k .addition).has j .addition = r.has j .addition := by
        simp [FlagRegistry.has_raised, hj]
      rw [← hs, ← recovered_eq_start ht, recovered, recovered, hsame]
    · have hraised : (r.raised k .addition).has k .addition = true := by
        simp [FlagRegistry.has_raised]
      have hstart : start k = none := by rw [← hs, Holdings.start, if_pos hraised]
      refine iff_of_false ?_ fun hn => hn.2 ⟨hstart, hc rfl, hnew⟩
      rw [recovered, if_neg (by simp [hnew]), hstart]
      split
      · exact hc rfl
      next hp => simp [Option.or_eq_none_iff, hp]
  · have hsame : ∀ j, r.has j .addition = (r.raised k f).has j .addition :=
      fun j => (FlagRegistry.has_raised_of_ne (Ne.symm hf)).symm
    obtain ⟨ht', hs'⟩ := ht.flagged hsame
    exact reverts_of_tracked ht' fun j => (hs' j).trans (hs j)

theorem tracked_baselined (ht : Tracked h r)
    (hb : h.baselines k (r.has k .addition) = true) :
    Tracked (h.set .baseline k (h .previous k)) r ∧
      ∀ j, (h.set .baseline k (h .previous k)).start r j = h.start r j := by
  simp only [Holdings.baselines, Bool.and_eq_true, Bool.not_eq_true', Option.isNone_iff_eq_none,
    Option.isSome_iff_ne_none] at hb
  obtain ⟨⟨hp, hbase⟩, hr⟩ := hb
  refine ⟨⟨fun j hj => ?_, fun j hj => ?_⟩, fun j => ?_⟩
  · rw [Holdings.set_area (by decide)]
    by_cases hjk : j = k
    · rw [hjk]
      exact hp
    · rw [Holdings.set_key hjk] at hj
      exact ht.layered j hj
  · have hjk : j ≠ k := by
      rintro rfl
      rw [hr] at hj
      cases hj
    rw [Holdings.set_key hjk]
    exact ht.fresh j hj
  · by_cases hjk : j = k
    · subst hjk
      obtain ⟨p, hp⟩ := Option.ne_none_iff_exists'.mp hp
      simp [Holdings.start, hr, hbase, hp, Holdings.set]
    · exact Holdings.start_congr (fun _ => Holdings.set_key hjk) rfl

theorem Stuck.reverts (ht : Tracked h r) (hc : h .current k ≠ none)
    (hstuck : Stuck l h k (r.has k .addition) e h') : Reverts (h.start r) k h' r := by
  obtain ⟨htd, hsd⟩ := ht.displaced hc
  have hpd : (h.displaced k (r.has k .addition)) .previous k ≠ none := by
    rw [Holdings.displaced_previous]
    exact hc
  cases hstuck with
  | baseline_copied he hb =>
    obtain ⟨ht', hs'⟩ := tracked_baselined ht hb
    exact reverts_of_tracked ht' hs'
  | cleared he hb =>
    refine reverts_of_stripped htd hsd hpd (fun j hj a => ?_) ?_ ?_ ?_
    · rw [Holdings.cleared_key hj, Holdings.displaced_key hj]
    · rw [Holdings.displaced_previous, Holdings.cleared, if_pos hb, Holdings.set_area (by decide),
        Holdings.set_area (by decide)]
    · rw [Holdings.cleared, if_pos hb, Holdings.set_self]
    · rw [Holdings.displaced_baseline, if_pos hb, Holdings.cleared, if_pos hb,
        Holdings.set_area (by decide), Holdings.set_self]
  | copied he =>
    -- the values after the displacement, with the current value still in place
    have hsame : (h.displaced k (r.has k .addition)).set .current k (h .current k) =
        (h.cleared k (r.has k .addition)).set .previous k (h .current k) := by
      rw [Holdings.displaced, Holdings.set_set]
      apply Holdings.set_held
      rw [Holdings.set_area (by decide), Holdings.cleared]
      split
      · rw [Holdings.set_area (by decide), Holdings.set_area (by decide)]
      · rfl
    obtain ⟨ht', hs'⟩ := htd.above hpd (h .current k)
    rw [hsame] at ht' hs'
    exact reverts_of_tracked ht' fun j => (hs' j).trans (hsd j)

theorem Unwound.reverts (ht : Tracked h r) (hc : h .current k ≠ none) {b : Bool}
    (hb : b = true → h.baselines k (r.has k .addition) = true)
    (hu : Unwound (h.displaced k (r.has k .addition)) k b h') : Reverts (h.start r) k h' r := by
  obtain ⟨htd, hsd⟩ := ht.displaced hc
  have hpd : (h.displaced k (r.has k .addition)) .previous k ≠ none := by
    rw [Holdings.displaced_previous]
    exact hc
  have hback : ∀ hb : h.baselines k (r.has k .addition) = true,
      ((h.displaced k (r.has k .addition)).set .current k
          ((h.displaced k (r.has k .addition)) .previous k)).set .previous k
          ((h.displaced k (r.has k .addition)) .baseline k) =
        h.set .baseline k (h .previous k) := by
    intro hb
    funext a j
    by_cases hj : j = k
    · subst hj
      cases a <;> simp [Holdings.displaced, Holdings.cleared, hb, Holdings.set]
    · rw [Holdings.set_key hj, Holdings.set_key hj, Holdings.displaced_key hj, Holdings.set_key hj]
  cases hu with
  | still => exact reverts_of_tracked htd hsd
  | copied =>
    obtain ⟨ht', hs'⟩ := htd.above hpd ((h.displaced k (r.has k .addition)) .previous k)
    exact reverts_of_tracked ht' fun j => (hs' j).trans (hsd j)
  | returned =>
    refine reverts_of_stripped htd hsd hpd (fun j hj a => ?_) ?_ ?_ ?_
    · rw [Holdings.set_key hj, Holdings.set_key hj]
    · rw [Holdings.set_area (by decide), Holdings.set_self]
    · rw [Holdings.set_self]
    · rw [Holdings.set_area (by decide), Holdings.set_area (by decide)]
  | rebased hbase =>
    obtain ⟨ht', hs'⟩ := tracked_baselined ht (hb hbase)
    rw [hback (hb hbase)]
    exact reverts_of_tracked ht' hs'
  | restored hbase =>
    have hnone : h .baseline k = none := by
      have := hb hbase
      simp only [Holdings.baselines, Bool.and_eq_true, Option.isNone_iff_eq_none] at this
      exact this.1.2
    rw [hback (hb hbase), Holdings.set_set, Holdings.set_held hnone]
    exact reverts_of_tracked ht fun _ => rfl

/-- A change that has failed, whatever was refused. -/
theorem Failed.reverts {changed : Holdings} (ht : Tracked h r)
    (hfailed : Failed v l r k f h changed h' e r')
    (hchanged : r' ≠ r → Tracked changed (r.raised k f) ∧
      (∀ j, changed.start (r.raised k f) j = h.start r j) ∧
      (f = .addition → changed .current k ≠ none)) : Reverts (h.start r) k h' r := by
  cases hfailed with
  | untouched _ _ _ hafter =>
    rw [hafter]
    exact reverts_of_tracked ht fun _ => rfl
  | displacing _ _ hc hstuck => exact hstuck.reverts ht hc
  | committing _ _ hafter =>
    rcases hafter with ⟨-, rfl⟩ | ⟨hc, b, hb, hu⟩
    · exact reverts_of_tracked ht fun _ => rfl
    · exact hu.reverts ht hc hb
  | saving _ _ _ hnew hafter =>
    rw [hafter]
    obtain ⟨ht', hs', hc⟩ := hchanged (FlagRegistry.raised_ne hnew)
    exact reverts_of_unsaved ht' hs' hnew hc

theorem reverts_ends (h : Underway l cwd start s w) (c : Change) (hc : c.Plain) :
    c.action.Ends v (fun _ _ w' => Footing l cwd w' ∧ ∃ r, r.Ordered ∧
      Recorded l cwd w'.files r ∧ Reverts start c.key (l.held cwd w'.files) r ∧
      ∀ k, r.has k .addition = true → Holdable l .current k) s w := by
  obtain ⟨l', i, r⟩ := s
  obtain rfl : l' = l := h.layout
  obtain rfl : (l'.held cwd w.files).start r = start := funext h.start
  apply Action.ends_mono (change_ends h.footing c)
  rintro (e | ⟨⟩) s w' ⟨r', rfl, hf', ht⟩
  · obtain ⟨f, changed, ⟨hd, hfailed⟩, htracks⟩ := ht
    refine ⟨hf', r, h.ordered, h.recorded.congr hd.document, ?_, h.written⟩
    exact hfailed.reverts h.tracked fun hne => htracks (.inr hne) hc h.tracked
  · have hdone := h.done hc hf' ht
    exact ⟨hf', r', hdone.ordered, hdone.recorded, reverts_of_tracked hdone.tracked hdone.start,
      hdone.written⟩

/-- What the files of a change that has stopped anywhere hold. -/
theorem reverts_of_stopAfter (h : Underway l cwd start s w) (c : Change) (hc : c.Plain) (n : Nat) :
    Footing l cwd ((c.action.on s).stopAfter n w) ∧ ∃ r, r.Ordered ∧
      Recorded l cwd ((c.action.on s).stopAfter n w).files r ∧
      Reverts start c.key (l.held cwd ((c.action.on s).stopAfter n w).files) r ∧
      ∀ k, r.has k .addition = true → Holdable l .current k := by
  have hends := Script.runRefusing_of_ends (reverts_ends h c hc) rough_any
    (refuse_any (Script.refuseFrom (0 + n))) 0
  obtain ⟨hfiles, hplace⟩ := Script.stopAfter_files (c.action.on s) n 0 w
  obtain ⟨hf, hr⟩ := hends
  rw [← hfiles] at hr
  exact ⟨⟨hplace.trans hf.place, hfiles ▸ hf.sound⟩, hr⟩

/-- A store that is opened on the files of a change that has stopped anywhere succeeds in a rollback
that finds room, and nothing is left of the generation. It is back at the start exactly when the
artifact of the change is neither parted from its value nor in place without its mark. -/
theorem rollback_after_crash_iff (hu : FileName.Usable l.extension.toList)
    (hclean : Store.Clean l cwd s₀ w₀) (hrun : Store.Run l s₀ w₀ s w) (c : Change) (hc : c.Plain)
    (n : Nat) (i : Bool) :
    ∃ s₁ w₁, (Store.openAt l i).run.run ((c.action.on s).stopAfter n w) = (.ok s₁, w₁) ∧
      ((Store.rollback.on s₁).roomy w₁ = true →
        ∃ s₂ w₂, (Store.rollback.on s₁).run w₁ = ((.ok (), s₂), w₂) ∧ Fresh l cwd s₂ w₂ ∧
          (Restored l cwd s₀ w₀ s₂ w₂ ↔ ¬ Parted (l.held cwd w₁.files) c.key ∧
            ¬ Unmarked (s₀.values w₀) (l.held cwd w₁.files) s₁.flags c.key)) := by
  have hfresh := fresh_of_clean hu.storable hclean
  have hway := underway_of_run hfresh.underway hrun
  obtain ⟨hf, r, ho, hr, hreverts, hwritten⟩ := reverts_of_stopAfter hway c hc n
  obtain ⟨w₁, hopen⟩ := openAt_run hf hr ho i
  obtain ⟨hf₁, hheld₁, -⟩ := Script.run_of_ends (openAt_ends (v := .any) (i := i) hf hr ho) rough_any
  rw [hopen] at hf₁ hheld₁
  refine ⟨_, w₁, hopen, fun hroom => ?_⟩
  obtain ⟨s₂, w₂, hrollback, hfresh₂, hback⟩ := rollback_run hu hf₁ ho hwritten hroom
  refine ⟨s₂, w₂, hrollback, hfresh₂, ?_⟩
  rw [hheld₁, values_eq hfresh.kept.layout hfresh.kept.footing, ← hreverts.own]
  rw [hheld₁] at hback
  constructor
  · intro hrestored
    rw [← hback]
    exact hrestored.held hfresh.kept hfresh₂.kept c.key
  · intro hown
    refine hfresh₂.restored hu hfresh.kept fun k => (hback k).trans ?_
    by_cases hk : k = c.key
    · rw [hk]
      exact hown
    · exact hreverts.other k hk

set_option maxRecDepth 100000 in
/-- A write of a new artifact that stops after the artifact is in place is not taken back. -/
theorem rollback_after_crash_unmarked : ∃ s₁ w₁ s₂ w₂,
    (Store.openAt smallLayout true).run.run
        (((Change.writeBytes (.code "a") [1]).action.on smallStore).stopAfter 8 openedWorld) =
        (.ok s₁, w₁) ∧
      (Store.rollback.on s₁).run w₁ = ((.ok (), s₂), w₂) ∧
      ¬ Restored smallLayout [] smallStore openedWorld s₂ w₂ := by
  have hcrash := rollback_after_crash_iff usable_smallLayout clean_smallStore .start
    (.writeBytes (.code "a") [1]) trivial 8 true
  obtain ⟨s₁, w₁, hopen, hrollback⟩ := hcrash
  let P : Except Failure Store × World → Bool := fun p => match p with
    | (.ok s₁, w₁) => (Store.rollback.on s₁).roomy w₁ && decide (s₁.flags = .empty) &&
        (smallLayout.held [] w₁.files .current (.code "a")).isSome
    | (.error _, _) => false
  have hP : P ((Store.openAt smallLayout true).run.run
      (((Change.writeBytes (.code "a") [1]).action.on smallStore).stopAfter 8 openedWorld)) =
      true := by decide +kernel
  have hstart : smallStore.values openedWorld (.code "a") = none := by decide +kernel
  rw [hopen] at hP
  simp only [P, Bool.and_eq_true, decide_eq_true_eq, Option.isSome_iff_ne_none] at hP
  obtain ⟨⟨hroom, hflags⟩, hplace⟩ := hP
  obtain ⟨s₂, w₂, hrun, -, hiff⟩ := hrollback hroom
  refine ⟨s₁, w₁, s₂, w₂, hopen, hrun, fun h => (hiff.mp h).2 ⟨hstart, hplace, ?_⟩⟩
  rw [hflags]
  rfl

end Layout

end SourceDelta
