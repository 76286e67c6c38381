import SourceDelta.Proofs.Runs

/-!
# Flags that last

The flags of a store last when the store that is opened afresh has the same ones.
The document is written for a flag that is new and not for one that is there
already, and a flag that could not be saved is there already. So what is found
afresh are the flags that the store had when it was opened, or after the latest
call that succeeded and changed them or cleared the history.
-/

set_option autoImplicit false

namespace SourceDelta

namespace Store

/-- The store that is opened afresh has the flags of this one. -/
def Lasting (s : Store) (w : World) : Prop :=
  ∀ i, ∃ s' w', (openAt s.layout i).run.run w = (.ok s', w') ∧
    ∀ k, s'.flags.get k = s.flags.get k

/-- The document is written whatever flags there are. -/
def Call.Renews : Call → Prop
  | change _ => False
  | clearHistory | rollback => True

/-- The call has succeeded and has changed or cleared the flags. -/
def Call.Saves (c : Call) (s s' : Store) (o : Except Failure Unit) : Prop :=
  o = .ok () ∧ (c.Renews ∨ s'.flags ≠ s.flags)

/-- The stores that there can be, whatever was refused, each with the flags that it had when it was
opened or after the latest call that saved them. -/
inductive Logged (l : Layout) (cwd : Place) : FlagRegistry → Store → World → Prop
  | opened {i : Bool} {refuse : Nat → Option IoError} {n : Nat} {w w' : World} {s : Store}
      (hw : w.place = cwd) (hv : l.Vacant cwd w.files)
      (hrun : (openAt l i).run.runRefusing refuse n w = (.ok s, w')) : Logged l cwd s.flags s w'
  | saved {r : FlagRegistry} {s s' : Store} {w w' : World} (h : Logged l cwd r s w) (c : Call)
      {refuse : Nat → Option IoError} {n : Nat} {o : Except Failure Unit}
      (hrun : (c.action.on s).runRefusing refuse n w = ((o, s'), w')) (hc : c.Saves s s' o) :
      Logged l cwd s'.flags s' w'
  | unsaved {r : FlagRegistry} {s s' : Store} {w w' : World} (h : Logged l cwd r s w) (c : Call)
      {refuse : Nat → Option IoError} {n : Nat} {o : Except Failure Unit}
      (hrun : (c.action.on s).runRefusing refuse n w = ((o, s'), w')) (hc : ¬ c.Saves s s' o) :
      Logged l cwd r s' w'
  | reopened {r : FlagRegistry} {s s' : Store} {w w' : World} (h : Logged l cwd r s w) {i : Bool}
      {refuse : Nat → Option IoError} {n : Nat}
      (hrun : (openAt l i).run.runRefusing refuse n w = (.ok s', w')) :
      Logged l cwd s'.flags s' w'
  | unopened {r : FlagRegistry} {s : Store} {w w' : World} (h : Logged l cwd r s w) {i : Bool}
      {refuse : Nat → Option IoError} {n : Nat} {e : Failure}
      (hrun : (openAt l i).run.runRefusing refuse n w = (.error e, w')) : Logged l cwd r s w'

theorem Logged.reachable {l : Layout} {cwd : Place} {r : FlagRegistry} {s : Store} {w : World}
    (h : Logged l cwd r s w) : Reachable l cwd s w := by
  induction h with
  | opened hw hv hrun => exact .opened hw hv hrun
  | saved _ c hrun _ ih => exact .called ih c hrun
  | unsaved _ c hrun _ ih => exact .called ih c hrun
  | reopened _ hrun ih => exact .reopened ih hrun
  | unopened _ hrun ih => exact .unopened ih hrun

theorem Reachable.logged {l : Layout} {cwd : Place} {s : Store} {w : World}
    (h : Reachable l cwd s w) : ∃ r, Logged l cwd r s w := by
  induction h with
  | opened hw hv hrun => exact ⟨_, .opened hw hv hrun⟩
  | @called s s' _ _ _ c _ _ o hrun ih =>
    obtain ⟨r, h⟩ := ih
    by_cases hc : c.Saves s s' o
    · exact ⟨_, .saved h c hrun hc⟩
    · exact ⟨_, .unsaved h c hrun hc⟩
  | reopened _ hrun ih =>
    obtain ⟨r, h⟩ := ih
    exact ⟨_, .reopened h hrun⟩
  | unopened _ hrun ih =>
    obtain ⟨r, h⟩ := ih
    exact ⟨_, .unopened h hrun⟩

end Store

namespace Layout
open SourceDelta.Store (Action Call Change)

variable {l : Layout} {cwd : Place} {w w' : World} {s s' : Store} {k : Key} {i : Bool}
  {r r₀ : FlagRegistry} {v : Weather} {o : Except Failure Unit}

theorem saves_ends (hk : Kept l cwd s w) (c : Call) :
    c.action.Ends v (fun o s' w' =>
      (c.Saves s s' o → Recorded l cwd w'.files s'.flags) ∧
        (¬ c.Saves s s' o → l.document cwd w'.files = l.document cwd w.files)) s w := by
  obtain ⟨l', i, r⟩ := s
  obtain rfl : l' = l := hk.layout
  have hfailed : ∀ {s' : Store} {w' : World} {e : Failure},
      l'.document cwd w'.files = l'.document cwd w.files →
      (c.Saves ⟨l', i, r⟩ s' (.error e) → Recorded l' cwd w'.files s'.flags) ∧
        (¬ c.Saves ⟨l', i, r⟩ s' (.error e) →
          l'.document cwd w'.files = l'.document cwd w.files) :=
    fun hd => ⟨nofun, fun _ => hd⟩
  cases c with
  | change c =>
    apply Action.ends_mono (change_ends hk.footing c)
    rintro (e | ⟨⟩) s w' ⟨r', rfl, -, f, changed, hc, -⟩
    · exact hfailed hc.1.document
    · obtain ⟨rfl, -, ⟨hhas, hd⟩ | ⟨hnew, hd⟩⟩ := hc
      · have hsame : r.raised c.key f = r := by rw [FlagRegistry.raised, if_pos hhas]
        refine ⟨?_, fun _ => hd⟩
        rintro ⟨-, hc | hc⟩
        · exact absurd hc id
        · exact absurd hsame hc
      · exact ⟨fun _ => .inl hd, fun h => absurd ⟨rfl, .inr (FlagRegistry.raised_ne hnew)⟩ h⟩
  | clearHistory =>
    apply Action.ends_mono (clearHistory_ends hk.footing)
    rintro (e | ⟨⟩) s w' ⟨r', rfl, -, hc, -⟩
    · exact hfailed hc.2.1
    · obtain ⟨rfl, -, -, -, hd⟩ := hc
      exact ⟨fun _ => .inl hd, fun h => absurd ⟨rfl, .inl trivial⟩ h⟩
  | rollback =>
    apply Action.ends_mono (rollback_ends hk.footing hk.ordered)
    rintro (e | ⟨⟩) s w' ⟨r', rfl, -, hends⟩
    · exact hfailed hends.document
    · obtain rfl := hends.flags
      exact ⟨fun _ => .inl hends.document, fun h => absurd ⟨rfl, .inl trivial⟩ h⟩

theorem recorded_of_logged (hu : FileName.Storable l.extension.toList)
    (h : Store.Logged l cwd r s w) : r.Ordered ∧ Recorded l cwd w.files r := by
  have hopened : ∀ {w w' : World} {s : Store} {r₀ : FlagRegistry} {i : Bool}
      {refuse : Nat → Option IoError} {n : Nat}, Kept l cwd s w → r₀.Ordered →
      Recorded l cwd w.files r₀ → ∀ {o : Except Failure Store},
      (Store.openAt l i).run.runRefusing refuse n w = (o, w') →
      Recorded l cwd w'.files r₀ ∧ ∀ s', o = .ok s' → s'.flags = r₀ := by
    intro w w' s r₀ i refuse n hk ho hr o hrun
    have hends := Script.runRefusing_of_ends (openAt_ends (i := i) hk.footing hr ho) rough_any
      (refuse_any refuse) n
    rw [hrun] at hends
    obtain ⟨-, -, hd, hok, -⟩ := hends
    exact ⟨hr.congr hd.document, fun s' hs => by rw [hok s' hs]⟩
  induction h with
  | @opened i refuse n w w' s hw hv hrun =>
    have hends := Script.runRefusing_of_ends (Kept.of_vacant (i := i) hw hv hu) rough_any
      (refuse_any refuse) n
    rw [hrun] at hends
    obtain ⟨hk, hflags, hr, -⟩ := hends s rfl
    exact ⟨hk.ordered, hflags ▸ hr⟩
  | @saved r s s' w w' h c refuse n o hrun hc ih =>
    have hk := kept_of_reachable hu h.reachable
    have hends := Script.runRefusing_of_ends (saves_ends hk c) rough_any (refuse_any refuse) n
    rw [hrun] at hends
    exact ⟨(kept_of_reachable hu (.called h.reachable c hrun)).ordered, hends.1 hc⟩
  | @unsaved r s s' w w' h c refuse n o hrun hc ih =>
    have hk := kept_of_reachable hu h.reachable
    have hends := Script.runRefusing_of_ends (saves_ends hk c) rough_any (refuse_any refuse) n
    rw [hrun] at hends
    exact ⟨ih.1, ih.2.congr (hends.2 hc)⟩
  | @reopened r s s' w w' h i refuse n hrun ih =>
    obtain ⟨hr, hflags⟩ := hopened (kept_of_reachable hu h.reachable) ih.1 ih.2 hrun
    rw [hflags s' rfl]
    exact ⟨ih.1, hr⟩
  | @unopened r s w w' h i refuse n e hrun ih =>
    exact ⟨ih.1, (hopened (kept_of_reachable hu h.reachable) ih.1 ih.2 hrun).1⟩

/-- The flags of a store last when they are those that were saved last. -/
theorem lasting_of_logged (hu : FileName.Storable l.extension.toList)
    (h : Store.Logged l cwd r s w) : s.Lasting w ↔ s.flags = r := by
  obtain ⟨ho, hr⟩ := recorded_of_logged hu h
  have hk := kept_of_reachable hu h.reachable
  obtain ⟨l', i, r'⟩ := s
  obtain rfl : l' = l := hk.layout
  constructor
  · intro hlasting
    obtain ⟨s', w₁, hrun, hflags⟩ := hlasting i
    obtain ⟨w₂, hopen⟩ := openAt_run hk.footing hr ho i
    rw [hopen] at hrun
    cases hrun
    exact (hk.ordered.ext ho hflags).symm
  · rintro rfl i'
    obtain ⟨w₁, hopen⟩ := openAt_run hk.footing hr ho i'
    exact ⟨_, w₁, hopen, fun _ => rfl⟩

/-- After a call that has succeeded the flags last, unless it has found them as they are and they were
not those that were saved last. -/
theorem lasting_after_success {refuse : Nat → Option IoError} {n : Nat}
    (hu : FileName.Storable l.extension.toList) (h : Store.Logged l cwd r s w) (c : Call)
    (hrun : (c.action.on s).runRefusing refuse n w = ((.ok (), s'), w')) :
    s'.Lasting w' ↔ c.Renews ∨ s'.flags ≠ s.flags ∨ s.flags = r := by
  by_cases hc : c.Renews ∨ s'.flags ≠ s.flags
  · have hlasting := (lasting_of_logged hu (.saved h c hrun ⟨rfl, hc⟩)).mpr rfl
    exact iff_of_true hlasting (or_assoc.mp (.inl hc))
  · rw [lasting_of_logged hu (.unsaved h c hrun fun hs => hc hs.2), ← or_assoc]
    obtain ⟨-, hsame⟩ := not_or.mp hc
    rw [not_not.mp hsame]
    exact ⟨.inr, fun h => h.resolve_left (by simpa [not_not.mp hsame] using hc)⟩

set_option maxRecDepth 100000 in
/-- A flag that could not be saved at first is raised again with success, and does not last. -/
theorem lasting_after_success_of_retry : ∃ s₁ w₁ s₂ w₂ e,
    ((Change.flag (.code "a") .modification).action.on smallStore).runRefusing
        (fun n => if n = 1 then some .busy else none) 0 openedWorld = ((.error e, s₁), w₁) ∧
      ((Change.flag (.code "a") .modification).action.on s₁).runRefusing (fun _ => none) 0 w₁ =
        ((.ok (), s₂), w₂) ∧ ¬ s₂.Lasting w₂ := by
  let flag : Call := .change (.flag (.code "a") .modification)
  let flagged : Store := ⟨smallLayout, true, FlagRegistry.empty.insert (.code "a") .modification⟩
  have hstop : ((flag.action.on smallStore).runRefusing
      (fun n => if n = 1 then some .busy else none) 0 openedWorld).1 =
      (.error (.file (.createParent "/s/meta") .busy), flagged) := by decide +kernel
  have hretry : ((flag.action.on flagged).runRefusing (fun _ => none) 0
      ((flag.action.on smallStore).runRefusing
        (fun n => if n = 1 then some .busy else none) 0 openedWorld).2).1 =
      (.ok (), flagged) := by decide +kernel
  generalize hp : (flag.action.on smallStore).runRefusing
    (fun n => if n = 1 then some .busy else none) 0 openedWorld = p at hstop hretry
  obtain ⟨_, w₁⟩ := p
  cases hstop
  generalize hq : (flag.action.on flagged).runRefusing (fun _ => none) 0 w₁ = q at hretry
  obtain ⟨_, w₂⟩ := q
  cases hretry
  have hlogged : Store.Logged smallLayout [] .empty flagged w₁ := .unsaved
    (.opened (by decide) (vacant_emptyWorld rfl) opened_smallStore) flag hp (by rintro ⟨h, -⟩; cases h)
  have hiff := lasting_after_success usable_smallLayout.storable hlogged flag hq
  refine ⟨flagged, w₁, flagged, w₂, _, hp, hq, fun h => ?_⟩
  rcases hiff.mp h with h | h | h
  · exact h
  · exact h rfl
  · exact absurd h (by decide)

end Layout

end SourceDelta
