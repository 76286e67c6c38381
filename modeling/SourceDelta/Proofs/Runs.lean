import SourceDelta.Proofs.Opening
import SourceDelta.Proofs.Rollback

/-!
# Runs of a store

A store is reached by opening it on an empty root and by calls, any of whose
requests may have been refused. It is clean when a generation starts with it. A
generation is a run of changes and of openings, nothing of which is refused; what
the store remembers of its start is the same in every state of the run.
-/

set_option autoImplicit false

namespace SourceDelta

namespace Store

inductive Change
  | write (k : Key) (value : Option Json)
  | writeBytes (k : Key) (bytes : Bytes)
  | delete (k : Key)
  | flag (k : Key) (f : Flag)

namespace Change

def action : Change → Action Unit
  | write k value => Store.write k value
  | writeBytes k bytes => Store.writeBytes k bytes
  | delete k => Store.delete k
  | flag k f => Store.flag k f

def key : Change → Key
  | write k _ | writeBytes k _ | delete k | flag k _ => k

/-- Nobody but a write calls an artifact new. -/
def Plain : Change → Prop
  | flag _ f => f ≠ .addition
  | _ => True

end Change

inductive Call
  | change (c : Change)
  | clearHistory
  | rollback

def Call.action : Call → Action Unit
  | change c => c.action
  | clearHistory => Store.clearHistory
  | rollback => Store.rollback

/-- Makes calls one after the other, as long as there is room for them and they succeed, and notes
each of them. -/
def makeCalls {σ : Type} (note : σ → Store → World → Call → Option σ) :
    List Call → σ → Store → World → Option (σ × Store × World)
  | [], a, s, w => some (a, s, w)
  | c :: cs, a, s, w =>
    match (c.action.on s).runRoomy w with
    | some ((.ok (), s'), w') => (note a s w c).bind fun a' => makeCalls note cs a' s' w'
    | _ => none

theorem makeCalls_induction {σ : Type} {note : σ → Store → World → Call → Option σ}
    {P : σ → Store → World → Prop}
    (hstep : ∀ {a a' s s' w w'} c, P a s w → note a s w c = some a' →
      (c.action.on s).roomy w = true → (c.action.on s).run w = ((.ok (), s'), w') → P a' s' w')
    {cs : List Call} {a a' : σ} {s s' : Store} {w w' : World} (h : P a s w)
    (hcs : makeCalls note cs a s w = some (a', s', w')) : P a' s' w' := by
  induction cs generalizing a s w with
  | nil =>
    cases hcs
    exact h
  | cons c cs ih =>
    rw [makeCalls] at hcs
    split at hcs
    next s₁ w₁ hrun =>
      obtain ⟨hroom, hrun⟩ := Script.runRoomy_eq_some.mp hrun
      obtain ⟨a₁, hnote, hcs⟩ := Option.bind_eq_some_iff.mp hcs
      exact ih (hstep c h hnote hroom hrun) hcs
    next => cases hcs

/-- The stores that there can be, whatever was refused. -/
inductive Reachable (l : Layout) (cwd : Place) : Store → World → Prop
  | opened {i : Bool} {refuse : Nat → Option IoError} {n : Nat} {w w' : World} {s : Store}
      (hw : w.place = cwd) (hv : l.Vacant cwd w.files)
      (hrun : (openAt l i).run.runRefusing refuse n w = (.ok s, w')) : Reachable l cwd s w'
  | called {s s' : Store} {w w' : World} (h : Reachable l cwd s w) (c : Call)
      {refuse : Nat → Option IoError} {n : Nat} {o : Except Failure Unit}
      (hrun : (c.action.on s).runRefusing refuse n w = ((o, s'), w')) : Reachable l cwd s' w'
  | reopened {s s' : Store} {w w' : World} (h : Reachable l cwd s w) {i : Bool}
      {refuse : Nat → Option IoError} {n : Nat}
      (hrun : (openAt l i).run.runRefusing refuse n w = (.ok s', w')) : Reachable l cwd s' w'
  | unopened {s : Store} {w w' : World} (h : Reachable l cwd s w) {i : Bool}
      {refuse : Nat → Option IoError} {n : Nat} {e : Failure}
      (hrun : (openAt l i).run.runRefusing refuse n w = (.error e, w')) : Reachable l cwd s w'

/-- A generation starts with the store: it has been opened on an empty root, or its history has been
cleared, or it has been rolled back. -/
inductive Clean (l : Layout) (cwd : Place) : Store → World → Prop
  | opened {i : Bool} {refuse : Nat → Option IoError} {n : Nat} {w w' : World} {s : Store}
      (hw : w.place = cwd) (hv : l.Vacant cwd w.files)
      (hrun : (openAt l i).run.runRefusing refuse n w = (.ok s, w')) : Clean l cwd s w'
  | cleared {s s' : Store} {w w' : World} (h : Reachable l cwd s w)
      {refuse : Nat → Option IoError} {n : Nat}
      (hrun : (clearHistory.on s).runRefusing refuse n w = ((.ok (), s'), w')) : Clean l cwd s' w'
  | rolledBack {s s' : Store} {w w' : World} (h : Reachable l cwd s w)
      {refuse : Nat → Option IoError} {n : Nat}
      (hrun : (rollback.on s).runRefusing refuse n w = ((.ok (), s'), w')) : Clean l cwd s' w'

/-- The changes of a generation: nothing is refused and there is room for every file. A change may
have failed for another reason, as the deletion of a missing value does. -/
inductive Run (l : Layout) (s₀ : Store) (w₀ : World) : Store → World → Prop
  | start : Run l s₀ w₀ s₀ w₀
  | change {s s' : Store} {w w' : World} (h : Run l s₀ w₀ s w) (c : Change) (hc : c.Plain)
      {o : Except Failure Unit} (hroom : (c.action.on s).roomy w = true)
      (hrun : (c.action.on s).run w = ((o, s'), w')) : Run l s₀ w₀ s' w'
  | reopen {s s' : Store} {w w' : World} (h : Run l s₀ w₀ s w) {i : Bool}
      (hroom : (openAt l i).run.roomy w = true)
      (hrun : (openAt l i).run.run w = (.ok s', w')) : Run l s₀ w₀ s' w'

theorem Run.next {l : Layout} {s₀ s : Store} {w₀ w : World} (h : Run l s₀ w₀ s w) (c : Change)
    (hc : c.Plain) (hroom : (c.action.on s).roomy w = true) :
    Run l s₀ w₀ ((c.action.on s).run w).1.2 ((c.action.on s).run w).2 :=
  .change h c hc hroom rfl

end Store

namespace Layout
open SourceDelta.Store (Action Change Call)

variable {l : Layout} {cwd : Place} {fs fs' : FileSystem} {w w' : World} {s s' : Store} {k : Key}
  {v : Weather} {i : Bool} {r : FlagRegistry} {f : Flag} {o : Except Failure Unit}

/-- The files are sound, and the flags in memory and those of the document are registries; while
something may have been refused they need not be the same. -/
structure Kept (l : Layout) (cwd : Place) (s : Store) (w : World) : Prop where
  layout : s.layout = l
  footing : Footing l cwd w
  ordered : s.flags.Ordered
  recorded : ∃ r, r.Ordered ∧ Recorded l cwd w.files r

theorem Recorded.congr (h : Recorded l cwd fs r)
    (hd : l.document cwd fs' = l.document cwd fs) : Recorded l cwd fs' r := by
  rw [Recorded, hd]
  exact h

theorem Changed.recorded {changed : Holdings} {r' : FlagRegistry}
    (hc : Changed v l cwd r k f changed fs fs' r' (.ok ())) (hr : Recorded l cwd fs r) :
    Recorded l cwd fs' r' := by
  obtain ⟨rfl, -, ⟨hhas, hd⟩ | ⟨-, hd⟩⟩ := hc
  · rw [FlagRegistry.raised, if_pos hhas]
    exact hr.congr hd
  · exact .inl hd

theorem Changed.undone {changed : Holdings} {r' : FlagRegistry} {e : Failure}
    (hc : Changed .calm l cwd r k f changed fs fs' r' (.error e)) :
    r' = r ∧ l.held cwd fs' = l.held cwd fs ∧ RecordsStay l cwd fs fs' := by
  obtain ⟨hd, hfailed⟩ := hc
  have hcalm : ¬ Weather.calm.Rough := Weather.not_rough_calm
  cases hfailed with
  | untouched _ _ _ hheld => exact ⟨rfl, hheld, hd⟩
  | displacing _ hr => exact absurd hr hcalm
  | committing _ hr => exact absurd hr hcalm
  | saving _ hr => exact absurd hr hcalm

def Tells (v : Weather) (l : Layout) (cwd : Place) (c : Change) (r : FlagRegistry)
    (fs fs' : FileSystem) (r' : FlagRegistry) (o : Except Failure Unit) : Prop :=
  ∃ f changed, Changed v l cwd r c.key f changed fs fs' r' o ∧
    (o = .ok () ∨ r' ≠ r → c.Plain → Tracked (l.held cwd fs) r →
      Tracked changed (r.raised c.key f) ∧
        (∀ j, changed.start (r.raised c.key f) j = (l.held cwd fs).start r j) ∧
        (f = .addition → changed .current c.key ≠ none))

theorem writeBytes_tells (hf : Footing l cwd w) (c : Change) (bytes : Bytes) :
    (Store.writeBytes c.key bytes).Ends v (fun o s w' => ∃ r', s = ⟨l, i, r'⟩ ∧
      Footing l cwd w' ∧ Tells v l cwd c r w.files w'.files r' o) ⟨l, i, r⟩ w := by
  apply Action.ends_mono (writeBytes_ends hf c.key bytes)
  rintro o s w' ⟨r', hs, hf', hc, -⟩
  refine ⟨r', hs, hf', _, _, hc, fun _ _ ht => ?_⟩
  obtain ⟨ht', hstart⟩ := ht.written (k := c.key) bytes
  refine ⟨ht', hstart, fun _ => ?_⟩
  rw [Holdings.written, Holdings.set_self]
  simp

theorem change_ends (hf : Footing l cwd w) (c : Change) :
    c.action.Ends v (fun o s w' => ∃ r', s = ⟨l, i, r'⟩ ∧ Footing l cwd w' ∧
      Tells v l cwd c r w.files w'.files r' o) ⟨l, i, r⟩ w := by
  cases c with
  | write k value =>
    cases value with
    | none =>
      exact write_none_ends k ⟨r, rfl, hf, .addition, l.held cwd w.files, ⟨.refl _, .untouched _
        (.inr (.inr (.inr rfl))) (fun _ => harmless_of_none rfl (by simp) (by simp)) rfl⟩, by simp⟩
    | some value => exact write_some_ends k (writeBytes_tells hf (.write k (some value)) _)
  | writeBytes k bytes => exact writeBytes_tells hf (.writeBytes k bytes) bytes
  | delete k =>
    apply Action.ends_mono (delete_ends hf k)
    rintro o s w' ⟨r', hs, hf', hsome, hc, -⟩
    refine ⟨r', hs, hf', _, _, hc, fun ho _ ht => ?_⟩
    obtain ⟨ht', hstart⟩ := ht.displaced (hsome ho)
    have hsame : ∀ j, (r.raised k .deletion).has j .addition = r.has j .addition :=
      fun j => FlagRegistry.has_raised_of_ne (by decide)
    obtain ⟨ht'', hstart'⟩ := ht'.flagged hsame
    exact ⟨ht'', fun j => (hstart' j).trans (hstart j), fun h => by cases h⟩
  | flag k f =>
    apply Action.ends_mono (flag_ends hf k f)
    rintro o s w' ⟨r', hs, hf', hc, -⟩
    refine ⟨r', hs, hf', _, _, hc, fun _ hplain ht => ?_⟩
    have hsame : ∀ j, (r.raised k f).has j .addition = r.has j .addition :=
      fun j => FlagRegistry.has_raised_of_ne (Ne.symm hplain)
    obtain ⟨ht', hstart⟩ := ht.flagged hsame
    exact ⟨ht', hstart, fun h => absurd h hplain⟩

theorem Kept.of_changed {changed : Holdings} {r' : FlagRegistry}
    (hk : Kept l cwd ⟨l, i, r⟩ w) (hf : Footing l cwd w')
    (hc : Changed v l cwd r k f changed w.files w'.files r' o) : Kept l cwd ⟨l, i, r'⟩ w' := by
  obtain ⟨r₀, ho₀, hr₀⟩ := hk.recorded
  cases o with
  | ok _ =>
    obtain ⟨rfl, -, hd⟩ := hc
    refine ⟨rfl, hf, hk.ordered.raised, ?_⟩
    rcases hd with ⟨-, hd⟩ | ⟨-, hd⟩
    · exact ⟨r₀, ho₀, hr₀.congr hd⟩
    · exact ⟨_, hk.ordered.raised, .inl hd⟩
  | error e =>
    obtain ⟨hd, hc⟩ := hc
    refine ⟨rfl, hf, ?_, r₀, ho₀, hr₀.congr hd.document⟩
    cases hc with
    | untouched => exact hk.ordered
    | displacing => exact hk.ordered
    | committing => exact hk.ordered
    | saving => exact hk.ordered.raised

theorem Kept.call (hk : Kept l cwd s w) (c : Call) :
    c.action.Ends v (fun _ s' w' => Kept l cwd s' w') s w := by
  obtain ⟨l', i, r⟩ := s
  obtain rfl : l' = l := hk.layout
  obtain ⟨r₀, ho₀, hr₀⟩ := hk.recorded
  have hempty : ∀ {w' : World}, l'.document cwd w'.files =
      some (Utf8.encode FlagRegistry.empty.toJson.indented) →
      ∃ r, r.Ordered ∧ Recorded l' cwd w'.files r :=
    fun hd => ⟨.empty, FlagRegistry.ordered_empty, .inl hd⟩
  cases c with
  | change c =>
    apply Action.ends_mono (change_ends hk.footing c)
    rintro o s w' ⟨r', rfl, hf', f, changed, hc, -⟩
    exact hk.of_changed hf' hc
  | clearHistory =>
    apply Action.ends_mono (clearHistory_ends hk.footing)
    rintro (e | ⟨⟩) s w' ⟨r', rfl, hf', hc, -⟩
    · obtain ⟨-, hd, hc⟩ := hc
      refine ⟨rfl, hf', ?_, r₀, ho₀, hr₀.congr hd⟩
      rcases hc with ⟨rfl, -⟩ | ⟨rfl | rfl, -⟩
      · exact hk.ordered
      · exact hk.ordered
      · exact FlagRegistry.ordered_empty
    · obtain ⟨rfl, -, -, -, hd⟩ := hc
      exact ⟨rfl, hf', FlagRegistry.ordered_empty, hempty hd⟩
  | rollback =>
    apply Action.ends_mono (rollback_ends hk.footing hk.ordered)
    rintro (e | ⟨⟩) s w' ⟨r', rfl, hf', hends⟩
    · refine ⟨rfl, hf', ?_, r₀, ho₀, hr₀.congr hends.document⟩
      rcases hends.flags with rfl | rfl
      · exact hk.ordered
      · exact FlagRegistry.ordered_empty
    · obtain rfl := hends.flags
      exact ⟨rfl, hf', FlagRegistry.ordered_empty, hempty hends.document⟩

theorem rough_any : Weather.any.Rough := ⟨.busy, trivial⟩

theorem refuse_any (refuse : Nat → Option IoError) (n : Nat) (e : IoError)
    (_ : refuse n = some e) : Weather.any e := trivial

theorem Kept.of_vacant (hw : w.place = cwd) (hv : l.Vacant cwd w.files)
    (hu : FileName.Storable l.extension.toList) :
    (Store.openAt l i).Ends v (fun o w' => ∀ s, o = .ok s → Kept l cwd s w' ∧
      s.flags = .empty ∧ Recorded l cwd w'.files .empty ∧
      ∀ a, Emptied l cwd a w'.files) w := by
  apply Task.ends_mono (openAt_vacant_ends hw hv hu)
  intro o w' h s hs
  obtain ⟨rfl, hf', he, hd, -⟩ := h s hs
  have hr : Recorded l cwd w'.files .empty := .inr ⟨hd, rfl⟩
  exact ⟨⟨rfl, hf', FlagRegistry.ordered_empty, _, FlagRegistry.ordered_empty, hr⟩, rfl, hr, he⟩

theorem Kept.reopen (hk : Kept l cwd s w) :
    (Store.openAt l i).Ends v (fun o w' => Kept l cwd s w' ∧
      ∀ s', o = .ok s' → Kept l cwd s' w') w := by
  obtain ⟨r₀, ho₀, hr₀⟩ := hk.recorded
  apply Task.ends_mono (openAt_ends hk.footing hr₀ ho₀)
  rintro o w' ⟨hf', -, hd, ho, -⟩
  have hr' := hr₀.congr hd.document
  refine ⟨⟨hk.layout, hf', hk.ordered, r₀, ho₀, hr'⟩, fun s' hs => ?_⟩
  obtain rfl := ho s' hs
  exact ⟨rfl, hf', ho₀, r₀, ho₀, hr'⟩

theorem kept_of_reachable (hu : FileName.Storable l.extension.toList)
    (h : Store.Reachable l cwd s w) : Kept l cwd s w := by
  induction h with
  | @opened i refuse n w w' s hw hv hrun =>
    have hends := Script.runRefusing_of_ends (Kept.of_vacant (i := i) hw hv hu) rough_any
      (refuse_any refuse) n
    rw [hrun] at hends
    exact (hends s rfl).1
  | @called s s' w w' _ c refuse n o hrun ih =>
    have hends := Script.runRefusing_of_ends (ih.call c) rough_any (refuse_any refuse) n
    rw [hrun] at hends
    exact hends
  | @reopened s s' w w' _ i refuse n hrun ih =>
    have hends := Script.runRefusing_of_ends (ih.reopen (i := i)) rough_any (refuse_any refuse) n
    rw [hrun] at hends
    exact hends.2 s' rfl
  | @unopened s w w' _ i refuse n e hrun ih =>
    have hends := Script.runRefusing_of_ends (ih.reopen (i := i)) rough_any (refuse_any refuse) n
    rw [hrun] at hends
    exact hends.1

/-- A generation has started: the current values are the only ones, and there are no flags. -/
structure Fresh (l : Layout) (cwd : Place) (s : Store) (w : World) : Prop where
  kept : Kept l cwd s w
  flags : s.flags = .empty
  recorded : Recorded l cwd w.files .empty
  previous : Emptied l cwd .previous w.files
  baseline : Emptied l cwd .baseline w.files

theorem fresh_of_clean (hu : FileName.Storable l.extension.toList) (h : Store.Clean l cwd s w) :
    Fresh l cwd s w := by
  cases h with
  | @opened i refuse n w _ _ hw hv hrun =>
    have hends := Script.runRefusing_of_ends (Kept.of_vacant (i := i) hw hv hu) rough_any
      (refuse_any refuse) n
    rw [hrun] at hends
    obtain ⟨hk, hflags, hr, he⟩ := hends s rfl
    exact ⟨hk, hflags, hr, he _, he _⟩
  | @cleared s₀ _ w₀ _ hreach refuse n hrun =>
    have hk := kept_of_reachable hu hreach
    obtain ⟨l', i, r⟩ := s₀
    obtain rfl : l' = l := hk.layout
    have hends := Script.runRefusing_of_ends (clearHistory_ends (i := i) (r := r) hk.footing)
      rough_any (refuse_any refuse) n
    have hkept := Script.runRefusing_of_ends (hk.call .clearHistory) rough_any (refuse_any refuse) n
    rw [show Store.Action.on (Call.clearHistory.action) _ = Store.clearHistory.on _ from rfl, hrun]
      at hkept
    rw [hrun] at hends
    obtain ⟨r', rfl, -, ⟨rfl, -, he, he', hd⟩, -⟩ := hends
    exact ⟨hkept, rfl, .inl hd, he, he'⟩
  | @rolledBack s₀ _ w₀ _ hreach refuse n hrun =>
    have hk := kept_of_reachable hu hreach
    obtain ⟨l', i, r⟩ := s₀
    obtain rfl : l' = l := hk.layout
    have hends := Script.runRefusing_of_ends
      (rollback_ends (i := i) (r := r) hk.footing hk.ordered) rough_any (refuse_any refuse) n
    have hkept := Script.runRefusing_of_ends (hk.call .rollback) rough_any (refuse_any refuse) n
    rw [show Store.Action.on (Call.rollback.action) _ = Store.rollback.on _ from rfl, hrun]
      at hkept
    rw [hrun] at hends
    obtain ⟨r', rfl, -, hdone⟩ := hends
    obtain rfl := hdone.flags
    exact ⟨hkept, rfl, .inl hdone.document, hdone.previous, hdone.baseline⟩

structure Underway (l : Layout) (cwd : Place) (start : Key → Option Bytes) (s : Store)
    (w : World) : Prop where
  layout : s.layout = l
  footing : Footing l cwd w
  ordered : s.flags.Ordered
  recorded : Recorded l cwd w.files s.flags
  tracked : Tracked (l.held cwd w.files) s.flags
  start : ∀ k, (l.held cwd w.files).start s.flags k = start k
  /-- An artifact is new because it has been written. -/
  written : ∀ k, s.flags.has k .addition = true → Holdable l .current k

theorem Fresh.underway (h : Fresh l cwd s w) :
    Underway l cwd (l.held cwd w.files .current) s w := by
  obtain ⟨ht, hstart⟩ := Tracked.empty (v := l.held cwd w.files) h.previous.held h.baseline.held
  refine ⟨h.kept.layout, h.kept.footing, h.kept.ordered, ?_, ?_, ?_, ?_⟩
  · rw [h.flags]
    exact h.recorded
  · rw [h.flags]
    exact ht
  · rw [h.flags]
    exact hstart
  · intro k hk
    rw [h.flags, FlagRegistry.has_empty] at hk
    cases hk

theorem Underway.done {start : Key → Option Bytes} {c : Change} {r' : FlagRegistry}
    (h : Underway l cwd start ⟨l, i, r⟩ w) (hc : c.Plain) (hf' : Footing l cwd w')
    (ht : Tells v l cwd c r w.files w'.files r' (.ok ())) :
    Underway l cwd start ⟨l, i, r'⟩ w' := by
  obtain ⟨f, changed, ho, htracks⟩ := ht
  obtain ⟨ht, hstart, hnew⟩ := htracks (.inl rfl) hc h.tracked
  have hrecorded := ho.recorded h.recorded
  obtain ⟨rfl, hheld, -⟩ := ho
  refine ⟨rfl, hf', h.ordered.raised, hrecorded, ?_, ?_, ?_⟩
  · rw [hheld]
    exact ht
  · intro j
    rw [hheld, hstart]
    exact h.start j
  · intro j hj
    simp only [FlagRegistry.has_raised, Bool.or_eq_true, Bool.and_eq_true, decide_eq_true_eq] at hj
    rcases hj with hj | ⟨rfl, hf⟩
    · exact h.written j hj
    · apply hf'.sound.holdable_of_held
      rw [hheld]
      exact hnew hf.symm

theorem Underway.change {start : Key → Option Bytes} (h : Underway l cwd start s w) (c : Change)
    (hc : c.Plain) :
    c.action.Ends .calm (fun _ s' w' => Underway l cwd start s' w') s w := by
  obtain ⟨l', i, r⟩ := s
  obtain rfl : l' = l := h.layout
  apply Action.ends_mono (change_ends h.footing c)
  rintro (e | ⟨⟩) s w' ⟨r', rfl, hf', ht⟩
  · obtain ⟨f, changed, ho, -⟩ := ht
    obtain ⟨rfl, hheld, hd⟩ := ho.undone
    refine ⟨rfl, hf', h.ordered, h.recorded.congr hd.document, ?_, ?_, h.written⟩
    · rw [hheld]
      exact h.tracked
    · rw [hheld]
      exact h.start
  · exact h.done hc hf' ht

theorem Underway.reopen {start : Key → Option Bytes} (h : Underway l cwd start s w) :
    (Store.openAt l i).Ends v (fun o w' => Underway l cwd start s w' ∧
      ∀ s', o = .ok s' → s' = ⟨l, i, s.flags⟩ ∧ Underway l cwd start s' w') w := by
  apply Task.ends_mono (openAt_ends h.footing h.recorded h.ordered)
  rintro o w' ⟨hf', hheld, hd, ho, -⟩
  have h' : ∀ s', s'.layout = l → s'.flags = s.flags → Underway l cwd start s' w' := by
    intro s' hl hflags
    refine ⟨hl, hf', ?_, ?_, ?_, ?_, ?_⟩
    · rw [hflags]
      exact h.ordered
    · rw [hflags]
      exact h.recorded.congr hd.document
    · rw [hflags, hheld]
      exact h.tracked
    · rw [hflags, hheld]
      exact h.start
    · rw [hflags]
      exact h.written
  refine ⟨h' s h.layout rfl, fun s' hs => ?_⟩
  obtain rfl := ho s' hs
  exact ⟨rfl, h' _ rfl rfl⟩

/-- In every state of a generation the store remembers the values from its start. -/
theorem underway_of_run {start : Key → Option Bytes} {s₀ : Store} {w₀ : World}
    (h₀ : Underway l cwd start s₀ w₀) (h : Store.Run l s₀ w₀ s w) : Underway l cwd start s w := by
  induction h with
  | start => exact h₀
  | @change s s' w w' _ c hc o hroom hrun ih =>
    have hends := Script.run_of_roomy (ih.change c hc) hroom
    rw [hrun] at hends
    exact hends
  | @reopen s s' w w' _ i hroom hrun ih =>
    have hends := Script.run_of_roomy (ih.reopen (v := .calm) (i := i)) hroom
    rw [hrun] at hends
    exact (hends.2 s' rfl).2

def emptyWorld : World := ⟨⟨[(["s"], .directory)], []⟩, "/", [], 1, 0, default, none, []⟩

def smallLayout : Layout := ⟨"/s", "c"⟩

def smallStore : Store := ⟨smallLayout, true, .empty⟩

theorem vacant_emptyWorld (hl : l.root = "/s") : Vacant l [] emptyWorld.files := by
  have hroot : l.rootPlace [] = ["s"] := by
    rw [rootPlace, hl]
    decide
  refine vacant_of_plain (by rw [hl]; decide) fun p hp => ?_
  have hne := (FileSystem.below_iff.mp hp).2
  rw [hroot] at hne
  rw [FileSystem.node?_of_ne_nil (FileSystem.below_ne_nil hp)]
  simp [emptyWorld, hne]

theorem outcome_eq {α β γ : Type} {p : (α × β) × γ} {a : α} (h : p.1.1 = a) :
    p = ((a, p.1.2), p.2) := by
  rw [← h]

theorem usable_smallLayout : FileName.Usable smallLayout.extension.toList := by
  refine ⟨by decide, by decide, by decide, fun front h => ?_⟩
  have := congrArg List.length h
  simp [smallLayout] at this

def openedWorld : World :=
  ((Store.openAt smallLayout true).run.runRefusing (fun _ => none) 0 emptyWorld).2

set_option maxRecDepth 100000 in
theorem opened_smallStore : (Store.openAt smallLayout true).run.runRefusing (fun _ => none) 0
    emptyWorld = (.ok smallStore, openedWorld) := by
  have hopen : ((Store.openAt smallLayout true).run.runRefusing (fun _ => none) 0 emptyWorld).1 =
      .ok smallStore := by decide +kernel
  exact Prod.ext hopen (by rw [openedWorld])

theorem reachable_smallStore : Store.Reachable smallLayout [] smallStore openedWorld :=
  .opened (by decide) (vacant_emptyWorld rfl) opened_smallStore

theorem clean_smallStore : Store.Clean smallLayout [] smallStore openedWorld :=
  .opened (by decide) (vacant_emptyWorld rfl) opened_smallStore

end Layout

end SourceDelta
