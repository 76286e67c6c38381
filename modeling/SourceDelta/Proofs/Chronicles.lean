import SourceDelta.Proofs.Runs

/-!
# What a generation has done

A chronicle lists the changes of a generation that have succeeded, the latest one
first. What an artifact holds, what was moved out of its way last, and which flags
its changes raise is read off the chronicle and the values from the start; none of
it asks for files. The files and flags of a store agree with the chronicle after
every change and every opening.
-/

set_option autoImplicit false

namespace SourceDelta

namespace Store

inductive Event
  | wrote (k : Key) (bytes : Bytes)
  | deleted (k : Key)
  | flagged (k : Key) (f : Flag)
  deriving DecidableEq

/-- What a change does when it succeeds; a value that cannot be put into JSON is never stored. -/
def Change.event? (s : Store) : Change → Option Event
  | write k value => value.map fun j => .wrote k (s.encode j.canonical)
  | writeBytes k bytes => some (.wrote k bytes)
  | delete k => some (.deleted k)
  | flag k f => some (.flagged k f)

abbrev Chronicle := List Event

namespace Chronicle

variable {start : Key → Option Bytes} {es : Chronicle} {j k : Key} {b : Bytes} {f : Flag}

/-- The bytes of the latest write, if no deletion has come after it, and the value from the start of
an artifact that was neither written nor deleted. -/
def value (start : Key → Option Bytes) : Chronicle → Key → Option Bytes
  | [], k => start k
  | .wrote j b :: es, k => if j = k then some b else value start es k
  | .deleted j :: es, k => if j = k then none else value start es k
  | .flagged _ _ :: es, k => value start es k

/-- The value that the latest write over a value, or the latest deletion, has moved out. -/
def displaced (start : Key → Option Bytes) : Chronicle → Key → Option Bytes
  | [], _ => none
  | .wrote j _ :: es, k | .deleted j :: es, k =>
    if j = k then (value start es k).or (displaced start es k) else displaced start es k
  | .flagged _ _ :: es, k => displaced start es k

/-- The value before the latest change, which is the one from the start while nothing was moved
out. -/
def previous (start : Key → Option Bytes) (es : Chronicle) (k : Key) : Option Bytes :=
  (displaced start es k).or (start k)

def writes : Chronicle → Key → Nat
  | [], _ => 0
  | .wrote j _ :: es, k => writes es k + if j = k then 1 else 0
  | .deleted _ :: es, k | .flagged _ _ :: es, k => writes es k

/-- The flags that the changes of an artifact raise. -/
def Raises (start : Key → Option Bytes) (es : Chronicle) (k : Key) : Flag → Prop
  | .addition => start k = none ∧ 0 < writes es k
  | .modification => start k ≠ none ∧ 0 < writes es k ∨ start k = none ∧ 1 < writes es k
  | .deletion => .deleted k ∈ es
  | .extractionChange | .auxiliaryChange => False

/-- An artifact has nothing in store when it had nothing at the start and was never written. -/
theorem vacant_iff : value start es k = none ∧ displaced start es k = none ↔
    start k = none ∧ writes es k = 0 := by
  induction es with
  | nil => simp [value, displaced, writes]
  | cons e es ih =>
    cases e with
    | flagged => exact ih
    | wrote j b =>
      by_cases hj : j = k
      · simp [value, writes, hj]
      · simpa [value, displaced, writes, hj] using ih
    | deleted j =>
      by_cases hj : j = k
      · simp only [value, displaced, writes, hj, if_true, true_and, Option.or_eq_none_iff]
        exact ih
      · simpa [value, displaced, writes, hj] using ih

theorem of_displaced_none (h : displaced start es k = none) :
    start k = none ∧ 0 < writes es k ∨ writes es k = 0 ∧ value start es k = start k := by
  induction es with
  | nil => exact .inr ⟨rfl, rfl⟩
  | cons e es ih =>
    cases e with
    | flagged => exact ih h
    | wrote j b =>
      by_cases hj : j = k
      · simp only [displaced, hj, if_true, Option.or_eq_none_iff] at h
        simp only [writes, hj, if_true]
        exact .inl ⟨(vacant_iff.mp h).1, Nat.succ_pos _⟩
      · simp only [displaced, hj, if_false] at h
        simpa [value, writes, hj] using ih h
    | deleted j =>
      by_cases hj : j = k
      · simp only [displaced, hj, if_true, Option.or_eq_none_iff] at h
        obtain ⟨hstart, hwrites⟩ := vacant_iff.mp h
        refine .inr ⟨hwrites, ?_⟩
        simp [value, hj, hstart]
      · simp only [displaced, hj, if_false] at h
        simpa [value, writes, hj] using ih h

theorem value_of_untouched (hw : writes es k = 0) (hd : .deleted k ∉ es) :
    value start es k = start k := by
  induction es with
  | nil => rfl
  | cons e es ih =>
    rw [List.mem_cons, not_or] at hd
    cases e with
    | flagged => exact ih hw hd.2
    | wrote j b =>
      by_cases hj : j = k
      · simp [writes, hj] at hw
      · simp only [writes, hj, if_false, Nat.add_zero] at hw
        rw [value, if_neg hj]
        exact ih hw hd.2
    | deleted j =>
      have hj : j ≠ k := fun he => hd.1 (he ▸ rfl)
      rw [value, if_neg hj]
      exact ih hw hd.2

theorem raises_of_value_ne (h : value start es k ≠ start k) : ∃ f, Raises start es k f := by
  by_cases hd : .deleted k ∈ es
  · exact ⟨.deletion, hd⟩
  · have hw : 0 < writes es k := Nat.pos_iff_ne_zero.mpr fun hw => h (value_of_untouched hw hd)
    by_cases hs : start k = none
    · exact ⟨.addition, hs, hw⟩
    · exact ⟨.modification, .inl ⟨hs, hw⟩⟩

def writeFlag (start : Key → Option Bytes) (es : Chronicle) (k : Key) : Flag :=
  if start k = none ∧ writes es k = 0 then .addition else .modification

theorem raises_wrote : Raises start (.wrote k b :: es) j f ↔
    Raises start es j f ∨ j = k ∧ f = writeFlag start es k := by
  by_cases hj : k = j
  · subst hj
    rcases Nat.eq_zero_or_pos (writes es k) with hw | hw
    · cases f <;> by_cases hs : start k = none <;> simp [Raises, writes, writeFlag, hs, hw]
    · have hne : writes es k ≠ 0 := Nat.pos_iff_ne_zero.mp hw
      cases f <;> by_cases hs : start k = none <;>
        simp [Raises, writes, writeFlag, hs, hw, hne]
  · cases f <;> simp [Raises, writes, hj, Ne.symm hj]

theorem raises_deleted : Raises start (.deleted k :: es) j f ↔
    Raises start es j f ∨ j = k ∧ f = .deletion := by
  cases f <;> simp [Raises, writes, or_comm]

theorem raises_flagged {g : Flag} : Raises start (.flagged k g :: es) j f ↔
    Raises start es j f := by
  cases f <;> simp [Raises, writes]

end Chronicle

/-- The changes of a generation: nothing is refused and there is room for every file. A change that
fails even so, as the deletion of a missing value does, is not in the chronicle. -/
inductive Course (l : Layout) (s₀ : Store) (w₀ : World) : Chronicle → Store → World → Prop
  | start : Course l s₀ w₀ [] s₀ w₀
  | done {es : Chronicle} {s s' : Store} {w w' : World} (h : Course l s₀ w₀ es s w) (c : Change)
      {e : Event} (he : c.event? s = some e) (hroom : (c.action.on s).roomy w = true)
      (hrun : (c.action.on s).run w = ((.ok (), s'), w')) : Course l s₀ w₀ (e :: es) s' w'
  | failed {es : Chronicle} {s s' : Store} {w w' : World} (h : Course l s₀ w₀ es s w) (c : Change)
      {e : Failure} (hroom : (c.action.on s).roomy w = true)
      (hrun : (c.action.on s).run w = ((.error e, s'), w')) : Course l s₀ w₀ es s' w'
  | reopen {es : Chronicle} {s s' : Store} {w w' : World} (h : Course l s₀ w₀ es s w) {i : Bool}
      (hroom : (openAt l i).run.roomy w = true)
      (hrun : (openAt l i).run.run w = (.ok s', w')) : Course l s₀ w₀ es s' w'

def Chronicle.noted (es : Chronicle) (s : Store) (_ : World) : Call → Option Chronicle
  | .change c => (c.event? s).map (· :: es)
  | .clearHistory | .rollback => none

theorem course_of_calls {l : Layout} {s₀ s s' : Store} {w₀ w w' : World} {es es' : Chronicle}
    {cs : List Call} (h : Course l s₀ w₀ es s w)
    (hcs : makeCalls Chronicle.noted cs es s w = some (es', s', w')) :
    Course l s₀ w₀ es' s' w' := by
  refine makeCalls_induction (fun {es es' s s' w w'} c h hnote hroom hrun => ?_) h hcs
  cases c with
  | change c =>
    obtain ⟨e, he, rfl⟩ := Option.map_eq_some_iff.mp hnote
    exact h.done c he hroom hrun
  | clearHistory => cases hnote
  | rollback => cases hnote

end Store

namespace Layout
open SourceDelta.Store (Action Change Event Chronicle Course)
open SourceDelta.Store.Chronicle (value displaced writes Raises)

variable {l : Layout} {cwd : Place} {w w' w₀ : World} {s s' s₀ : Store} {k : Key} {v : Weather}
  {i : Bool} {r : FlagRegistry} {f : Flag} {start : Key → Option Bytes} {es : Chronicle}
  {h : Holdings} {b : Bytes} {added : Bool} {o : Except Failure Unit}

/-- The values and the flags of a store are those that a chronicle tells. -/
structure Told (start : Key → Option Bytes) (es : Chronicle) (h : Holdings) (r : FlagRegistry) :
    Prop where
  current : ∀ k, h .current k = value start es k
  previous : ∀ k, h .previous k = displaced start es k
  flags : ∀ k f, r.has k f = true ↔ .flagged k f ∈ es ∨ Raises start es k f

theorem Told.writeFlag (ht : Told start es h r) (k : Key) :
    h.writeFlag k = Chronicle.writeFlag start es k := by
  have hvacant : value start es k = none ∧ displaced start es k = none ↔
      start k = none ∧ writes es k = 0 := Chronicle.vacant_iff
  rw [Holdings.writeFlag, Chronicle.writeFlag, ht.current, ht.previous]
  by_cases hs : start k = none ∧ writes es k = 0
  · obtain ⟨hc, hp⟩ := hvacant.mpr hs
    rw [if_pos hs, hc, hp]
    rfl
  · rw [if_neg hs, if_pos]
    rw [Bool.or_eq_true, Option.isSome_iff_ne_none, Option.isSome_iff_ne_none, ← not_and_or]
    exact fun hn => hs (hvacant.mp hn)

theorem Told.wrote (ht : Told start es h r) (k : Key) (b : Bytes) (added : Bool) :
    Told start (.wrote k b :: es) (h.written k added b) (r.raised k (h.writeFlag k)) := by
  refine ⟨fun j => ?_, fun j => ?_, fun j f => ?_⟩
  · by_cases hj : j = k
    · subst hj
      simp [value, Holdings.written]
    · rw [Holdings.written_key hj, ht.current, value, if_neg (Ne.symm hj)]
  · by_cases hj : j = k
    · subst hj
      rw [Holdings.written, Holdings.set_area (by decide), displaced, if_pos rfl]
      have hc := ht.current j
      cases hv : value start es j with
      | none =>
        rw [hc, hv, Option.none_or]
        simpa using ht.previous j
      | some x =>
        rw [hc, hv, Option.some_or, Option.isSome_some, if_pos rfl, Holdings.displaced_previous, hc,
          hv]
    · rw [Holdings.written_key hj, ht.previous, displaced, if_neg (Ne.symm hj)]
  · rw [Chronicle.raises_wrote, ht.writeFlag, FlagRegistry.has_raised, Bool.or_eq_true, ht.flags]
    simp [or_assoc]

theorem Told.deleted (ht : Told start es h r) (hc : h .current k ≠ none) (added : Bool) :
    Told start (.deleted k :: es) (h.displaced k added) (r.raised k .deletion) := by
  refine ⟨fun j => ?_, fun j => ?_, fun j f => ?_⟩
  · by_cases hj : j = k
    · subst hj
      simp [value, Holdings.displaced_current]
    · rw [Holdings.displaced_key hj, ht.current, value, if_neg (Ne.symm hj)]
  · by_cases hj : j = k
    · subst hj
      obtain ⟨x, hx⟩ := Option.ne_none_iff_exists'.mp hc
      rw [Holdings.displaced_previous, displaced, if_pos rfl, ← ht.current, hx, Option.some_or]
    · rw [Holdings.displaced_key hj, ht.previous, displaced, if_neg (Ne.symm hj)]
  · rw [Chronicle.raises_deleted, FlagRegistry.has_raised, Bool.or_eq_true, ht.flags]
    simp [or_assoc]

theorem Told.flagged (ht : Told start es h r) (k : Key) (f : Flag) :
    Told start (.flagged k f :: es) h (r.raised k f) := by
  refine ⟨ht.current, ht.previous, fun j g => ?_⟩
  rw [Chronicle.raises_flagged, FlagRegistry.has_raised, Bool.or_eq_true, ht.flags, List.mem_cons]
  simp only [Event.flagged.injEq, Bool.and_eq_true, decide_eq_true_eq]
  rw [or_comm, or_assoc]

structure Chronicled (l : Layout) (cwd : Place) (start : Key → Option Bytes) (es : Chronicle)
    (s : Store) (w : World) : Prop where
  layout : s.layout = l
  footing : Footing l cwd w
  ordered : s.flags.Ordered
  recorded : Recorded l cwd w.files s.flags
  told : Told start es (l.held cwd w.files) s.flags
  /-- What was stored or deleted had a file. -/
  holdable : ∀ k, 0 < writes es k ∨ .deleted k ∈ es → Holdable l .current k

theorem Fresh.chronicled (h : Fresh l cwd s w) :
    Chronicled l cwd (l.held cwd w.files .current) [] s w := by
  refine ⟨h.kept.layout, h.kept.footing, h.kept.ordered, ?_, ⟨fun _ => rfl, h.previous.held,
    fun k f => ?_⟩, by simp [writes]⟩
  · rw [h.flags]
    exact h.recorded
  · rw [h.flags, FlagRegistry.has_empty]
    cases f <;> simp [Raises, writes]

theorem Chronicled.undone {changed : Holdings} {r' : FlagRegistry} {e : Failure}
    (h : Chronicled l cwd start es ⟨l, i, r⟩ w) (hf' : Footing l cwd w')
    (hc : Changed .calm l cwd r k f changed w.files w'.files r' (.error e)) :
    Chronicled l cwd start es ⟨l, i, r'⟩ w' := by
  obtain ⟨rfl, hheld, hd⟩ := hc.undone
  exact ⟨rfl, hf', h.ordered, h.recorded.congr hd.document, hheld ▸ h.told, h.holdable⟩

theorem Chronicled.done {changed : Holdings} {r' : FlagRegistry} {e : Event}
    (h : Chronicled l cwd start es ⟨l, i, r⟩ w) (hf' : Footing l cwd w')
    (hc : Changed v l cwd r k f changed w.files w'.files r' (.ok ()))
    (ht : Told start (e :: es) changed (r.raised k f))
    (hh : ∀ j, 0 < writes (e :: es) j ∨ .deleted j ∈ e :: es →
      Holdable l .current j ∨ 0 < writes es j ∨ .deleted j ∈ es) :
    Chronicled l cwd start (e :: es) ⟨l, i, r'⟩ w' := by
  have hrecorded := hc.recorded h.recorded
  obtain ⟨rfl, hheld, -⟩ := hc
  exact ⟨rfl, hf', h.ordered.raised, hrecorded, hheld.symm ▸ ht,
    fun j hj => (hh j hj).elim id (h.holdable j)⟩

theorem Chronicled.writeBytes (h : Chronicled l cwd start es ⟨l, i, r⟩ w) {c : Change} {b : Bytes}
    (he : c.event? ⟨l, i, r⟩ = some (.wrote k b)) :
    (Store.writeBytes k b).Ends .calm (fun o s' w' => match o with
      | .ok () => ∃ e, c.event? ⟨l, i, r⟩ = some e ∧ Chronicled l cwd start (e :: es) s' w'
      | .error _ => Chronicled l cwd start es s' w') ⟨l, i, r⟩ w := by
  apply Action.ends_mono (writeBytes_ends h.footing k b)
  rintro (e | ⟨⟩) s' w' ⟨r', rfl, hf', hc, -⟩
  · exact h.undone hf' hc
  · refine ⟨_, he, h.done hf' hc (h.told.wrote k b _) fun j hj => ?_⟩
    by_cases hjk : k = j
    · subst hjk
      refine .inl (hf'.sound.holdable_of_held ?_)
      rw [hc.2.1, Holdings.written, Holdings.set_self]
      simp
    · exact .inr (by simpa [writes, hjk] using hj)

theorem Chronicled.change (h : Chronicled l cwd start es s w) (c : Change) :
    c.action.Ends .calm (fun o s' w' => match o with
      | .ok () => ∃ e, c.event? s = some e ∧ Chronicled l cwd start (e :: es) s' w'
      | .error _ => Chronicled l cwd start es s' w') s w := by
  obtain ⟨l', i, r⟩ := s
  obtain rfl : l' = l := h.layout
  have hf := h.footing
  cases c with
  | write k value =>
    cases value with
    | none => exact write_none_ends k h
    | some x => exact write_some_ends k (h.writeBytes (c := .write k (some x)) rfl)
  | writeBytes k b => exact h.writeBytes (c := .writeBytes k b) rfl
  | delete k =>
    apply Action.ends_mono (delete_ends hf k)
    rintro (e | ⟨⟩) s' w' ⟨r', rfl, hf', hsome, hc, -⟩
    · exact h.undone hf' hc
    · have hcurrent := hsome (.inl rfl)
      refine ⟨_, rfl, h.done hf' hc (h.told.deleted hcurrent _) fun j hj => ?_⟩
      by_cases hjk : j = k
      · subst hjk
        exact .inl (hf.sound.holdable_of_held hcurrent)
      · exact .inr (by simpa [writes, hjk] using hj)
  | flag k f =>
    apply Action.ends_mono (flag_ends hf k f)
    rintro (e | ⟨⟩) s' w' ⟨r', rfl, hf', hc, -⟩
    · exact h.undone hf' hc
    · exact ⟨_, rfl, h.done hf' hc (h.told.flagged k f) fun j hj =>
        .inr (by simpa [writes] using hj)⟩

theorem Chronicled.reopen (h : Chronicled l cwd start es s w) :
    (Store.openAt l i).Ends v (fun o w' => ∀ s', o = .ok s' →
      Chronicled l cwd start es s' w') w := by
  apply Task.ends_mono (openAt_ends h.footing h.recorded h.ordered)
  rintro o w' ⟨hf', hheld, hd, ho, -⟩ s' hs
  obtain rfl := ho s' hs
  exact ⟨rfl, hf', h.ordered, h.recorded.congr hd.document, hheld.symm ▸ h.told, h.holdable⟩

/-- In every state of a generation the chronicle tells what the store holds. -/
theorem chronicled_of_course (h₀ : Chronicled l cwd start [] s₀ w₀)
    (hcourse : Course l s₀ w₀ es s w) : Chronicled l cwd start es s w := by
  induction hcourse with
  | start => exact h₀
  | @done es s s' w w' _ c e he hroom hrun ih =>
    have hends := Script.run_of_roomy (ih.change c) hroom
    rw [hrun] at hends
    obtain ⟨e', he', hends⟩ := hends
    obtain rfl : e = e' := Option.some.inj (he.symm.trans he')
    exact hends
  | @failed es s s' w w' _ c e hroom hrun ih =>
    have hends := Script.run_of_roomy (ih.change c) hroom
    rw [hrun] at hends
    exact hends
  | @reopen es s s' w w' _ i hroom hrun ih =>
    have hends := Script.run_of_roomy (ih.reopen (v := .calm) (i := i)) hroom
    rw [hrun] at hends
    exact hends s' rfl

def openedWith (extension : String) : World :=
  ((Store.openAt ⟨"/s", extension⟩ true).run.runRefusing (fun _ => none) 0 emptyWorld).2

theorem clean_openedWith {extension : String}
    (h : ((Store.openAt ⟨"/s", extension⟩ true).run.runRefusing (fun _ => none) 0 emptyWorld).1 =
      .ok ⟨⟨"/s", extension⟩, true, .empty⟩) :
    Store.Clean ⟨"/s", extension⟩ [] ⟨⟨"/s", extension⟩, true, .empty⟩ (openedWith extension) :=
  .opened (by decide) (vacant_emptyWorld rfl) (Prod.ext h rfl)

def written (writes : List (Key × Bytes)) : List Store.Call :=
  writes.map fun x => .change (.writeBytes x.1 x.2)

theorem course_of_writes {l : Layout} {s₀ : Store} {w₀ : World} {writes : List (Key × Bytes)}
    {es : Chronicle} {P : Store × World → Bool}
    (h : (Store.makeCalls Chronicle.noted (written writes) [] s₀ w₀).any
      (fun p => decide (p.1 = es) && P p.2) = true) :
    ∃ s w, Course l s₀ w₀ es s w ∧ P (s, w) = true := by
  obtain ⟨⟨es', s, w⟩, hcs, hP⟩ := (Option.any_eq_true _ _).mp h
  rw [Bool.and_eq_true, decide_eq_true_eq] at hP
  obtain ⟨rfl, hP⟩ := hP
  exact ⟨s, w, Store.course_of_calls .start hcs, hP⟩

set_option maxRecDepth 100000 in
theorem course_of_two_writes : ∃ s w, Course smallLayout smallStore openedWorld
    [.wrote (.code "a") [2], .wrote (.code "a") [1]] s w := by
  let P : Store × World → Bool := fun _ => true
  have h : (Store.makeCalls Chronicle.noted (written [(.code "a", [1]), (.code "a", [2])]) []
      smallStore openedWorld).any (fun p => decide (p.1 =
        [.wrote (.code "a") [2], .wrote (.code "a") [1]]) && P p.2) = true := by decide +kernel
  obtain ⟨s, w, hcourse, -⟩ := course_of_writes (l := smallLayout) h
  exact ⟨s, w, hcourse⟩

set_option maxRecDepth 100000 in
theorem clean_sharing : Store.Clean ⟨"/s", "/../x"⟩ [] ⟨⟨"/s", "/../x"⟩, true, .empty⟩
    (openedWith "/../x") := clean_openedWith (by decide +kernel)

set_option maxRecDepth 100000 in
/-- An extension may lead out of the directory of the artifact, so that two artifacts share a file,
and the second one to be stored displaces the first. -/
theorem course_of_sharing : ∃ s w, Course ⟨"/s", "/../x"⟩ ⟨⟨"/s", "/../x"⟩, true, .empty⟩
    (openedWith "/../x") [.wrote (.code "b") [2], .wrote (.code "a") [1]] s w ∧
    ((s.readBytes (.code "a")).run.run w).1 ≠ .ok [1] ∧
      s.flags.has (.code "b") .addition = false := by
  let P : Store × World → Bool := fun p =>
    decide (((p.1.readBytes (.code "a")).run.run p.2).1 ≠ .ok [1]) &&
      !p.1.flags.has (.code "b") .addition
  have h : (Store.makeCalls Chronicle.noted (written [(.code "a", [1]), (.code "b", [2])]) []
      ⟨⟨"/s", "/../x"⟩, true, .empty⟩ (openedWith "/../x")).any (fun p => decide (p.1 =
        [.wrote (.code "b") [2], .wrote (.code "a") [1]]) && P p.2) = true := by decide +kernel
  obtain ⟨s, w, hcourse, hP⟩ := course_of_writes (l := ⟨"/s", "/../x"⟩) h
  simp only [P, Bool.and_eq_true, decide_eq_true_eq, Bool.not_eq_true'] at hP
  exact ⟨s, w, hcourse, hP⟩

set_option maxRecDepth 100000 in
theorem clean_staging : Store.Clean ⟨"/s", "2.tmp"⟩ [] ⟨⟨"/s", "2.tmp"⟩, true, .empty⟩
    (openedWith "2.tmp") := clean_openedWith (by decide +kernel)

set_option maxRecDepth 100000 in
/-- Or it may end as the names of staged files do, so that an artifact is staged in the file of another
one, which is gone when it has been put in place. -/
theorem course_of_staging : ∃ s w, Course ⟨"/s", "2.tmp"⟩ ⟨⟨"/s", "2.tmp"⟩, true, .empty⟩
    (openedWith "2.tmp") [.wrote (.code ".b.2.tmp.1") [3], .wrote (.code "b") [2],
      .wrote (.code ".b.2.tmp.1") [1]] s w ∧
    ((s.readPreviousBytes (.code ".b.2.tmp.1")).run.run w).1 ≠ .ok [1] ∧
      s.flags.has (.code ".b.2.tmp.1") .modification = false := by
  let P : Store × World → Bool := fun p =>
    decide (((p.1.readPreviousBytes (.code ".b.2.tmp.1")).run.run p.2).1 ≠ .ok [1]) &&
      !p.1.flags.has (.code ".b.2.tmp.1") .modification
  have h : (Store.makeCalls Chronicle.noted (written [(.code ".b.2.tmp.1", [1]), (.code "b", [2]),
      (.code ".b.2.tmp.1", [3])]) [] ⟨⟨"/s", "2.tmp"⟩, true, .empty⟩ (openedWith "2.tmp")).any
        (fun p => decide (p.1 = [.wrote (.code ".b.2.tmp.1") [3], .wrote (.code "b") [2],
          .wrote (.code ".b.2.tmp.1") [1]]) && P p.2) = true := by decide +kernel
  obtain ⟨s, w, hcourse, hP⟩ := course_of_writes (l := ⟨"/s", "2.tmp"⟩) h
  simp only [P, Bool.and_eq_true, decide_eq_true_eq, Bool.not_eq_true'] at hP
  exact ⟨s, w, hcourse, hP⟩

end Layout

end SourceDelta
