import SourceDelta.Proofs.Contents
import SourceDelta.Proofs.Registry

/-!
# What a generation remembers

The value that an artifact had at the start of the generation stands in the
baseline, or else in the previous area, or else it is the current value; an
artifact that is new had none. A change moves the values about, and the value at
the start is the same before and after it.
-/

set_option autoImplicit false

namespace SourceDelta

variable {v : Holdings} {r : FlagRegistry} {j k : Key} {f g : Flag} {x : Bytes} {added : Bool}

namespace FlagRegistry

def raised (r : FlagRegistry) (k : Key) (f : Flag) : FlagRegistry :=
  if r.has k f then r else r.insert k f

theorem has_raised :
    (r.raised k f).has j g = (r.has j g || (decide (j = k) && decide (g = f))) := by
  rw [raised]
  split
  next h =>
    by_cases hj : j = k ∧ g = f
    · obtain ⟨rfl, rfl⟩ := hj
      simp [h]
    · simp only [not_and] at hj
      by_cases hk : j = k
      · simp [hj hk]
      · simp [hk]
  next h =>
    rw [has_insert]
    by_cases hk : j = k
    · subst hk
      rw [if_pos rfl, Bool.or_comm]
      cases f <;> cases g <;> simp
    · simp [hk]

theorem Ordered.raised (h : Ordered r) : Ordered (r.raised k f) := by
  rw [FlagRegistry.raised]
  split
  · exact h
  · exact h.insert

theorem raised_ne (h : r.has k f = false) : r.raised k f ≠ r := by
  intro he
  have hhas : (r.raised k f).has k f = r.has k f := by rw [he]
  rw [has_raised, h] at hhas
  simp at hhas

theorem has_raised_of_ne (h : g ≠ f) : (r.raised k f).has j g = r.has j g := by
  simp [has_raised, h]

end FlagRegistry

namespace Holdings

/-- A previous value from the start of the generation makes way for the current one. -/
def baselines (v : Holdings) (k : Key) (added : Bool) : Bool :=
  (v .previous k).isSome && (v .baseline k).isNone && !added

/-- The values after a previous value has made way. -/
def cleared (v : Holdings) (k : Key) (added : Bool) : Holdings :=
  if v.baselines k added then (v.set .baseline k (v .previous k)).set .previous k none else v

/-- The values after the current value has been moved away. -/
def displaced (v : Holdings) (k : Key) (added : Bool) : Holdings :=
  ((v.cleared k added).set .previous k (v .current k)).set .current k none

def written (v : Holdings) (k : Key) (added : Bool) (x : Bytes) : Holdings :=
  (if (v .current k).isSome then v.displaced k added else v).set .current k (some x)

/-- The flag of a write: an artifact without a value in this generation is new. -/
def writeFlag (v : Holdings) (k : Key) : Flag :=
  if (v .current k).isSome || (v .previous k).isSome then .modification else .addition

def start (v : Holdings) (r : FlagRegistry) (k : Key) : Option Bytes :=
  if r.has k .addition then none
  else (v .baseline k).or ((v .previous k).or (v .current k))

theorem cleared_key (h : j ≠ k) (a : Area) : (v.cleared k added) a j = v a j := by
  rw [cleared]
  split
  · rw [set_key h, set_key h]
  · rfl

theorem displaced_key (h : j ≠ k) (a : Area) : (v.displaced k added) a j = v a j := by
  rw [displaced, set_key h, set_key h, cleared_key h]

theorem written_key (h : j ≠ k) (a : Area) : (v.written k added x) a j = v a j := by
  rw [written, set_key h]
  split
  · exact displaced_key h a
  · rfl

theorem displaced_current : (v.displaced k added) .current k = none := set_self

theorem displaced_previous : (v.displaced k added) .previous k = v .current k := by
  rw [displaced, set_area (by decide), set_self]

theorem displaced_baseline : (v.displaced k added) .baseline k =
    if v.baselines k added then v .previous k else v .baseline k := by
  rw [displaced, set_area (by decide), set_area (by decide), cleared]
  split
  · rw [set_area (by decide), set_self]
  · rfl

theorem start_congr {v' : Holdings} {r' : FlagRegistry} (hv : ∀ a, v' a k = v a k)
    (hr : r'.has k .addition = r.has k .addition) : v'.start r' k = v.start r k := by
  simp only [start, hv, hr]

end Holdings

/-- What the changes of a generation keep: which values and flags belong together. -/
structure Tracked (v : Holdings) (r : FlagRegistry) : Prop where
  /-- A value in the baseline was displaced by one in the previous area. -/
  layered : ∀ k, v .baseline k ≠ none → v .previous k ≠ none
  /-- A new artifact has nothing to go back to. -/
  fresh : ∀ k, r.has k .addition = true → v .baseline k = none

theorem Tracked.empty (hp : ∀ k, v .previous k = none) (hb : ∀ k, v .baseline k = none) :
    Tracked v .empty ∧ ∀ k, v.start .empty k = v .current k := by
  refine ⟨⟨fun k h => absurd (hb k) h, fun k _ => hb k⟩, fun k => ?_⟩
  simp [Holdings.start, hp, hb, FlagRegistry.has_empty]

theorem Holdings.start_of_previous {v' : Holdings} {r' : FlagRegistry}
    (hp : v .previous k ≠ none) (hprevious : v' .previous k = v .previous k)
    (hbaseline : v' .baseline k = v .baseline k)
    (hr : r'.has k .addition = r.has k .addition) : v'.start r' k = v.start r k := by
  obtain ⟨p, hp⟩ := Option.ne_none_iff_exists'.mp hp
  simp only [start, hprevious, hbaseline, hr, hp, Option.some_or]

theorem Tracked.flagged {r' : FlagRegistry} (h : Tracked v r)
    (hr : ∀ i, r'.has i .addition = r.has i .addition) :
    Tracked v r' ∧ ∀ i, v.start r' i = v.start r i :=
  ⟨⟨h.layered, fun i hi => h.fresh i (hr i ▸ hi)⟩, fun i => Holdings.start_congr (fun _ => rfl) (hr i)⟩

theorem Tracked.displaced (h : Tracked v r) (hc : v .current k ≠ none) :
    Tracked (v.displaced k (r.has k .addition)) r ∧
      ∀ i, (v.displaced k (r.has k .addition)).start r i = v.start r i := by
  refine ⟨⟨?_, ?_⟩, ?_⟩
  · intro i hi
    by_cases hik : i = k
    · subst hik
      rw [Holdings.displaced_previous]
      exact hc
    · rw [Holdings.displaced_key hik] at hi ⊢
      exact h.layered i hi
  · intro i hi
    by_cases hik : i = k
    · subst hik
      rw [Holdings.displaced_baseline, Holdings.baselines, hi, h.fresh i hi]
      simp
    · rw [Holdings.displaced_key hik]
      exact h.fresh i hi
  · intro i
    by_cases hik : i = k
    · subst hik
      simp only [Holdings.start, Holdings.displaced_current, Holdings.displaced_previous,
        Holdings.displaced_baseline, Holdings.baselines]
      split
      · rfl
      next ha =>
        -- the value at the start is what stands deepest, and it is moved to the next area
        simp only [ha, Bool.not_false, Bool.and_true]
        have hlayered := h.layered i
        cases hb : v .baseline i with
        | some y => simp
        | none => cases v .previous i <;> simp
    · exact Holdings.start_congr (fun a => Holdings.displaced_key hik a) rfl

theorem Tracked.above (h : Tracked v r) (hp : v .previous k ≠ none) (y : Option Bytes) :
    Tracked (v.set .current k y) r ∧ ∀ i, (v.set .current k y).start r i = v.start r i := by
  have hother : ∀ {a : Area}, a ≠ .current → ∀ i, (v.set .current k y) a i = v a i :=
    fun ha _ => Holdings.set_area ha
  refine ⟨⟨fun i hi => ?_, fun i hi => ?_⟩, fun i => ?_⟩
  · rw [hother (by decide)] at hi ⊢
    exact h.layered i hi
  · rw [hother (by decide)]
    exact h.fresh i hi
  · by_cases hik : i = k
    · subst hik
      exact Holdings.start_of_previous hp (hother (by decide) i) (hother (by decide) i) rfl
    · exact Holdings.start_congr (fun _ => Holdings.set_key hik) rfl

theorem Tracked.modified (h : Tracked v r) (hp : v .previous k ≠ none) (x : Bytes) :
    Tracked (v.set .current k (some x)) (r.raised k .modification) ∧
      ∀ i, (v.set .current k (some x)).start (r.raised k .modification) i = v.start r i := by
  have hr : ∀ i, (r.raised k .modification).has i .addition = r.has i .addition :=
    fun i => FlagRegistry.has_raised_of_ne (by decide)
  obtain ⟨h', hstart⟩ := h.above hp (some x)
  obtain ⟨h'', hstart'⟩ := h'.flagged hr
  exact ⟨h'', fun i => (hstart' i).trans (hstart i)⟩

theorem Tracked.created (h : Tracked v r) (hc : v .current k = none) (hp : v .previous k = none)
    (x : Bytes) : Tracked (v.set .current k (some x)) (r.raised k .addition) ∧
      ∀ i, (v.set .current k (some x)).start (r.raised k .addition) i = v.start r i := by
  have hb : v .baseline k = none := by
    by_contra hb
    exact h.layered k hb hp
  have hr : ∀ i, (r.raised k .addition).has i .addition =
      (r.has i .addition || decide (i = k)) := by
    intro i
    simp [FlagRegistry.has_raised]
  have hother : ∀ {a : Area}, a ≠ .current → ∀ i, (v.set .current k (some x)) a i = v a i :=
    fun ha _ => Holdings.set_area ha
  refine ⟨⟨fun i hi => ?_, fun i hi => ?_⟩, fun i => ?_⟩
  · rw [hother (by decide)] at hi ⊢
    exact h.layered i hi
  · rw [hother (by decide)]
    by_cases hik : i = k
    · rw [hik]
      exact hb
    · exact h.fresh i (by simpa [hr, hik] using hi)
  · by_cases hik : i = k
    · subst hik
      simp [Holdings.start, hr, hb, hp, hc]
    · exact Holdings.start_congr (fun a => Holdings.set_key hik) (by simp [hr, hik])

theorem Tracked.written (h : Tracked v r) (x : Bytes) :
    Tracked (v.written k (r.has k .addition) x) (r.raised k (v.writeFlag k)) ∧
      ∀ i, (v.written k (r.has k .addition) x).start (r.raised k (v.writeFlag k)) i =
        v.start r i := by
  unfold Holdings.written
  by_cases hc : v .current k = none
  · simp only [hc, Option.isSome_none, Bool.false_eq_true, if_false]
    by_cases hp : v .previous k = none
    · have hflag : v.writeFlag k = .addition := by simp [Holdings.writeFlag, hc, hp]
      rw [hflag]
      exact h.created hc hp x
    · have hflag : v.writeFlag k = .modification := by
        simp [Holdings.writeFlag, Option.isSome_iff_ne_none, hp]
      rw [hflag]
      exact h.modified hp x
  · have hsome : (v .current k).isSome = true := Option.isSome_iff_ne_none.mpr hc
    have hflag : v.writeFlag k = .modification := by simp [Holdings.writeFlag, hsome]
    obtain ⟨h', hstart⟩ := h.displaced hc
    rw [hflag, hsome, if_pos rfl]
    obtain ⟨h'', hstart'⟩ := h'.modified (by rw [Holdings.displaced_previous]; exact hc) x
    exact ⟨h'', fun i => (hstart' i).trans (hstart i)⟩

end SourceDelta
