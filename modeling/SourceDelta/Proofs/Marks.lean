import SourceDelta.Proofs.Displacement

/-!
# Flags that are raised by hand

A flag that is raised by hand touches no artifact then, and most flags do not do
so later. But a store takes every flag of a new artifact for its own. The value of
an artifact that is marked as new goes at the next rollback, and before that it has
no previous value until a value of it has been moved away. Nothing else tells a
run from the same run without its marks.
-/

set_option autoImplicit false

namespace SourceDelta

namespace Store

def Step.acts : Step → Bool
  | .change (.flag _ _) => false
  | _ => true

/-- The step marks the artifact as new. -/
def Step.marks (k : Key) : Step → Bool
  | .change (.flag j f) => j = k && f == .addition
  | _ => false

theorem Step.marks_of_not_concerns {k : Key} {t : Step} (h : t.concerns k = false) :
    t.marks k = false := by
  cases t with
  | change c =>
    cases c with
    | flag j f =>
      have hj : j ≠ k := of_decide_eq_false h
      simp [marks, hj]
    | _ => rfl
  | _ => rfl

namespace Shelf

variable {h u : Shelf} {hasFile marked : Bool} {t : Step} {ts : List Step} {k : Key} {f : Flag}

/-- A shelf beside the one that the steps leave without their marks. -/
structure Beside (marked : Bool) (h u : Shelf) : Prop where
  current : h.current = u.current
  previous : h.previous = u.previous
  indented : h.indented = u.indented
  flagged : h.flags.contains .addition = (marked || u.flags.contains .addition)
  /-- Nothing goes to the baseline from an artifact that is flagged as new. -/
  baseline : marked = false → h.baseline = u.baseline

theorem Beside.refl (h : Shelf) : Beside false h h := ⟨rfl, rfl, rfl, by simp, fun _ => rfl⟩

theorem Beside.raised (hb : Beside marked h u) (f : Flag) :
    Beside marked (h.raised f) (u.raised f) := by
  refine ⟨hb.current, hb.previous, hb.indented, ?_, hb.baseline⟩
  show (h.flags.insert f).contains _ = (marked || (u.flags.insert f).contains _)
  rw [FlagSet.contains_insert, FlagSet.contains_insert, hb.flagged, Bool.or_left_comm]

theorem Beside.mark (hb : Beside marked h u) (f : Flag) :
    Beside (marked || f == .addition) (h.raised f) u := by
  refine ⟨hb.current, hb.previous, hb.indented, ?_, fun hm => ?_⟩
  · show (h.flags.insert f).contains _ = _
    rw [FlagSet.contains_insert, hb.flagged, ← Bool.or_assoc, Bool.or_comm marked]
  · exact hb.baseline (Bool.or_eq_false_iff.mp hm).1

theorem Beside.displaced (hb : Beside marked h u) : Beside marked h.displaced u.displaced := by
  refine ⟨rfl, hb.current, hb.indented, hb.flagged, fun hm => ?_⟩
  have hflagged := hb.flagged
  rw [hm, Bool.false_or] at hflagged
  simp only [Shelf.displaced, hb.previous, hb.baseline hm, hflagged]

theorem Beside.written (hb : Beside marked h u) (x : Bytes) :
    Beside marked (h.written x) (u.written x) := by
  rw [Shelf.written, Shelf.written, hb.current, hb.previous]
  refine Beside.raised ?_ _
  split
  · exact ⟨rfl, hb.displaced.previous, hb.indented, hb.flagged, hb.displaced.baseline⟩
  · exact ⟨rfl, hb.previous, hb.indented, hb.flagged, hb.baseline⟩

theorem Beside.deleted (hb : Beside marked h u) : Beside marked h.deleted u.deleted := by
  rw [Shelf.deleted, Shelf.deleted, hb.current]
  split
  · exact hb.displaced.raised _
  · exact hb

theorem Beside.after (hb : Beside marked h u) (ht : t.Within) (hk : t.concerns k = true) :
    Beside (marked || t.marks k) (h.after hasFile t) (if t.acts then u.after hasFile t else u) := by
  have hwritten : ∀ x, Beside (marked || false) (if hasFile then h.written x else h)
      (if hasFile then u.written x else u) := by
    intro x
    rw [Bool.or_false]
    split
    · exact hb.written x
    · exact hb
  cases t with
  | change c =>
    cases c with
    | write j value =>
      cases value with
      | none => exact (Bool.or_false marked).symm ▸ hb
      | some value =>
        have hx : h.encoded value = u.encoded value := by rw [encoded, encoded, hb.indented]
        simp only [Shelf.after, hx]
        exact hwritten _
    | writeBytes j x => exact hwritten x
    | delete j => exact (Bool.or_false marked).symm ▸ hb.deleted
    | flag j f =>
      have hj : j = k := of_decide_eq_true hk
      have hmark := hb.mark f
      rw [Step.marks, decide_eq_true hj, Bool.true_and]
      exact hmark
  | reopen i =>
    show Beside (marked || false) _ _
    rw [Bool.or_false]
    exact ⟨hb.current, hb.previous, rfl, hb.flagged, hb.baseline⟩
  | clearHistory => exact ht.elim
  | rollback => exact ht.elim

theorem Beside.foldl (hb : Beside marked h u) (hwithin : ∀ t ∈ ts, t.Within) :
    Beside (marked || ts.any (·.marks k))
      ((ts.filter (·.concerns k)).foldl (Shelf.after hasFile) h)
      (((ts.filter Step.acts).filter (·.concerns k)).foldl (Shelf.after hasFile) u) := by
  induction ts generalizing marked h u with
  | nil => simpa using hb
  | cons t ts ih =>
    have ht : t.Within := hwithin t List.mem_cons_self
    have hrest : ∀ t ∈ ts, t.Within := fun t hm => hwithin t (List.mem_cons_of_mem _ hm)
    rw [List.any_cons, ← Bool.or_assoc]
    cases hk : t.concerns k with
    | false =>
      rw [Step.marks_of_not_concerns hk, Bool.or_false, List.filter_cons_of_neg (by simp [hk])]
      cases ha : t.acts with
      | false =>
        rw [List.filter_cons_of_neg (by simp [ha])]
        exact ih hb hrest
      | true =>
        rw [List.filter_cons_of_pos ha, List.filter_cons_of_neg (by simp [hk])]
        exact ih hb hrest
    | true =>
      have hnext : Beside (marked || t.marks k) (h.after hasFile t)
        (if t.acts then u.after hasFile t else u) := hb.after ht hk
      rw [List.filter_cons_of_pos hk, List.foldl_cons]
      cases ha : t.acts with
      | false =>
        rw [ha, if_neg Bool.false_ne_true] at hnext
        rw [List.filter_cons_of_neg (by simp [ha])]
        exact ih hnext hrest
      | true =>
        rw [ha, if_pos rfl] at hnext
        rw [List.filter_cons_of_pos ha, List.filter_cons_of_pos hk, List.foldl_cons]
        exact ih hnext hrest

theorem Beside.recovered (hb : Beside marked h u) :
    h.recovered = if marked then none else u.recovered := by
  cases marked with
  | true => simp [Shelf.recovered, hb.flagged]
  | false => simp [Shelf.recovered, hb.flagged, hb.current, hb.previous, hb.baseline rfl]

theorem Beside.retained (hb : Beside marked h u) :
    h.retained = if marked then none else u.retained := by
  cases marked with
  | true => simp [Shelf.retained, hb.flagged]
  | false => simp [Shelf.retained, hb.flagged, hb.current]

end Shelf

end Store

namespace Layout
open SourceDelta.Store (Change Step Shelf MovedAway perform)

variable {l : Layout} {cwd : Place} {w w' w₀ w₁ w₁' : World} {s s' s₀ s₁ s₁' : Store} {k : Key}
  {ts : List Step} {marked : Bool}

theorem Settled.values_rolledBack (hs : Settled l cwd s w) (hs' : Settled l cwd s' w')
    (hb : (l.shelf cwd s w k).Beside marked (l.shelf cwd s' w' k))
    (h : Step.rollback.take s w = some (s₁, w₁)) (h' : Step.rollback.take s' w' = some (s₁', w₁')) :
    s₁.values w₁ k = if marked then none else s₁'.values w₁' k := by
  obtain ⟨l', i, r⟩ := s
  obtain ⟨l'', i', r'⟩ := s'
  obtain rfl : l' = l := hs.layout
  obtain rfl : l'' = l' := hs'.layout
  obtain ⟨hs₁, x, hshelf, hlisted, hunlisted⟩ := hs.rolledBack h
  obtain ⟨hs₁', x', hshelf', hlisted', hunlisted'⟩ := hs'.rolledBack h'
  have hx : l''.held cwd w₁.files .current k = x k := congrArg (·.current) (hshelf k)
  have hx' : l''.held cwd w₁'.files .current k = x' k := congrArg (·.current) (hshelf' k)
  rw [values_eq hs₁.layout hs₁.footing, values_eq hs₁'.layout hs₁'.footing, hx, hx']
  by_cases hl : l''.Listable k
  · rw [hlisted k hl, hlisted' k hl]
    exact hb.recovered
  · rw [hunlisted k hl, hunlisted' k hl]
    exact hb.retained

/-- In a generation that starts clean, the flags that are raised by hand change no value. An artifact
that is marked as new has no previous value while none was moved away, and no value after a rollback;
all else is as in the run without the marks. -/
theorem marks_tell_as_new (hu : FileName.Storable l.extension.toList)
    (hdot : l.extension.toList.head? ≠ some '.') (hclean : Store.Clean l cwd s₀ w₀)
    (hwithin : ∀ t ∈ ts, t.Within) (hrun : perform ts s₀ w₀ = some (s, w))
    (hplain : perform (ts.filter Step.acts) s₀ w₀ = some (s', w')) (k : Key) :
    ((s.readBytes k).run.run w).1 = ((s'.readBytes k).run.run w').1 ∧
    (ts.any (·.marks k) = true → ¬ MovedAway k ts s₀ w₀ →
      ((s.readPreviousBytes k).run.run w).1 = .error (.noValueBefore k)) ∧
    ((ts.any (·.marks k) = true → MovedAway k ts s₀ w₀) →
      ((s.readPreviousBytes k).run.run w).1 = ((s'.readPreviousBytes k).run.run w').1) ∧
    ∀ s₁ w₁ s₁' w₁', Step.rollback.take s w = some (s₁, w₁) →
      Step.rollback.take s' w' = some (s₁', w₁') →
      s₁.values w₁ k = if ts.any (·.marks k) then none else s₁'.values w₁' k := by
  have h₀ := settled_of_clean hu hclean
  have hno : .rollback ∉ ts := fun hm => hwithin _ hm
  have hno' : .rollback ∉ ts.filter Step.acts := fun hm => hno (List.mem_of_mem_filter hm)
  obtain ⟨hs, hshelf⟩ := h₀.perform hu (fun hm => absurd hm hno) hrun
  obtain ⟨hs', hshelf'⟩ := h₀.perform hu (fun hm => absurd hm hno') hplain
  have hb : (l.shelf cwd s w k).Beside (ts.any (·.marks k)) (l.shelf cwd s' w' k) := by
    rw [hshelf, hshelf', ← Bool.false_or (ts.any _)]
    exact (Shelf.Beside.refl _).foldl hwithin
  have hcurrent : l.held cwd w.files .current k = l.held cwd w'.files .current k := hb.current
  have hprevious : l.held cwd w.files .previous k = l.held cwd w'.files .previous k := hb.previous
  have hflagged : s.flags.has k .addition =
    (ts.any (·.marks k) || s'.flags.has k .addition) := hb.flagged
  have hstart := (fresh_of_clean hu hclean).previous.held k
  have hn := fileName_ne_dots hu hdot k
  rw [h₀.movedAway_iff hu hstart hrun, readPreviousBytes_run hs.layout hs.footing hn,
    readPreviousBytes_run hs'.layout hs'.footing hn, ← hprevious]
  refine ⟨readBytes_congr hs'.layout hs.layout hs'.footing hs.footing hcurrent, fun hm hp => ?_,
    fun hm => ?_, fun s₁ w₁ s₁' w₁' h h' => hs.values_rolledBack hs' hb h h'⟩
  · rw [not_not.mp hp]
    simp [hflagged, hm]
  · cases hp : l.held cwd w.files .previous k with
    | some c => rfl
    | none =>
      have hm : ts.any (·.marks k) = false := by
        rw [Bool.eq_false_iff]
        exact fun h => hm h hp
      rw [hm, Bool.false_or] at hflagged
      rw [hflagged, hs'.footing.sound.readFile_current hs.footing.sound hcurrent]

def called (c : Store.Call) (s : Store) (w : World) : (Except Failure Unit × Store) × World :=
  (c.action.on s).runRefusing (fun _ => none) 0 w

theorem reachable_called (h : Store.Reachable l cwd s w) (c : Store.Call) :
    Store.Reachable l cwd (called c s w).1.2 (called c s w).2 := h.called c rfl

theorem clean_cleared (h : Store.Reachable l cwd s w)
    (ho : (called .clearHistory s w).1.1 = .ok ()) :
    Store.Clean l cwd (called .clearHistory s w).1.2 (called .clearHistory s w).2 :=
  .cleared h (outcome_eq ho)

def storedValue : (Except Failure Unit × Store) × World :=
  called (.change (.writeBytes (.code "a") [1])) smallStore openedWorld

/-- The same store at the start of the next generation. -/
def keptValue : (Except Failure Unit × Store) × World :=
  called .clearHistory storedValue.1.2 storedValue.2

def markedNew : List Step := [.change (.flag (.code "a") .addition)]

set_option maxRecDepth 100000 in
/-- A value from the start that is marked as new has no previous value, and a rollback takes it;
without the mark it is its own previous value and stays. -/
theorem marks_tell_as_new_of_kept : ∃ s w s' w' s₁ w₁ s₁' w₁',
    perform markedNew keptValue.1.2 keptValue.2 = some (s, w) ∧
    perform (markedNew.filter Step.acts) keptValue.1.2 keptValue.2 = some (s', w') ∧
    ((s.readPreviousBytes (.code "a")).run.run w).1 = .error (.noValueBefore (.code "a")) ∧
    ((s'.readPreviousBytes (.code "a")).run.run w').1 = .ok [1] ∧
    Step.rollback.take s w = some (s₁, w₁) ∧ Step.rollback.take s' w' = some (s₁', w₁') ∧
    s₁.values w₁ (.code "a") = none ∧ s₁'.values w₁' (.code "a") = some [1] := by
  obtain ⟨hcleared, hmarked, hplain⟩ :
      (called .clearHistory storedValue.1.2 storedValue.2).1.1 = .ok () ∧
      ((perform markedNew keptValue.1.2 keptValue.2).bind fun p =>
        (Step.rollback.take p.1 p.2).map fun q => (p, q)).isSome = true ∧
      (Step.rollback.take keptValue.1.2 keptValue.2).map (fun q =>
        (((keptValue.1.2.readPreviousBytes (.code "a")).run.run keptValue.2).1,
          q.1.values q.2 (.code "a"))) = some (.ok [1], some [1]) := by decide +kernel
  have hstored : Store.Reachable smallLayout [] storedValue.1.2 storedValue.2 := by
    rw [storedValue]
    exact reachable_called reachable_smallStore (.change (.writeBytes (.code "a") [1]))
  have hclean : Store.Clean smallLayout [] keptValue.1.2 keptValue.2 := by
    rw [keptValue]
    exact clean_cleared hstored hcleared
  obtain ⟨⟨⟨s, w⟩, ⟨s₁, w₁⟩⟩, hmarked⟩ := Option.isSome_iff_exists.mp hmarked
  obtain ⟨_, hrun, hback⟩ := Option.bind_eq_some_iff.mp hmarked
  obtain ⟨_, hroll, he⟩ := Option.map_eq_some_iff.mp hback
  cases he
  obtain ⟨⟨s₁', w₁'⟩, hroll', hanswers⟩ := Option.map_eq_some_iff.mp hplain
  obtain ⟨hprevious', hvalue'⟩ := Prod.mk.inj hanswers
  have hmoved : ¬ MovedAway (.code "a") markedNew keptValue.1.2 keptValue.2 := by
    rintro ⟨before, c, after, -, -, -, -, hts, -, hmoves, -⟩
    have hc : Step.change c ∈ markedNew := hts ▸ (by simp)
    cases List.mem_singleton.mp hc
    exact hmoves
  have hempty : perform (markedNew.filter Step.acts) keptValue.1.2 keptValue.2 =
    some (keptValue.1.2, keptValue.2) := rfl
  obtain ⟨-, hprevious, -, hrolled⟩ := marks_tell_as_new usable_smallLayout.storable (by decide) hclean
    (fun t ht => by cases List.mem_singleton.mp ht; trivial) hrun hempty (.code "a")
  have hvalue := hrolled s₁ w₁ s₁' w₁' hroll hroll'
  exact ⟨s, w, _, _, s₁, w₁, s₁', w₁', hrun, hempty, hprevious rfl hmoved, hprevious', hroll, hroll',
    hvalue, hvalue'⟩

end Layout

end SourceDelta
