import SourceDelta.Proofs.Reading

/-!
# A change that has failed

A change that fails is to leave every answer of the store as it was. It does so
but for two ways of failing. When the flags cannot be saved, the new value is in
place and the flag is raised in memory. When the current value cannot be moved
away after the previous value has made way for it, the previous value is no longer
found where it is looked for. A failure at the commit of a value is left aside:
what is moved back then may fail as well.
-/

set_option autoImplicit false

namespace SourceDelta

/-- Two stores give the same answers. -/
structure Store.Alike (s : Store) (w : World) (s' : Store) (w' : World) : Prop where
  values : ∀ k, ((s'.readBytes k).run.run w').1 = ((s.readBytes k).run.run w).1
  previous : ∀ k, ((s'.readPreviousBytes k).run.run w').1 = ((s.readPreviousBytes k).run.run w).1
  contained : ∀ k, ((s'.contains k).run.run w').1 = ((s.contains k).run.run w).1
  flags : ∀ k, s'.flags.get k = s.flags.get k
  keys : ∀ kind, ((s'.keys kind).run.run w').1 = ((s.keys kind).run.run w).1

namespace Layout
open SourceDelta.Store (Change)

variable {l : Layout} {cwd : Place} {w w' : World} {s s' : Store} {k : Key} {c : Bytes}
  {e : Failure} {f : Flag}

theorem Uncovered.not_unsaved {b : Bool} (h : Uncovered l k b e) : ¬ Unsaved l e := by
  intro hs
  rcases h with ⟨i, rfl⟩ | ⟨-, h | ⟨i, j, rfl⟩⟩
  · cases hs
  · exact folder_ne_records (Option.some.inj (h.symm.trans hs))
  · cases hs

theorem readPreviousBytes_congr (hl : s.layout = l) (hl' : s'.layout = l) (hf : Footing l cwd w)
    (hf' : Footing l cwd w') (hn : l.fileName k ≠ "..") (hflags : s'.flags = s.flags)
    (hc : l.held cwd w'.files .current k = l.held cwd w.files .current k)
    (hp : l.held cwd w'.files .previous k = l.held cwd w.files .previous k) :
    ((s'.readPreviousBytes k).run.run w').1 = ((s.readPreviousBytes k).run.run w).1 := by
  rw [readPreviousBytes_run hl hf hn, readPreviousBytes_run hl' hf' hn, hp, hflags,
    hf.sound.readFile_current hf'.sound hc]

theorem readPreviousBytes_of_current (hl : s.layout = l) (hf : Footing l cwd w)
    (hn : l.fileName k ≠ "..") (hc : l.held cwd w.files .current k = some c)
    (hp : l.held cwd w.files .previous k = some c ∨
      l.held cwd w.files .previous k = none ∧ s.flags.has k .addition = false) :
    ((s.readPreviousBytes k).run.run w).1 = .ok c := by
  rw [readPreviousBytes_run hl hf hn]
  rcases hp with hp | ⟨hp, hr⟩
  · rw [hp]
  · rw [hp, hr, hf.sound.readFile hc]
    rfl

theorem alike_iff_previous (hdots : ∀ k, l.fileName k ≠ "..") (hl : s.layout = l)
    (hl' : s'.layout = l) (hf : Footing l cwd w) (hf' : Footing l cwd w')
    (hflags : s'.flags = s.flags)
    (hc : ∀ j, l.held cwd w'.files .current j = l.held cwd w.files .current j)
    (hp : ∀ j, j ≠ k → l.held cwd w'.files .previous j = l.held cwd w.files .previous j) :
    s.Alike w s' w' ↔
      ((s'.readPreviousBytes k).run.run w').1 = ((s.readPreviousBytes k).run.run w).1 := by
  refine ⟨fun h => h.previous k, fun h => ⟨fun j => ?_, fun j => ?_, fun j => ?_, fun j => ?_,
    fun kind => ?_⟩⟩
  · exact readBytes_congr hl hl' hf hf' (hc j)
  · by_cases hj : j = k
    · rw [hj]
      exact h
    · exact readPreviousBytes_congr hl hl' hf hf' (hdots j) hflags (hc j) (hp j hj)
  · rw [contains_run hl hf (hdots j), contains_run hl' hf' (hdots j), hc]
  · rw [hflags]
  · have hlisted : l.listed cwd w'.files .current = l.listed cwd w.files .current :=
      hf'.sound.listed_congr hf.sound fun j => by rw [hc]
    rw [keys_run hl hf, keys_run hl' hf', hlisted]

theorem alike_of_held (hdots : ∀ k, l.fileName k ≠ "..") (hl : s.layout = l)
    (hl' : s'.layout = l) (hf : Footing l cwd w) (hf' : Footing l cwd w')
    (hflags : s'.flags = s.flags)
    (hheld : ∀ a, a ≠ .baseline → ∀ j, l.held cwd w'.files a j = l.held cwd w.files a j) :
    s.Alike w s' w' := by
  have hc := hheld .current (by decide)
  have hp := hheld .previous (by decide)
  refine (alike_iff_previous (k := .build) hdots hl hl' hf hf' hflags hc fun j _ => hp j).mpr ?_
  exact readPreviousBytes_congr hl hl' hf hf' (hdots _) hflags (hc _) (hp _)

/-- When it is the current value that is found as the previous one afterwards, the stores are alike
just when it was found as that before. -/
theorem alike_iff_current (hdots : ∀ k, l.fileName k ≠ "..") (hl : s.layout = l)
    (hl' : s'.layout = l) (hf : Footing l cwd w) (hf' : Footing l cwd w')
    (hflags : s'.flags = s.flags) (hx : l.held cwd w.files .current k = some c)
    (hc : ∀ j, l.held cwd w'.files .current j = l.held cwd w.files .current j)
    (hother : ∀ j, j ≠ k → l.held cwd w'.files .previous j = l.held cwd w.files .previous j)
    (hp : l.held cwd w'.files .previous k = some c ∨
      l.held cwd w'.files .previous k = none ∧ s.flags.has k .addition = false) :
    s.Alike w s' w' ↔
      ((s.readPreviousBytes k).run.run w).1 = ((s.readBytes k).run.run w).1 := by
  have hnow := readPreviousBytes_of_current hl' hf' (hdots k) ((hc k).trans hx) (hflags ▸ hp)
  rw [alike_iff_previous hdots hl hl' hf hf' hflags hc hother, hnow, readBytes_held hl hf hx]
  exact eq_comm

/-- A displacement that has stopped has left the current values and the previous ones, or the current
value is the one that will be found as the previous one. -/
theorem Stuck.left {h h' : Holdings} {added : Bool} (hs : Stuck l h k added e h') :
    Harmless l k (h.baselines k added) e ∧ (∀ a, a ≠ .baseline → ∀ j, h' a j = h a j) ∨
    Uncovered l k (h.baselines k added) e ∧ (∀ j, h' .current j = h .current j) ∧
      (∀ j, j ≠ k → h' .previous j = h .previous j) ∧
      (h' .previous k = h .current k ∨ h' .previous k = none ∧ added = false) := by
  have hcurrent : ∀ j, h.cleared k added .current j = h .current j := by
    intro j
    rw [Holdings.cleared]
    split
    · rw [Holdings.set_area (by decide), Holdings.set_area (by decide)]
    · rfl
  cases hs with
  | baseline_copied he hb => exact .inl ⟨he, fun a ha j => Holdings.set_area ha⟩
  | cleared he hb =>
    refine .inr ⟨he, hcurrent, fun j hj => Holdings.cleared_key hj _, .inr ⟨?_, ?_⟩⟩
    · rw [Holdings.cleared, if_pos hb, Holdings.set_self]
    · simp only [Holdings.baselines, Bool.and_eq_true, Bool.not_eq_true'] at hb
      exact hb.2
  | copied he =>
    refine .inr ⟨he, fun j => ?_, fun j hj => ?_, .inl Holdings.set_self⟩
    · rw [Holdings.set_area (by decide), hcurrent]
    · rw [Holdings.set_key hj, Holdings.cleared_key hj]

theorem not_alike_of_raised {r : FlagRegistry} {i : Bool} (hr : r.has k f = false) :
    ¬ Store.Alike ⟨l, i, r⟩ w ⟨l, i, r.raised k f⟩ w' := by
  intro h
  have hsame : (r.raised k f).has k f = r.has k f := by
    rw [FlagRegistry.has, h.flags k, FlagRegistry.has]
  rw [FlagRegistry.has_raised, hr] at hsame
  simp at hsame

/-- A change that fails otherwise than at the commit of a value leaves all answers as they were, unless
the flags could not be saved or the current value could not be moved away and is not the one that is
found as the previous value. -/
theorem failed_change_alike_iff {refuse : Nat → Option IoError} {n : Nat}
    (hs : FileName.Storable l.extension.toList) (hdot : l.extension.toList.head? ≠ some '.')
    (hreach : Store.Reachable l cwd s w) (c : Change)
    (hrun : (c.action.on s).runRefusing refuse n w = ((.error e, s'), w'))
    (hcommit : ∀ i, e ≠ .file (.replace (l.artifactPath .current c.key)) i) :
    s.Alike w s' w' ↔ ¬ Unsaved l e ∧
      (Uncovered l c.key
          ((l.held cwd w.files).baselines c.key (s.flags.has c.key .addition)) e →
        ((s.readPreviousBytes c.key).run.run w).1 = ((s.readBytes c.key).run.run w).1) := by
  have hdots := fileName_ne_dots hs hdot
  have hkept := kept_of_reachable hs hreach
  obtain ⟨l', i, r⟩ := s
  obtain rfl : l' = l := hkept.layout
  have hf := hkept.footing
  have hends := Script.runRefusing_of_ends (change_ends (i := i) (r := r) hf c) rough_any
    (refuse_any refuse) n
  rw [hrun] at hends
  obtain ⟨r', rfl, hf', f, changed, ⟨-, hfailed⟩, -⟩ := hends
  cases hfailed with
  | untouched _ _ hh hheld =>
    obtain ⟨hsaved, hcovered⟩ := hh (hdots c.key)
    refine iff_of_true ?_ ⟨hsaved, fun h => absurd h hcovered⟩
    exact alike_of_held hdots rfl rfl hf hf' rfl fun a _ j => by rw [hheld]
  | displacing _ _ hc hstuck =>
    obtain ⟨x, hx⟩ := Option.ne_none_iff_exists'.mp hc
    rcases hstuck.left with ⟨he, hheld⟩ | ⟨he, hcurrent, hother, hprevious⟩
    · refine iff_of_true ?_ ⟨he.1, fun h => absurd h he.2⟩
      exact alike_of_held hdots rfl rfl hf hf' rfl hheld
    · rw [hx] at hprevious
      rw [alike_iff_current hdots rfl rfl hf hf' rfl hx hcurrent hother hprevious]
      exact ⟨fun h => ⟨he.not_unsaved, fun _ => h⟩, fun h => h.2 he⟩
  | committing i => exact absurd rfl (hcommit i)
  | saving _ _ he hnew =>
    exact iff_of_false (not_alike_of_raised hnew) fun h => h.1 he

set_option maxRecDepth 100000 in
/-- A flag that could not be saved is raised all the same. -/
theorem unsaved_flag_not_alike : ∃ s' w',
    ((Change.flag (.code "a") .modification).action.on smallStore).runRefusing
        (fun n => if n = 1 then some .busy else none) 0 openedWorld =
        ((.error (.file (.createParent "/s/meta") .busy), s'), w') ∧
      ¬ smallStore.Alike openedWorld s' w' := by
  have hstop : (((Change.flag (.code "a") .modification).action.on smallStore).runRefusing
      (fun n => if n = 1 then some .busy else none) 0 openedWorld).1.1 =
      .error (.file (.createParent "/s/meta") .busy) := by decide +kernel
  have hiff := failed_change_alike_iff usable_smallLayout.storable (by decide)
    reachable_smallStore (.flag (.code "a") .modification) (outcome_eq hstop) (by simp)
  have hunsaved : Unsaved smallLayout (.file (.createParent "/s/meta") .busy) := by
    rw [Unsaved, Failure.directory?]
    decide
  exact ⟨_, _, outcome_eq hstop, fun h => (hiff.mp h).1 hunsaved⟩

end Layout

end SourceDelta
