import SourceDelta.Proofs.Reading

/-!
# A rollback goes back to the start

After any changes of a generation a rollback leaves the values that the store
had at its start, under the same keys, and nothing besides: no flag, neither in
memory nor in the document, and no displaced value.
-/

set_option autoImplicit false

namespace SourceDelta.Layout

variable {l : Layout} {cwd : Place} {fs fs' : FileSystem} {w w' w₀ : World} {s s' s₀ : Store}
  {k : Key} {i : Bool} {r : FlagRegistry} {h : Holdings}

/-- What a rollback leaves as the current value is the value from the start. -/
theorem recovered_eq_start (ht : Tracked h r) (k : Key) : recovered h r k = h.start r k := by
  rw [recovered, Holdings.start]
  split
  · rfl
  · split
    next hp =>
      have hb : h .baseline k = none := by
        by_contra hb
        exact ht.layered k hb hp
      rw [hb, hp, Option.none_or, Option.none_or]
    next hp =>
      obtain ⟨p, hp⟩ := Option.ne_none_iff_exists'.mp hp
      rw [hp, Option.some_or]

/-- The store holds what another one holds, and nothing is left of a generation. -/
structure Restored (l : Layout) (cwd : Place) (s₀ : Store) (w₀ : World) (s : Store) (w : World) :
    Prop where
  values : ∀ k, ((s.readBytes k).run.run w).1 = ((s₀.readBytes k).run.run w₀).1
  missing : ∀ k, Holdable l .current k → (∀ c, ((s₀.readBytes k).run.run w₀).1 ≠ .ok c) →
    ((s.readBytes k).run.run w).1 = .error (.noValue k .current)
  keys : ∀ kind, ∃ ks, ((s.keys kind).run.run w).1 = .ok ks ∧
    ((s₀.keys kind).run.run w₀).1 = .ok ks ∧
    ∀ k, k ∈ ks ↔ k.kind = kind ∧ ∃ c, ((s₀.readBytes k).run.run w₀).1 = .ok c
  flags : ∀ k, s.flags.get k = .empty
  reopened : ∀ i, ∃ s' w', (Store.openAt l i).run.run w = (.ok s', w') ∧
    ∀ k, s'.flags.get k = .empty
  previous : Emptied l cwd .previous w.files
  baseline : Emptied l cwd .baseline w.files

theorem get_empty (k : Key) : FlagRegistry.empty.get k = .empty := rfl

theorem Fresh.restored (hu : FileName.Usable l.extension.toList) (h : Fresh l cwd s w) (h₀ : Kept l cwd s₀ w₀)
    (hk : ∀ k, l.held cwd w.files .current k = l.held cwd w₀.files .current k) :
    Restored l cwd s₀ w₀ s w := by
  have hf := h.kept.footing
  have hl := h.kept.layout
  have hvalue : ∀ k c, ((s₀.readBytes k).run.run w₀).1 = .ok c ↔
      l.held cwd w₀.files .current k = some c := fun k c => readBytes_ok h₀.layout h₀.footing
  refine ⟨?_, ?_, ?_, ?_, ?_, h.previous, h.baseline⟩
  · intro k
    exact readBytes_congr h₀.layout hl h₀.footing hf (hk k)
  · intro k hh hnone
    refine readBytes_missing hl hf ?_ hh
    rw [hk]
    cases hc : l.held cwd w₀.files .current k with
    | none => rfl
    | some c => exact absurd ((hvalue k c).mpr hc) (hnone c)
  · intro kind
    have hlisted : l.listed cwd w.files .current = l.listed cwd w₀.files .current :=
      hf.sound.listed_congr h₀.footing.sound fun k => by rw [hk]
    refine ⟨_, by rw [keys_run hl hf], by rw [keys_run h₀.layout h₀.footing, hlisted], fun k => ?_⟩
    rw [List.mem_filter, hf.sound.mem_listed, hk, Option.ne_none_iff_exists', beq_iff_eq, and_comm]
    simp only [hvalue, listable_of_usable hu k, and_true]
  · intro k
    rw [h.flags]
    exact get_empty k
  · intro i
    obtain ⟨w', hopen⟩ := openAt_run hf h.recorded FlagRegistry.ordered_empty i
    exact ⟨_, w', hopen, get_empty⟩

/-- A rollback that finds room for what it moves succeeds when nothing refuses it, whatever the values
and the flags are. -/
theorem rollback_run (hu : FileName.Usable l.extension.toList) (hf : Footing l cwd w)
    (ho : r.Ordered) (hwritten : ∀ k, r.has k .addition = true → Holdable l .current k)
    (hroom : (Store.rollback.on ⟨l, i, r⟩).roomy w = true) :
    ∃ s' w', (Store.rollback.on ⟨l, i, r⟩).run w = ((.ok (), s'), w') ∧ Fresh l cwd s' w' ∧
      ∀ k, l.held cwd w'.files .current k = recovered (l.held cwd w.files) r k := by
  have hends := Script.run_of_roomy (rollback_ends (v := .calm) (i := i) hf ho) hroom
  generalize (Store.rollback.on ⟨l, i, r⟩).run w = p at hends
  obtain ⟨⟨o, s'⟩, w'⟩ := p
  obtain ⟨r', rfl, hf', hends⟩ := hends
  have hlist := listable_of_usable hu
  cases o with
  | error e => exact absurd (hends.interrupted id hlist hwritten).1 Weather.not_rough_calm
  | ok u =>
    obtain rfl := hends.flags
    have hrecorded : Recorded l cwd w'.files .empty := .inl hends.document
    have hkept : Kept l cwd ⟨l, i, .empty⟩ w' := ⟨rfl, hf', FlagRegistry.ordered_empty, _,
      FlagRegistry.ordered_empty, hrecorded⟩
    exact ⟨_, w', rfl, ⟨hkept, rfl, hrecorded, hends.previous, hends.baseline⟩,
      fun k => hends.listed id k (hlist k)⟩

/-- After any changes of a generation, some of which may have been deletions of missing values, a
rollback that finds room for what it moves succeeds and goes back to the start. -/
theorem rollback_restores_start (hu : FileName.Usable l.extension.toList)
    (hclean : Store.Clean l cwd s₀ w₀) (hrun : Store.Run l s₀ w₀ s w)
    (hroom : (Store.rollback.on s).roomy w = true) :
    ∃ s' w', (Store.rollback.on s).run w = ((.ok (), s'), w') ∧
      Restored l cwd s₀ w₀ s' w' := by
  have hfresh := fresh_of_clean hu.storable hclean
  have hway := underway_of_run hfresh.underway hrun
  obtain ⟨l', i, r⟩ := s
  obtain rfl : l' = l := hway.layout
  obtain ⟨s', w', hdone, hfresh', hback⟩ :=
    rollback_run hu hway.footing hway.ordered hway.written hroom
  refine ⟨s', w', hdone, hfresh'.restored hu hfresh.kept fun k => ?_⟩
  rw [hback k, recovered_eq_start hway.tracked]
  exact hway.start k

set_option maxRecDepth 100000 in
/-- A generation that has stored one value is rolled back to the empty store. -/
theorem rollback_restores_start_after_write : ∃ s w,
    Store.Run smallLayout smallStore openedWorld s w ∧
      ∃ s' w', (Store.rollback.on s).run w = ((.ok (), s'), w') ∧
        Restored smallLayout [] smallStore openedWorld s' w' := by
  let write : Store.Change := .writeBytes (.code "a") [1]
  have hwrite : (write.action.on smallStore).roomy openedWorld = true := by decide +kernel
  have hroom : (Store.rollback.on ((write.action.on smallStore).run openedWorld).1.2).roomy
      ((write.action.on smallStore).run openedWorld).2 = true := by decide +kernel
  have hrun := Store.Run.next (.start (l := smallLayout)) write trivial hwrite
  exact ⟨_, _, hrun, rollback_restores_start usable_smallLayout clean_smallStore hrun hroom⟩

set_option maxRecDepth 100000 in
/-- An artifact that no file can be named for has no value before or after a rollback, but reading it
fails otherwise than for a value that is not there. -/
theorem rollback_leaves_unheld : ∃ s' w' k e, FileName.Usable smallLayout.extension.toList ∧
    Store.Clean smallLayout [] smallStore openedWorld ∧
    Store.Run smallLayout smallStore openedWorld smallStore openedWorld ∧
    (Store.rollback.on smallStore).run openedWorld = ((.ok (), s'), w') ∧
    smallStore.values openedWorld k = none ∧
    ((s'.readBytes k).run.run w').1 = .error e ∧ e.category ≠ .notFound := by
  let e : Failure := .file (.readArtifact (.code "\x00")
    (smallLayout.artifactPath .current (.code "\x00"))) .nulInPath
  have h : ((Store.rollback.on smallStore).runRoomy openedWorld).any (fun p =>
      decide (p.1.1 = .ok ()) &&
        decide (((p.1.2.readBytes (.code "\x00")).run.run p.2).1 = .error e)) = true := by
    decide +kernel
  obtain ⟨⟨⟨o, s'⟩, w'⟩, hroomy, hp⟩ := (Option.any_eq_true _ _).mp h
  simp only [Bool.and_eq_true, decide_eq_true_eq] at hp
  obtain ⟨rfl, hread⟩ := hp
  have hrun := (Script.runRoomy_eq_some.mp hroomy).2
  have hnone : smallStore.values openedWorld (.code "\x00") = none := by decide +kernel
  exact ⟨s', w', .code "\x00", e, usable_smallLayout, clean_smallStore, .start, hrun, hnone, hread,
    by decide⟩

end SourceDelta.Layout
