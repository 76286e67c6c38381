import Mathlib.Data.List.Induction
import Mathlib.Data.List.Nodup
import SourceDelta.DiffSet
import SourceDelta.Proofs.Coverage

/-!
# Joining changes

Changes that are joined in order keep the places where their paths first appear.
Every entry of the set is one of the changes, or a deletion and the addition
right behind it; a change whose path has an entry already is refused otherwise.
-/

set_option autoImplicit false

namespace SourceDelta.DiffSet

/-- The changes that make up an entry. -/
inductive Share : List FileChange → FileChange → Prop
  | one (c : FileChange) : Share [c] c
  | pair {d a : FileChange} (hpath : d.path = a.path) (hd : d.kind = .deletion)
      (ha : a.kind = .addition) : Share [d, a] (d.coalesce a)

variable {c d e : FileChange} {cs es g : List FileChange} {gs : List (List FileChange)}
  {s s' : DiffSet}

theorem ext_entries (h : s.entries = s'.entries) : s = s' := by
  cases s
  cases s'
  cases h
  rfl

theorem exists_get? {path : String} (h : path ∈ s.paths) :
    ∃ c, s.get? path = some c ∧ c.path = path := by
  obtain ⟨c, hc, rfl⟩ := List.mem_map.mp h
  have hsome : (s.get? c.path).isSome = true :=
    List.find?_isSome.mpr ⟨c, hc, beq_self_eq_true c.path⟩
  obtain ⟨d, hd⟩ := Option.isSome_iff_exists.mp hsome
  have hpath := List.find?_some (show s.entries.find? (·.path == c.path) = some d from hd)
  exact ⟨d, hd, eq_of_beq hpath⟩

theorem eq_of_path (hc : c ∈ s.entries) (hd : d ∈ s.entries) (h : c.path = d.path) : c = d :=
  List.inj_on_of_nodup_map s.distinct hc hd h

theorem get?_of_mem (he : e ∈ s.entries) : s.get? e.path = some e := by
  obtain ⟨c, hc, hpath⟩ := exists_get? (List.mem_map_of_mem (f := FileChange.path) he)
  rw [hc, eq_of_path (List.mem_of_find?_eq_some hc) he hpath]

theorem Share.exists_path (h : Share g e) : ∃ c ∈ g, c.path = e.path := by
  cases h with
  | one => exact ⟨e, List.mem_singleton_self e, rfl⟩
  | @pair d a => exact ⟨d, List.mem_cons_self, rfl⟩

/-- A pair makes a modification, so a deletion among the entries stands for itself. -/
theorem Share.eq_of_deletion (h : Share g e) (he : e.kind = .deletion) : g = [e] := by
  cases h with
  | one c => rfl
  | pair => cases he

theorem path_notMem_of_append (h : s.entries = es ++ [d]) : ∀ x ∈ es, x.path ≠ d.path := by
  have hdistinct := s.distinct
  rw [h, List.map_append, List.nodup_append] at hdistinct
  exact fun x hx => hdistinct.2.2 _ (List.mem_map_of_mem hx) _ (by simp)

theorem entries_replace (h : s.entries = es ++ [d]) (hpath : d.path = c.path) :
    (s.replace c).entries = es ++ [c] := by
  have hes : es.map (fun old => if old.path = c.path then c else old) = es.map id :=
    List.map_congr_left fun x hx => if_neg (hpath ▸ path_notMem_of_append h x hx)
  rw [replace, mapEntries]
  dsimp only
  rw [h, List.map_append, hes, List.map_id, List.map_singleton, if_pos hpath]

theorem contains_of_append (h : s.entries = es ++ [d]) (hpath : d.path = c.path) :
    s.contains c.path = true := by
  rw [contains, h]
  simp [hpath]

theorem absorb?_eq_some : s.absorb? c = some s' ↔
    (s.contains c.path = false ∧ s'.entries = s.entries ++ [c]) ∨
    ∃ es d, s.entries = es ++ [d] ∧ d.path = c.path ∧ d.kind = .deletion ∧ c.kind = .addition ∧
      s'.entries = es ++ [d.coalesce c] := by
  have hpush : (if h : s.contains c.path = false then some (s.push c h) else none) = some s' ↔
      s.contains c.path = false ∧ s'.entries = s.entries ++ [c] := by
    split
    next h =>
      rw [Option.some_inj]
      exact ⟨fun he => ⟨h, he ▸ rfl⟩, fun he => ext_entries he.2.symm⟩
    next h => simp [h]
  rw [absorb?]
  rcases List.eq_nil_or_concat s.entries with hnil | ⟨es, d, hlast⟩
  · rw [hnil, List.getLast?_nil]
    simp only [hpush, hnil, List.nil_append]
    simp
  rw [List.concat_eq_append] at hlast
  rw [hlast, List.getLast?_concat]
  dsimp only
  have hothers : ∀ es' d', es ++ [d] = es' ++ [d'] ↔ es = es' ∧ d = d' := by
    simp
  split
  next hpair =>
    obtain ⟨hpath, hd, hc⟩ := hpair
    have hentries : (s.replace (d.coalesce c)).entries = es ++ [d.coalesce c] :=
      entries_replace hlast rfl
    have hfull : s.contains c.path = true := contains_of_append hlast hpath
    rw [Option.some_inj, hfull]
    simp only [Bool.true_eq_false, false_and, false_or, hothers]
    constructor
    · rintro rfl
      exact ⟨es, d, ⟨rfl, rfl⟩, hpath, hd, hc, hentries⟩
    · rintro ⟨_, _, ⟨rfl, rfl⟩, -, -, -, hs'⟩
      exact ext_entries (hentries.trans hs'.symm)
  next hpair =>
    rw [hpush, hlast]
    refine ⟨Or.inl, ?_⟩
    rintro (h | ⟨_, _, hsplit, hpath, hd, hc, -⟩)
    · exact h
    · obtain ⟨rfl, rfl⟩ := (hothers _ _).mp hsplit
      exact absurd ⟨hpath, hd, hc⟩ hpair

theorem distinct_of_append (h : s.entries = es ++ [e]) :
    ∃ s₀ : DiffSet, s₀.entries = es ∧ s₀.contains e.path = false := by
  have hdistinct := s.distinct
  rw [h, List.map_append, List.nodup_append] at hdistinct
  refine ⟨⟨es, hdistinct.1⟩, rfl, contains_eq_false.mpr fun hmem => ?_⟩
  obtain ⟨x, hx, hpath⟩ := List.mem_map.mp hmem
  exact path_notMem_of_append h x hx hpath

theorem foldlM_share (h : Share g e) (hfresh : s.contains e.path = false)
    (hs' : s'.entries = s.entries ++ [e]) : g.foldlM absorb? s = some s' := by
  cases h with
  | one c =>
    rw [List.foldlM_cons, absorb?_eq_some.mpr (.inl ⟨hfresh, hs'⟩)]
    rfl
  | @pair d a hpath hd ha =>
    have hd' : s.absorb? d = some (s.push d hfresh) := absorb?_eq_some.mpr (.inl ⟨hfresh, rfl⟩)
    have ha' : (s.push d hfresh).absorb? a = some s' :=
      absorb?_eq_some.mpr (.inr ⟨s.entries, d, rfl, hpath, hd, ha, hs'⟩)
    rw [List.foldlM_cons, hd', Option.bind_eq_bind, Option.bind_some, List.foldlM_cons, ha']
    rfl

theorem foldlM_of_share (h : List.Forall₂ Share gs s.entries) :
    gs.flatten.foldlM absorb? empty = some s := by
  induction gs using List.reverseRecOn generalizing s with
  | nil => exact congrArg some (ext_entries (List.forall₂_nil_left_iff.mp h).symm)
  | append_singleton gs g ih =>
    obtain ⟨es, last, hentries, hgs, hlast⟩ := forall₂_append_left h
    obtain ⟨e, _, hg, hnil, rfl⟩ := List.forall₂_cons_left_iff.mp hlast
    obtain rfl := List.forall₂_nil_left_iff.mp hnil
    obtain ⟨s₀, rfl, hfresh⟩ := distinct_of_append hentries
    rw [List.flatten_append, List.foldlM_append, ih hgs, List.flatten_singleton]
    exact foldlM_share hg hfresh hentries

theorem share_of_foldlM (h : cs.foldlM absorb? empty = some s) :
    ∃ gs, gs.flatten = cs ∧ List.Forall₂ Share gs s.entries := by
  induction cs using List.reverseRecOn generalizing s with
  | nil =>
    cases h
    exact ⟨[], rfl, .nil⟩
  | append_singleton cs c ih =>
    rw [List.foldlM_append] at h
    obtain ⟨s₀, hs₀, hc⟩ := Option.bind_eq_some_iff.mp h
    simp only [List.foldlM_cons, List.foldlM_nil, bind_pure, absorb?_eq_some] at hc
    obtain ⟨gs, rfl, hgs⟩ := ih hs₀
    rcases hc with ⟨-, hentries⟩ | ⟨es, d, hlast, hpath, hd, hc, hentries⟩
    · refine ⟨gs ++ [[c]], by simp, ?_⟩
      rw [hentries]
      exact List.rel_append hgs (.cons (.one c) .nil)
    · rw [hlast] at hgs
      obtain ⟨gs, gs', rfl, hes, hgs'⟩ := forall₂_append_right hgs
      obtain ⟨g, _, hg, hnil, rfl⟩ := List.forall₂_cons_right_iff.mp hgs'
      obtain rfl := List.forall₂_nil_right_iff.mp hnil
      refine ⟨gs ++ [[d, c]], by simp [hg.eq_of_deletion hd], ?_⟩
      rw [hentries]
      exact List.rel_append hes (.cons (.pair hpath hd hc) .nil)

/-- A list of changes is joined when it falls into changes that share an entry. -/
theorem foldlM_absorb? : cs.foldlM absorb? empty = some s ↔
    ∃ gs, gs.flatten = cs ∧ List.Forall₂ Share gs s.entries := by
  refine ⟨share_of_foldlM, ?_⟩
  rintro ⟨gs, rfl, h⟩
  exact foldlM_of_share h

theorem flatten_of_share (h : List.Forall₂ Share gs es)
    (hkind : ∀ c ∈ gs.flatten, c.kind = .modification) : gs.flatten = es := by
  induction h with
  | nil => rfl
  | @cons g e gs es hg _ ih =>
    rw [List.flatten_cons] at hkind ⊢
    rw [ih fun c hc => hkind c (List.mem_append_right _ hc)]
    cases hg with
    | one => rfl
    | @pair d a _ hd =>
      rw [hkind d (List.mem_append_left _ List.mem_cons_self)] at hd
      cases hd

theorem foldlM_modifications (h : ∀ c ∈ cs, c.kind = .modification) :
    cs.foldlM absorb? empty = some s ↔ s.entries = cs := by
  rw [foldlM_absorb?]
  constructor
  · rintro ⟨gs, rfl, hgs⟩
    exact (flatten_of_share hgs h).symm
  · rintro rfl
    refine ⟨s.entries.map ([·]), List.flatMap_singleton' s.entries, ?_⟩
    rw [List.forall₂_map_left_iff, List.forall₂_same]
    exact fun c _ => .one c

end SourceDelta.DiffSet
