import SourceDelta.Proofs.CheckedParsing
import SourceDelta.Proofs.Joining

/-!
# The index of a set of changes

Beside its entries a table keeps the place of every path. Changes are added to it, put
in the place of others and joined to the last one, and all the while the index and the
entries stay inverse to each other. So a lookup through the index never runs out of the
entries and finds what a search of them finds, in a set that was collected from any
list, in one made of a list without repeated paths, and in one read from a document.
-/

set_option autoImplicit false

namespace SourceDelta

open Checked

variable {c d : FileChange} {cs es : List FileChange} {p : String} {s : DiffSet}

namespace DiffSet

theorem contains_eq_true : s.contains p = true ↔ p ∈ s.paths := by
  simp [contains, paths]

theorem get?_eq_none : s.get? p = none ↔ s.contains p = false := by
  simp [get?, contains]

theorem paths_replace : (s.replace c).paths = s.paths := by
  rw [paths, replace, mapEntries, List.map_map, paths]
  refine List.map_congr_left fun old _ => ?_
  rw [Function.comp_apply]
  split
  next hpath => exact hpath.symm
  next => rfl

theorem entries_replace_at {i : Nat} (hi : s.paths[i]? = some c.path) :
    (s.replace c).entries = s.entries.set i c := by
  apply List.ext_getElem?
  intro j
  rw [replace, mapEntries]
  dsimp only
  rw [List.getElem?_map, List.getElem?_set]
  rw [paths, List.getElem?_map] at hi
  obtain ⟨e, he, hpath⟩ := Option.map_eq_some_iff.mp hi
  split
  next hij =>
    subst hij
    rw [he, if_pos (List.getElem?_eq_some_iff.mp he).1, Option.map_some, if_pos hpath]
  next hij =>
    cases hj : s.entries[j]? with
    | none => rfl
    | some x =>
      rw [Option.map_some, if_neg]
      intro hx
      have hi' : i < (s.entries.map FileChange.path).length := by
        simpa using (List.getElem?_eq_some_iff.mp he).1
      exact hij ((List.getElem?_inj hi' s.distinct).mp (by simp [he, hj, hpath, hx]))

theorem go_eq_ok {s' : DiffSet} : ofDistinct.go s cs = .ok s' ↔ s'.entries = s.entries ++ cs := by
  induction cs generalizing s with
  | nil =>
    rw [ofDistinct.go, Except.ok.injEq, List.append_nil]
    exact ⟨fun h => h ▸ rfl, fun h => ext_entries h.symm⟩
  | cons c cs ih =>
    rw [ofDistinct.go]
    split
    next h =>
      rw [ih, push, List.append_assoc]
      rfl
    next h =>
      rw [Bool.not_eq_false, contains_eq_true] at h
      refine ⟨by simp, fun he => ?_⟩
      have hdistinct := s'.distinct
      rw [he, List.map_append, List.nodup_append] at hdistinct
      exact absurd rfl (hdistinct.2.2 _ h c.path (by simp))

end DiffSet

namespace Diff.Checked.Table

variable {ε : Type} {t t' : Table} {i : Nat}

def get (t : Table) (path : String) : Checked ε (Option FileChange) :=
  match t.places.lookup path with
  | some i =>
    match t.entries[i]? with
    | some c => .ok (some c)
    | none => trap .index
  | none => .ok none

def contains (t : Table) (path : String) : Bool := (t.places.lookup path).isSome

/-- Adds an entry whose path has none; otherwise the path of that one is at fault. -/
def addNew (t : Table) (c : FileChange) : Checked String Table := do
  match ← t.get c.path with
  | some previous => .error (.fault previous.path)
  | none => .ok ⟨t.entries ++ [c], (c.path, t.entries.length) :: t.places⟩

def ofDistinct (cs : List FileChange) : Checked String Table := cs.foldlM addNew ⟨[], []⟩

/-- The index names the place of every path, and no other. -/
def Inverse (t : Table) : Prop :=
  ∀ p i, t.places.lookup p = some i ↔ (t.entries.map FileChange.path)[i]? = some p

theorem inverse_empty : Inverse ⟨[], []⟩ := fun p i => by simp

theorem Inverse.congr (h : t.Inverse)
    (hpaths : es.map FileChange.path = t.entries.map FileChange.path) :
    Inverse { t with entries := es } := by
  intro p i
  rw [hpaths]
  exact h p i

theorem Inverse.push (h : t.Inverse) (hnone : t.places.lookup c.path = none) :
    Inverse ⟨t.entries ++ [c], (c.path, t.entries.length) :: t.places⟩ := by
  intro p i
  have hlast : ((t.entries ++ [c]).map FileChange.path)[i]? = some p ↔
      (t.entries.map FileChange.path)[i]? = some p ∨ i = t.entries.length ∧ p = c.path := by
    rw [List.map_append, List.map_singleton, ← List.length_map (f := FileChange.path)]
    generalize t.entries.map FileChange.path = ps
    rcases Nat.lt_trichotomy i ps.length with hi | rfl | hi
    · rw [List.getElem?_append_left hi]
      simp [Nat.ne_of_lt hi]
    · simp [eq_comm]
    · rw [List.getElem?_eq_none (by simp; omega), List.getElem?_eq_none (by omega)]
      simp [Nat.ne_of_gt hi]
  rw [hlast, ← h p i, List.lookup_cons]
  by_cases hp : p = c.path
  · subst hp
    simp [hnone, eq_comm]
  · simp [beq_eq_false_iff_ne.mpr hp, hp]

/-- The table of a set, with a true index. -/
structure Indexes (t : Table) (s : DiffSet) : Prop where
  entries : t.entries = s.entries
  inverse : t.Inverse

theorem Indexes.empty : Indexes ⟨[], []⟩ .empty := ⟨rfl, inverse_empty⟩

theorem Indexes.lookup (h : t.Indexes s) (p : String) (i : Nat) :
    t.places.lookup p = some i ↔ s.paths[i]? = some p := by
  rw [h.inverse, h.entries]
  rfl

theorem Indexes.lookup_none (h : t.Indexes s) :
    t.places.lookup p = none ↔ s.contains p = false := by
  rw [DiffSet.contains_eq_false, Option.eq_none_iff_forall_ne_some, List.mem_iff_getElem?]
  simp only [ne_eq, h.lookup, not_exists]

theorem Indexes.push (h : t.Indexes s) (hnew : s.contains c.path = false) :
    Indexes ⟨t.entries ++ [c], (c.path, t.entries.length) :: t.places⟩ (s.push c hnew) :=
  ⟨congrArg (· ++ [c]) h.entries, h.inverse.push (h.lookup_none.mpr hnew)⟩

theorem Indexes.upsert (h : t.Indexes s) (c : FileChange) :
    ∃ t', t.upsert c = .ok t' ∧ t'.Indexes (s.insert c) := by
  rw [Table.upsert, DiffSet.insert]
  cases hlookup : t.places.lookup c.path with
  | none =>
    have hnew := h.lookup_none.mp hlookup
    rw [dif_pos hnew]
    exact ⟨_, rfl, h.push hnew⟩
  | some i =>
    have hold : ¬ s.contains c.path = false := by
      rw [← h.lookup_none, hlookup]
      simp
    have hi := (h.lookup _ _).mp hlookup
    have hlt : i < t.entries.length := by
      have := (List.getElem?_eq_some_iff.mp hi).1
      rwa [DiffSet.paths, List.length_map, ← h.entries] at this
    rw [dif_neg hold]
    dsimp only
    rw [if_pos hlt]
    have hentries : t.entries.set i c = (s.replace c).entries := by
      rw [DiffSet.entries_replace_at hi, h.entries]
    refine ⟨_, rfl, hentries, h.inverse.congr ?_⟩
    rw [hentries, h.entries]
    exact DiffSet.paths_replace

theorem Indexes.get (h : t.Indexes s) (p : String) :
    (t.get p : Checked ε (Option FileChange)) = .ok (s.get? p) := by
  rw [Table.get]
  cases hlookup : t.places.lookup p with
  | none =>
    rw [DiffSet.get?_eq_none.mpr (h.lookup_none.mp hlookup)]
  | some i =>
    have hi := (h.lookup _ _).mp hlookup
    rw [DiffSet.paths, List.getElem?_map, ← h.entries] at hi
    obtain ⟨c, hc, rfl⟩ := Option.map_eq_some_iff.mp hi
    dsimp only
    rw [hc, DiffSet.get?_of_mem (h.entries ▸ List.mem_of_getElem? hc)]

theorem Indexes.contains (h : t.Indexes s) (p : String) : t.contains p = s.contains p := by
  rw [Bool.eq_iff_iff, Table.contains, ← not_iff_not, Bool.not_eq_true, Bool.not_eq_true,
    Option.isSome_eq_false_iff, Option.isNone_iff_eq_none, h.lookup_none]

theorem Indexes.addNew_fresh (h : t.Indexes s) (hnew : s.contains c.path = false) :
    ∃ t', t.addNew c = .ok t' ∧ t'.Indexes (s.push c hnew) := by
  have hnone : s.get? c.path = none := DiffSet.get?_eq_none.mpr hnew
  refine ⟨_, ?_, h.push hnew⟩
  rw [addNew, h.get, hnone]
  rfl

theorem Inverse.merge (h : t.Inverse) {line : Nat} (hmerge : t.merge line c = .ok t') :
    t'.Inverse := by
  have hadd : t.add line c = .ok t' → t'.Inverse := by
    intro hadd
    rw [add] at hadd
    split at hadd
    · cases hadd
    next hnone =>
      rw [Bool.not_eq_true, Option.isSome_eq_false_iff, Option.isNone_iff_eq_none] at hnone
      rw [Table.upsert, hnone] at hadd
      cases hadd
      exact h.push hnone
  rw [Table.merge] at hmerge
  split at hmerge
  next last hlast =>
    split at hmerge
    next hpair =>
      cases hmerge
      apply h.congr
      obtain ⟨es, hes⟩ := List.getLast?_eq_some_iff.mp hlast
      rw [hes, List.dropLast_concat, List.map_append, List.map_append]
      rfl
    next => exact hadd hmerge
  next => exact hadd hmerge

end Diff.Checked.Table

namespace Diff.Checked

variable {contextLine : Bool} {t : Table} {r r' : Progress} {text : String}

theorem Progress.inverse_close (h : r.table.Inverse) (hclose : r.close contextLine = .ok t) :
    t.Inverse := by
  rw [Progress.close] at hclose
  split at hclose
  next o _ =>
    cases hread : o.read contextLine with
    | error e =>
      rw [hread] at hclose
      cases hclose
    | ok c =>
      rw [hread] at hclose
      exact h.merge hclose
  next =>
    cases hclose
    exact h

theorem Progress.inverse_feed {l : Text.Line} (h : r.table.Inverse)
    (hfeed : r.feed contextLine l = .ok r') : r'.table.Inverse := by
  rw [Progress.feed] at hfeed
  split at hfeed
  next names _ =>
    cases hclose : r.close contextLine with
    | error e =>
      rw [hclose] at hfeed
      cases hfeed
    | ok t =>
      rw [hclose, ok_bind] at hfeed
      cases hopen : Opened.ofMarker l.number names with
      | error e =>
        rw [hopen] at hfeed
        cases hfeed
      | ok o =>
        rw [hopen] at hfeed
        cases hfeed
        exact r.inverse_close h hclose
  next =>
    cases hfeed
    exact h

/-- Whatever a document does to its table, the index stays true. -/
theorem inverse_parse (hparse : parse contextLine text = .ok t) : t.Inverse := by
  have hrun : ∀ (ls : List Text.Line) (r : Progress), r.table.Inverse →
      ∀ r', ls.foldlM (Progress.feed contextLine) r = .ok r' → r'.table.Inverse := by
    intro ls
    induction ls with
    | nil =>
      intro r h r' hr
      cases hr
      exact h
    | cons l ls ih =>
      intro r h r' hr
      rw [List.foldlM_cons] at hr
      cases hfeed : r.feed contextLine l with
      | error e =>
        rw [hfeed] at hr
        cases hr
      | ok r₁ =>
        rw [hfeed] at hr
        exact ih r₁ (r.inverse_feed h hfeed) r' hr
  rw [parse] at hparse
  cases hread : (Text.number 1 (Text.lines text.toList)).foldlM (Progress.feed contextLine)
      ⟨⟨[], []⟩, none⟩ with
  | error e =>
    rw [hread] at hparse
    cases hparse
  | ok r =>
    rw [hread] at hparse
    exact r.inverse_close (hrun _ _ Table.inverse_empty _ hread) hparse

structure Table.Agrees (t : Table) (s : DiffSet) : Prop where
  entries : t.entries = s.entries
  get : ∀ p, (t.get p : Checked Malformed (Option FileChange)) = .ok (s.get? p)
  found : ∀ p c, s.get? p = some c ↔ c ∈ s.entries ∧ c.path = p
  contains : ∀ p, t.contains p = s.contains p
  present : ∀ p, s.contains p = true ↔ p ∈ s.paths

example : (DiffSet.ofList [.plain "a" .addition, .plain "b" .deletion,
    .plain "a" .modification]).entries = [.plain "a" .modification, .plain "b" .deletion] := by
  decide

end Diff.Checked

end SourceDelta
