import SourceDelta.Proofs.Coalescing

/-!
# Binary entries

A section that says its file is binary states no lines, so a change read from one
section has no runs if it is binary. An entry of a set is binary and has runs exactly
when it is a deletion and the addition behind it, one of which is binary and the other
has the runs.
-/

set_option autoImplicit false

namespace SourceDelta.Diff
open SourceDelta.Text

variable {contextLine : Bool} {p : String} {parts : List String} {s : Section}
  {c d a e : FileChange} {set : DiffSet}

theorem runs_of_binary (hread : s.read contextLine = .ok c) (hbinary : c.binary = true) :
    c.runs = [] := by
  obtain ⟨old, new, -, h⟩ := read_eq_ok.mp hread
  split at h
  next =>
    rw [h, Section.header, readHeader_runs]
    rfl
  next hheader =>
    obtain ⟨hs, -, rfl⟩ := h
    exact absurd hbinary hheader

theorem ReadsAlone.runs_of_binary (hc : ReadsAlone contextLine p c) (hp : OneSection p)
    (hbinary : c.binary = true) : c.runs = [] := by
  obtain ⟨s, hs, -⟩ := hp.section
  exact Diff.runs_of_binary ((readsAlone_iff hs).mp hc) hbinary

/-- An entry is what one part states, or what a deletion and the addition right behind it make. -/
theorem JoinAs.entry (h : JoinAs contextLine parts set) (he : e ∈ set.entries) :
    (∃ p ∈ parts, ReadsAlone contextLine p e) ∨ ∃ before pd pa after d a,
      parts = before ++ pd :: pa :: after ∧ Pair contextLine pd pa d a ∧ e = d.coalesce a := by
  obtain ⟨cs, hcs, hfold⟩ := h
  obtain ⟨gs, rfl, hgs⟩ := DiffSet.foldlM_absorb?.mp hfold
  obtain ⟨es, es', hentries⟩ := List.append_of_mem he
  rw [hentries] at hgs
  obtain ⟨gs, _, rfl, -, hgs'⟩ := forall₂_append_right hgs
  obtain ⟨g, gs', hg, -, rfl⟩ := List.forall₂_cons_right_iff.mp hgs'
  rw [List.flatten_append, List.flatten_cons] at hcs
  obtain ⟨before, parts', rfl, -, hparts'⟩ := forall₂_append_right hcs
  cases hg with
  | one =>
    obtain ⟨p, after, hp, -, rfl⟩ := List.forall₂_cons_right_iff.mp hparts'
    exact .inl ⟨p, List.mem_append_right _ List.mem_cons_self, hp⟩
  | @pair d a hpath hd ha =>
    obtain ⟨pd, _, hpd, hrest, rfl⟩ := List.forall₂_cons_right_iff.mp hparts'
    obtain ⟨pa, after, hpa, -, rfl⟩ := List.forall₂_cons_right_iff.mp hrest
    exact .inr ⟨before, pd, pa, after, d, a, rfl, ⟨hpd, hpa, hd, ha, hpath.symm⟩, rfl⟩

/-- A change of one section has no runs if it is binary. An entry of a set has them nonetheless if
and only if it is a deletion and the addition right behind it, of which one is binary and the other
has runs. -/
theorem binary_with_runs_iff (contextLine : Bool) :
    (∀ p c, OneSection p → ReadsAlone contextLine p c → c.binary = true → c.runs = []) ∧
    ∀ text set e, parse contextLine text = .ok set → e ∈ set.entries →
      (e.binary = true ∧ e.runs ≠ [] ↔ ∃ lead before pd pa after d a,
        Parted text lead (before ++ pd :: pa :: after) ∧ Pair contextLine pd pa d a ∧
        d.path = e.path ∧ (d.binary = true ∧ a.runs ≠ [] ∨ d.runs ≠ [] ∧ a.binary = true)) := by
  refine ⟨fun p c hp hc => hc.runs_of_binary hp, fun text set e hset he => ⟨?_, ?_⟩⟩
  · rintro ⟨hbinary, hruns⟩
    obtain ⟨start, parts, -, hparts⟩ := exists_parted text
    rcases (hparts.parse_eq_ok.mp hset).entry he with
      ⟨p, hp, hc⟩ | ⟨before, pd, pa, after, d, a, rfl, hpair, rfl⟩
    · exact absurd (hc.runs_of_binary (hparts.parts p hp) hbinary) hruns
    · refine ⟨_, before, pd, pa, after, d, a, hparts, hpair, rfl, ?_⟩
      have hsides : d.binary = true ∨ a.binary = true := (Bool.or_eq_true _ _).mp hbinary
      have hsome : ¬ (d.runs = [] ∧ a.runs = []) := fun h => hruns (List.append_eq_nil_iff.mpr h)
      rcases hsides with hd | ha
      · have hnone := hpair.deleted.runs_of_binary (hparts.parts pd (by simp)) hd
        exact .inl ⟨hd, fun h => hsome ⟨hnone, h⟩⟩
      · have hnone := hpair.added.runs_of_binary (hparts.parts pa (by simp)) ha
        exact .inr ⟨fun h => hsome ⟨h, hnone⟩, ha⟩
  · rintro ⟨lead, before, pd, pa, after, d, a, hparts, hpair, hpath, hsides⟩
    obtain ⟨_, _, _, -, -, hmore⟩ := (hparts.parse_eq_ok.mp hset).pair hpair
    obtain rfl : d.coalesce a = e := DiffSet.eq_of_path hmore.mem he hpath
    rcases hsides with ⟨hd, ha⟩ | ⟨hd, ha⟩
    · exact ⟨(Bool.or_eq_true _ _).mpr (.inl hd), List.append_ne_nil_of_right_ne_nil _ ha⟩
    · exact ⟨(Bool.or_eq_true _ _).mpr (.inr ha), List.append_ne_nil_of_left_ne_nil hd _⟩

def textDeletion : List (List Char) :=
  ["diff --git a/k b/k", "deleted file mode 100644", "index 1111111..0000000", "@@ -1 +0,0 @@",
    "-a"].map String.toList

def binaryAddition : List (List Char) :=
  ["diff --git a/k b/k", "new file mode 100644", "index 0000000..2222222",
    "Binary files /dev/null and b/k differ"].map String.toList

theorem pair_of_replaced : Pair true (textOf textDeletion) (textOf binaryAddition)
    { FileChange.plain "k" .deletion with
      permissions := some ⟨0o644⟩
      runs := [⟨.deleted, 1, "a"⟩] }
    { FileChange.plain "k" .addition with
      permissions := some ⟨0o644⟩
      binary := true } :=
  ⟨(readsAlone_textOf (by decide) rfl).mpr rfl, (readsAlone_textOf (by decide) rfl).mpr rfl, rfl,
    rfl, rfl⟩

theorem binary_with_runs_of_replaced : ∃ set, ∃ e ∈ set.entries,
    parse true (textOf (textDeletion ++ binaryAddition)) = .ok set ∧ e.path = "k" ∧
      e.runs = [⟨.deleted, 1, "a"⟩] ∧ e.binary = true ∧ e.runs ≠ [] := by
  have hparts : Parted (textOf (textDeletion ++ binaryAddition)) []
      ([] ++ textOf textDeletion :: textOf binaryAddition :: []) :=
    parted_textOf [textDeletion, binaryAddition] (by decide) fun g hg => by
      rcases List.mem_pair.mp hg with rfl | rfl
      · exact ⟨_, _, rfl, by decide, by decide⟩
      · exact ⟨_, _, rfl, by decide, by decide⟩
  have hpair := pair_of_replaced
  obtain ⟨set, hset⟩ : ∃ set, parse true (textOf (textDeletion ++ binaryAddition)) = .ok set :=
    ⟨_, hparts.parse_eq_ok.mpr ⟨_, .cons hpair.deleted (.cons hpair.added .nil), rfl⟩⟩
  obtain ⟨_, _, _, -, -, hmore⟩ := (hparts.parse_eq_ok.mp hset).pair hpair
  have hboth := ((binary_with_runs_iff true).2 _ set _ hset hmore.mem).mpr
    ⟨[], [], _, _, [], _, _, hparts, hpair, rfl, .inr ⟨List.cons_ne_nil _ _, rfl⟩⟩
  exact ⟨set, _, hmore.mem, hset, rfl, rfl, hboth⟩

end SourceDelta.Diff
