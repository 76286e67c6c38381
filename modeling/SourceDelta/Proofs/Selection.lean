import Mathlib.Algebra.Order.BigOperators.Group.List
import Mathlib.Algebra.Order.Ring.Nat
import SourceDelta.Proofs.LineAccounting
import SourceDelta.Proofs.Parts
import SourceDelta.Strategy

/-!
# Selected changes

A filter answers with the paths of the changes that it selects. A filter for
changed files selects a modification when it counts an added or a deleted line
in it, or knows no lines of it at all. Its counts are lines of the diff, so they
fit their words unless the diff is longer than any word can say.
-/

set_option autoImplicit false

namespace SourceDelta

namespace Run

variable {p : LineKind → Bool} {rs : List Run}

theorem total_flatMap {α : Type} (p : LineKind → Bool) (f : α → List Run) (as : List α) :
    total p (as.flatMap f) = (as.map fun a => total p (f a)).sum := by
  rw [← countP_kinds, kinds, List.flatMap_assoc, List.countP_flatMap]
  exact congrArg List.sum (List.map_congr_left fun a _ => countP_kinds p (f a))

theorem total_changed (rs : List Run) :
    total LineKind.changed rs = total (· == .added) rs + total (· == .deleted) rs := by
  rw [← countP_kinds, ← countP_kinds, ← countP_kinds]
  induction kinds rs with
  | nil => rfl
  | cons k ks ih =>
    rw [List.countP_cons, List.countP_cons, List.countP_cons, ih]
    cases k <;> simp [LineKind.changed] <;> omega

theorem total_changed_eq_zero : total LineKind.changed rs = 0 ↔
    ∀ k ∈ kinds rs, k.changed = false := by
  rw [← countP_kinds, List.countP_eq_zero]
  simp

end Run

namespace Filter

variable {p : LineKind → Bool} {rs : List Run} {b : Bool} {c : FileChange} {f : Filter}
  {s : DiffSet} {ps : List String} {path : String}

theorem hasLines?_eq_some : hasLines? p rs = some b ↔
    Run.total p rs < 2 ^ 32 ∧ (b = true ↔ Run.total p rs ≠ 0) := by
  rw [hasLines?, Option.map_eq_some_iff]
  constructor
  · rintro ⟨n, hn, rfl⟩
    have htotal := Run.total?_eq_some.mp hn
    have hzero : n = 0 ↔ n.toNat = 0 := UInt32.toNat_inj.symm
    rw [htotal, decide_eq_true_eq, ne_eq, ne_eq, hzero]
    exact ⟨n.toNat_lt, Iff.rfl⟩
  · rintro ⟨hfits, hb⟩
    have hword := UInt32.toNat_ofNat_of_lt' hfits
    refine ⟨_, Run.total?_eq_some.mpr hword.symm, ?_⟩
    rw [Bool.eq_iff_iff, hb, decide_eq_true_eq, ne_eq, ← UInt32.toNat_inj, hword]
    rfl

theorem selects?_modification (hk : c.kind = .modification)
    (h : changedOnly.selects? c = some b) :
    b = true ↔ c.binary = true ∨ 0 < Run.total LineKind.changed c.runs := by
  rw [selects?, hk] at h
  dsimp only at h
  cases hbinary : c.binary with
  | true =>
    rw [hbinary, if_pos rfl] at h
    cases h
    simp
  | false =>
    rw [hbinary, if_neg Bool.false_ne_true] at h
    obtain ⟨added, hadded, h⟩ := Option.bind_eq_some_iff.mp h
    have hadd := (hasLines?_eq_some.mp hadded).2
    rw [Run.total_changed]
    cases added with
    | true =>
      cases h
      have hne := hadd.mp rfl
      exact iff_of_true rfl (.inr (by omega))
    | false =>
      rw [if_neg Bool.false_ne_true] at h
      have hdel := (hasLines?_eq_some.mp h).2
      have hnone : Run.total (· == .added) c.runs = 0 := by simpa using hadd
      rw [hdel, hnone]
      simp [Nat.pos_iff_ne_zero]

theorem exists_selects? (h : Run.total LineKind.changed c.runs < 2 ^ 32) :
    ∃ b, changedOnly.selects? c = some b := by
  rw [Run.total_changed] at h
  have hhas : ∀ p, Run.total p c.runs < 2 ^ 32 →
      hasLines? p c.runs = some (decide (Run.total p c.runs ≠ 0)) :=
    fun p hp => hasLines?_eq_some.mpr ⟨hp, by simp⟩
  rw [selects?, hhas (· == .added) (by omega), hhas (· == .deleted) (by omega)]
  cases c.kind with
  | addition => exact ⟨_, rfl⟩
  | deletion => exact ⟨_, rfl⟩
  | modification =>
    dsimp only
    split
    · exact ⟨_, rfl⟩
    · rw [Option.bind_eq_bind, Option.bind_some]
      split <;> exact ⟨_, rfl⟩

theorem filterAuxM_eq_some {cs chosen out : List FileChange}
    (h : cs.filterAuxM f.selects? chosen = some out) :
    (∀ c ∈ cs, ∃ b, f.selects? c = some b) ∧
      ∀ c, c ∈ out ↔ c ∈ chosen ∨ c ∈ cs ∧ f.selects? c = some true := by
  induction cs generalizing chosen with
  | nil =>
    cases h
    simp
  | cons x cs ih =>
    rw [List.filterAuxM] at h
    obtain ⟨b, hb, h⟩ := Option.bind_eq_some_iff.mp h
    obtain ⟨hcs, hout⟩ := ih h
    refine ⟨List.forall_mem_cons.mpr ⟨⟨b, hb⟩, hcs⟩, fun c => ?_⟩
    rw [hout, List.mem_cons]
    cases b with
    | true =>
      rw [cond_true, List.mem_cons]
      constructor
      · rintro ((rfl | hc) | ⟨hc, hs⟩)
        · exact .inr ⟨.inl rfl, hb⟩
        · exact .inl hc
        · exact .inr ⟨.inr hc, hs⟩
      · rintro (hc | ⟨rfl | hc, hs⟩)
        · exact .inl (.inr hc)
        · exact .inl (.inl rfl)
        · exact .inr ⟨hc, hs⟩
    | false =>
      rw [cond_false]
      refine or_congr_right ⟨fun ⟨hc, hs⟩ => ⟨.inr hc, hs⟩, ?_⟩
      rintro ⟨rfl | hc, hs⟩
      · rw [hb] at hs
        cases hs
      · exact ⟨hc, hs⟩

theorem exists_filterAuxM {cs : List FileChange} (h : ∀ c ∈ cs, ∃ b, f.selects? c = some b)
    (chosen : List FileChange) : ∃ out, cs.filterAuxM f.selects? chosen = some out := by
  induction cs generalizing chosen with
  | nil => exact ⟨chosen, rfl⟩
  | cons x cs ih =>
    obtain ⟨⟨b, hb⟩, hcs⟩ := List.forall_mem_cons.mp h
    rw [List.filterAuxM, hb]
    exact ih hcs _

theorem select?_eq_some (h : f.select? s = some ps) (path : String) :
    (∀ c ∈ s.entries, ∃ b, f.selects? c = some b) ∧
      (path ∈ ps ↔ ∃ c ∈ s.entries, c.path = path ∧ f.selects? c = some true) := by
  rw [select?] at h
  obtain ⟨chosen, hchosen, hps⟩ := Option.bind_eq_some_iff.mp h
  cases hps
  rw [List.filterM] at hchosen
  obtain ⟨out, hout, hrev⟩ := Option.bind_eq_some_iff.mp hchosen
  cases hrev
  obtain ⟨hall, hmem⟩ := filterAuxM_eq_some hout
  refine ⟨hall, ?_⟩
  rw [List.mem_map]
  refine exists_congr fun c => ?_
  rw [List.mem_reverse, hmem]
  simp only [List.not_mem_nil, false_or]
  exact ⟨fun ⟨⟨hc, hs⟩, hp⟩ => ⟨hc, hp, hs⟩, fun ⟨hc, hp, hs⟩ => ⟨⟨hc, hs⟩, hp⟩⟩

theorem exists_select? (h : ∀ c ∈ s.entries, ∃ b, f.selects? c = some b) :
    ∃ ps, f.select? s = some ps := by
  obtain ⟨out, hout⟩ := exists_filterAuxM h []
  rw [select?, List.filterM, hout]
  exact ⟨_, rfl⟩

end Filter

namespace Diff
open SourceDelta.Text
open SourceDelta.DiffSet (Share)

variable {contextLine : Bool} {covered : Nat} {h : Hunk} {hs : List Hunk} {b : Block}
  {ls : List Line} {s : Section} {c e : FileChange} {g : List FileChange} {text : String}
  {set : DiffSet} {r : Run}

theorem sum_map_le {α β : Type} {R : α → β → Prop} {f : α → Nat} {g : β → Nat} {as : List α}
    {bs : List β} (h : List.Forall₂ R as bs) (hle : ∀ a b, R a b → g b ≤ f a) :
    (bs.map g).sum ≤ (as.map f).sum := by
  refine List.Forall₂.sum_le_sum ?_
  rw [List.forall₂_map_left_iff, List.forall₂_map_right_iff]
  exact h.flip.imp fun b a hab => hle a b hab

theorem length_sections (ls : List Line) :
    (sections ls).1.length + ((sections ls).2.map (·.body.length)).sum ≤ ls.length := by
  induction ls with
  | nil => exact Nat.le_refl 0
  | cons l ls ih =>
    rw [sections]
    dsimp only
    split <;> simp only [List.map_cons, List.sum_cons, List.length_cons, List.length_nil] <;> omega

theorem length_blocks (ls : List Line) :
    (blocks ls).1.length + ((blocks ls).2.map (·.rest.length)).sum ≤ ls.length := by
  induction ls with
  | nil => exact Nat.le_refl 0
  | cons l ls ih =>
    rw [blocks]
    dsimp only
    split <;> simp only [List.map_cons, List.sum_cons, List.length_cons, List.length_nil] <;> omega

theorem length_number (n : Nat) (ts : List (List Char)) : (number n ts).length = ts.length := by
  induction ts generalizing n with
  | nil => rfl
  | cons t ts ih => rw [number, List.length_cons, ih, List.length_cons]

theorem Block.Holds.length_body (hb : b.Holds h) : h.body.length ≤ b.rest.length := by
  obtain ⟨p, hp, hbody⟩ := hb.body
  rw [hbody, spelled, List.length_map]
  exact Nat.le_trans (List.length_filter_le _ _) hp.start.length_le

theorem countP_changed_allLines (hs : List Hunk) :
    (Hunk.allLines contextLine covered hs).countP (·.1.changed) ≤
      (hs.map (·.body.length)).sum := by
  induction hs generalizing covered with
  | nil => exact Nat.le_refl 0
  | cons h hs ih =>
    have hgap : (h.gapLines contextLine covered).countP (·.1.changed) = 0 := by
      rw [Hunk.gapLines]
      split <;> simp [List.countP_replicate, LineKind.changed]
    rw [Hunk.allLines, List.countP_append, List.countP_append, hgap, Nat.zero_add, List.map_cons,
      List.sum_cons]
    exact Nat.add_le_add List.countP_le_length ih

theorem readHeader_runs (old : String) (c : FileChange) (ls : List Line) :
    (readHeader old c ls).runs = c.runs := by
  induction ls generalizing c with
  | nil => rfl
  | cons l ls ih =>
    rw [readHeader]
    split <;> first | rfl | rw [ih]

theorem count_pos_group {ls : List (LineKind × List Char)}
    (hfits : ∀ k, ls.countP (·.1 = k) < 2 ^ 32) (hr : r ∈ Run.group ls) : 0 < r.count.toNat := by
  obtain ⟨x, hx, rfl⟩ := List.mem_map.mp hr
  have hcount : (Run.ofLines x.1 x.2).count.toNat = x.2.length :=
    UInt32.toNat_ofNat_of_lt' (Nat.lt_of_le_of_lt (Run.length_cluster hx) (hfits x.1))
  rw [hcount]
  exact List.length_pos_iff.mpr (Run.clusters_ne_nil hx)

theorem count_pos_runs (hb : h.Balanced) (hr : r ∈ h.runs contextLine covered) :
    0 < r.count.toNat := by
  have hgap := Hunk.gap_lt covered h
  have hgaps : ∀ n, n ≤ h.gap covered → r ∈ Hunk.gapRuns n → 0 < r.count.toNat :=
    fun n hn hr => (Hunk.counted_gapRuns (by omega) hr).pos
  rw [Hunk.runs] at hr
  split at hr
  next hquotes =>
    rcases List.mem_append.mp hr with hr | hr
    · exact hgaps _ (Nat.sub_le _ _) hr
    · exact count_pos_group (hb.fits_context hquotes) hr
  next =>
    rcases List.mem_append.mp hr with hr | hr
    · exact hgaps _ le_rfl hr
    · exact count_pos_group hb.fits hr

theorem count_pos_allRuns (hb : ∀ h ∈ hs, h.Balanced) (hr : r ∈ Hunk.allRuns contextLine covered hs) :
    0 < r.count.toNat := by
  induction hs generalizing covered with
  | nil => cases hr
  | cons h hs ih =>
    obtain ⟨hh, hhs⟩ := List.forall_mem_cons.mp hb
    rcases List.mem_append.mp hr with hr | hr
    · exact count_pos_runs hh hr
    · exact ih hhs hr

theorem runs_of_read (hread : s.read contextLine = .ok c) : c.runs = [] ∨
    ∃ hs, Hunk.ofBlocks s.line (blocks s.body).2 = .ok hs ∧
      c.runs = Hunk.allRuns contextLine 0 hs := by
  obtain ⟨old, new, -, h⟩ := read_eq_ok.mp hread
  split at h
  next =>
    rw [h, Section.header, readHeader_runs]
    exact .inl rfl
  next =>
    obtain ⟨hs, hhunks, rfl⟩ := h
    exact .inr ⟨hs, hhunks, rfl⟩

theorem total_changed_read (hread : s.read contextLine = .ok c) :
    Run.total LineKind.changed c.runs ≤ s.body.length := by
  rcases runs_of_read hread with hruns | ⟨hs, hhunks, hruns⟩
  · rw [hruns]
    exact Nat.zero_le _
  · have hlines := @countP_changed_allLines contextLine 0 hs
    have hbodies := sum_map_le (holds_of_ofBlocks hhunks) fun b h => Block.Holds.length_body
    have hblocks := length_blocks s.body
    rw [hruns, Hunk.total_allRuns (balanced_of_ofBlocks hhunks)]
    omega

/-- The runs of an entry are those of its share. -/
theorem runs_of_share (h : Share g e) : e.runs = g.flatMap FileChange.runs := by
  cases h with
  | one => simp
  | pair => simp [FileChange.coalesce]

theorem total_changed_parse (hparse : parse contextLine text = .ok set) (he : e ∈ set.entries) :
    Run.total LineKind.changed e.runs ≤ (lines text.toList).length := by
  obtain ⟨cs, hread, hfold⟩ := parse_eq_ok.mp hparse
  obtain ⟨gs, rfl, hshare⟩ := DiffSet.foldlM_absorb?.mp hfold
  let total (c : FileChange) : Nat := Run.total LineKind.changed c.runs
  have hentries : (set.entries.map total).sum ≤ (gs.map fun g => (g.map total).sum).sum :=
    sum_map_le hshare fun g c hg => by
      simp only [total, runs_of_share hg, Run.total_flatMap, le_refl]
  have hflat : (gs.map fun g => (g.map total).sum).sum = (gs.flatten.map total).sum := by
    rw [List.map_flatten, List.sum_flatten, List.map_map]
    rfl
  have hchanges : (gs.flatten.map total).sum ≤
      ((sections (number 1 (lines text.toList))).2.map (·.body.length)).sum :=
    sum_map_le hread fun s c hc => total_changed_read hc
  have hsections := length_sections (number 1 (lines text.toList))
  rw [length_number] at hsections
  have hmem : total e ≤ (set.entries.map total).sum :=
    List.le_sum_of_mem (List.mem_map_of_mem he)
  exact hmem.trans (by omega)

/-- A filter for changed files has an answer for every diff whose lines a word can count. -/
theorem exists_changedOnly (hparse : parse contextLine text = .ok set)
    (hlines : (lines text.toList).length < 2 ^ 32) :
    ∃ ps, Filter.changedOnly.select? set = some ps :=
  Filter.exists_select? fun _ hc =>
    Filter.exists_selects? (Nat.lt_of_le_of_lt (total_changed_parse hparse hc) hlines)

theorem count_pos_of_parse (hparse : parse contextLine text = .ok set) (he : e ∈ set.entries)
    (hr : r ∈ e.runs) : 0 < r.count.toNat := by
  obtain ⟨cs, hread, hfold⟩ := parse_eq_ok.mp hparse
  obtain ⟨gs, rfl, hshare⟩ := DiffSet.foldlM_absorb?.mp hfold
  obtain ⟨g, hg, hge⟩ := exists_of_forall₂ hshare.flip he
  rw [runs_of_share hge] at hr
  obtain ⟨c, hc, hr⟩ := List.mem_flatMap.mp hr
  obtain ⟨s, -, hread⟩ := exists_of_forall₂ hread.flip (List.mem_flatten_of_mem hg hc)
  rcases runs_of_read hread with hruns | ⟨hs, hhunks, hruns⟩
  · rw [hruns] at hr
    cases hr
  · rw [hruns] at hr
    exact count_pos_allRuns (balanced_of_ofBlocks hhunks) hr

end Diff

end SourceDelta
