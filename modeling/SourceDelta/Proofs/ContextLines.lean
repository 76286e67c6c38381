import SourceDelta.Proofs.HunkGrammar
import SourceDelta.Proofs.LineByLine
import SourceDelta.Strategy

/-!
# Context lines do not matter

The text after a hunk header may stand for a line that stays or be left out. The
runs differ, but only in what they quote of lines that stay: whatever is asked of
a diff, its totals, its changed text, the places of lines, verdicts and selected
paths, has one answer. A walk that leaves the 32-bit words has none.
-/

set_option autoImplicit false

namespace SourceDelta
open SourceDelta.Text

/-- The runs say the same of every line, except for what they quote of lines that stay. -/
structure Alike (rs rs' : List Run) : Prop where
  kinds : (Run.kinds rs).map LineKind.quoted = (Run.kinds rs').map LineKind.quoted
  changed : rs.filter (·.kind.changed) = rs'.filter (·.kind.changed)

variable {d : Direction} {r : Run} {rs rs' us us' : List Run} {line : UInt32} {p p' : Position}
  {c c' : FileChange} {a b : DiffSet}

theorem Alike.refl (rs : List Run) : Alike rs rs := ⟨rfl, rfl⟩

theorem Alike.append (h : Alike rs rs') (h' : Alike us us') : Alike (rs ++ us) (rs' ++ us') := by
  refine ⟨?_, ?_⟩
  · rw [Run.kinds_append, Run.kinds_append, List.map_append, List.map_append, h.kinds, h'.kinds]
  · rw [List.filter_append, List.filter_append, h.changed, h'.changed]

theorem Alike.total? (h : Alike rs rs') {side : LineKind → Bool}
    (hside : ∀ k, side k.quoted = side k) : Run.total? side rs = Run.total? side rs' := by
  have hcount : ∀ us, Run.total side us = ((Run.kinds us).map LineKind.quoted).countP side := by
    intro us
    rw [LineKind.countP_quoted hside, Run.countP_kinds]
  ext w
  rw [Run.total?_eq_some, Run.total?_eq_some, hcount, hcount, h.kinds]

theorem quoted_inSource (d : Direction) (k : LineKind) : d.inSource k.quoted = d.inSource k := by
  cases d
  · exact k.quoted_inOld
  · exact k.quoted_inNew

theorem quoted_inTarget (d : Direction) (k : LineKind) : d.inTarget k.quoted = d.inTarget k := by
  cases d
  · exact k.quoted_inNew
  · exact k.quoted_inOld

theorem Alike.kindAt (h : Alike rs rs') {side : LineKind → Bool}
    (hside : ∀ k, side k.quoted = side k) (i : Nat) :
    side (Run.kindAt rs i) = side (Run.kindAt rs' i) := by
  have hquoted : ∀ us, (Run.kindAt us i).quoted =
      ((Run.kinds us).map LineKind.quoted).getD i LineKind.unmodified.quoted := by
    intro us
    rw [List.getD_map, Run.kindAt]
  rw [← hside, ← hside (Run.kindAt rs' i), hquoted, hquoted, h.kinds]

theorem Alike.exactNumber (h : Alike rs rs') (d : Direction) (n : Nat) :
    Run.place d.inSource rs n = Run.place d.inSource rs' n ∧
      Run.exactNumber d rs n = Run.exactNumber d rs' n := by
  have hplace : Run.place d.inSource rs n = Run.place d.inSource rs' n := by
    simp only [Run.place, h.kindAt (quoted_inSource d)]
  refine ⟨hplace, ?_⟩
  rw [Run.exactNumber, Run.exactNumber, hplace]
  simp only [Run.before, h.kindAt (quoted_inTarget d)]

/-- Two walks that both come to an answer come to the same one. -/
theorem Alike.locate? (h : Alike rs rs') (hp : SourceDelta.locate? d rs line = some p)
    (hp' : SourceDelta.locate? d rs' line = some p') : p = p' := by
  by_cases hne : line = 0
  · subst hne
    exact (locate?_zero.mp hp).trans (locate?_zero.mp hp').symm
  obtain ⟨-, n, hn, rfl⟩ := (locate?_eq_some hne).mp hp
  obtain ⟨-, n', hn', rfl⟩ := (locate?_eq_some hne).mp hp'
  obtain ⟨hplace, hnumber⟩ := h.exactNumber d line.toNat
  rw [hnumber, ← hn'] at hn
  rw [hplace, h.kindAt (quoted_inTarget d), UInt32.toNat_inj.mp hn]

namespace Diff

namespace Hunk

variable {contextLine : Bool} {covered : Nat} {h : Hunk} {hs : List Hunk}

theorem filter_changed_gapRuns (n : Nat) : (gapRuns n).filter (·.kind.changed) = [] := by
  rw [gapRuns]
  split <;> rfl

theorem filter_changed_group (t : List Char) (ls : List (LineKind × List Char)) :
    (Run.group ((.unmodified, t) :: ls)).filter (·.kind.changed) =
      (Run.group ls).filter (·.kind.changed) := by
  rw [Run.group, Run.group, Run.clusters]
  cases Run.clusters ls with
  | nil => rfl
  | cons c cs =>
    obtain ⟨k, ts⟩ := c
    dsimp only
    split
    next hk =>
      subst hk
      rfl
    next => rfl

theorem filter_changed_runs : (h.runs contextLine covered).filter (·.kind.changed) =
    (Run.group h.body).filter (·.kind.changed) := by
  rw [runs]
  split
  next => rw [List.filter_append, filter_changed_gapRuns, filter_changed_group, List.nil_append]
  next => rw [List.filter_append, filter_changed_gapRuns, List.nil_append]

theorem alike_runs (hb : h.Balanced) : Alike (h.runs true covered) (h.runs false covered) := by
  refine ⟨?_, ?_⟩
  · rw [kinds_runs hb, kinds_runs hb]
    simp only [List.map_append, map_quoted_gapLines]
  · rw [filter_changed_runs, filter_changed_runs]

theorem alike_allRuns (hb : ∀ h ∈ hs, h.Balanced) :
    Alike (allRuns true covered hs) (allRuns false covered hs) := by
  induction hs generalizing covered with
  | nil => exact .refl _
  | cons h hs ih =>
    obtain ⟨hh, hhs⟩ := List.forall_mem_cons.mp hb
    exact (alike_runs hh).append (ih hhs)

end Hunk

end Diff

/-- The changes differ in what their runs quote of lines that stay. -/
structure Matches (c c' : FileChange) : Prop where
  rest : { c with runs := c'.runs } = c'
  runs : Alike c.runs c'.runs

theorem Matches.refl (c : FileChange) : Matches c c := ⟨rfl, .refl _⟩

theorem Matches.path (h : Matches c c') : c.path = c'.path := (congrArg FileChange.path h.rest :)

theorem Matches.kind (h : Matches c c') : c.kind = c'.kind := (congrArg FileChange.kind h.rest :)

theorem Matches.binary (h : Matches c c') : c.binary = c'.binary :=
  (congrArg FileChange.binary h.rest :)

theorem Matches.verdict (h : Matches c c') : c.verdict = c'.verdict :=
  (congrArg FileChange.verdict h.rest :)

theorem Matches.coalesce {last last' : FileChange} (hlast : Matches last last') (h : Matches c c') :
    Matches (last.coalesce c) (last'.coalesce c') := by
  refine ⟨?_, hlast.runs.append h.runs⟩
  rw [← hlast.rest, ← h.rest]
  rfl

inductive Parallel {ε α β : Type} (R : α → β → Prop) : Except ε α → Except ε β → Prop
  | error (e : ε) : Parallel R (.error e) (.error e)
  | ok {a : α} {b : β} (h : R a b) : Parallel R (.ok a) (.ok b)

theorem Parallel.bind {ε α β γ δ : Type} {R : α → β → Prop} {S : γ → δ → Prop} {x : Except ε α}
    {y : Except ε β} {f : α → Except ε γ} {g : β → Except ε δ} (h : Parallel R x y)
    (hfg : ∀ a b, R a b → Parallel S (f a) (g b)) : Parallel S (x >>= f) (y >>= g) := by
  cases h with
  | error e => exact .error e
  | ok hab => exact hfg _ _ hab

theorem Parallel.refl {ε α : Type} (x : Except ε α) : Parallel Eq x x := by
  cases x with
  | error e => exact .error e
  | ok a => exact .ok rfl

def MatchingSets (a b : DiffSet) : Prop := List.Forall₂ Matches a.entries b.entries

theorem MatchingSets.map_eq {α : Type} {f : FileChange → α} (h : MatchingSets a b)
    (hf : ∀ c c', Matches c c' → f c = f c') : a.entries.map f = b.entries.map f := by
  rw [← List.forall₂_eq_eq_eq, List.forall₂_map_left_iff, List.forall₂_map_right_iff]
  exact h.imp hf

theorem MatchingSets.paths (h : MatchingSets a b) : a.paths = b.paths :=
  h.map_eq fun _ _ hc => hc.path

theorem MatchingSets.verdicts (h : MatchingSets a b) :
    a.entries.map FileChange.verdict = b.entries.map FileChange.verdict :=
  h.map_eq fun _ _ hc => hc.verdict

theorem MatchingSets.contains (h : MatchingSets a b) (path : String) :
    a.contains path = b.contains path := by
  rw [Bool.eq_iff_iff, ← not_iff_not, Bool.not_eq_true, Bool.not_eq_true,
    DiffSet.contains_eq_false, DiffSet.contains_eq_false, h.paths]

theorem MatchingSets.replace (h : MatchingSets a b) (hc : Matches c c') :
    MatchingSets (a.replace c) (b.replace c') := by
  rw [MatchingSets, DiffSet.replace, DiffSet.mapEntries, DiffSet.replace, DiffSet.mapEntries,
    List.forall₂_map_left_iff, List.forall₂_map_right_iff]
  refine h.imp fun x y hxy => ?_
  rw [hxy.path, hc.path]
  split
  next => exact hc
  next => exact hxy

theorem MatchingSets.push (h : MatchingSets a b) (hc : Matches c c')
    (fresh : a.contains c.path = false) (fresh' : b.contains c'.path = false) :
    MatchingSets (a.push c fresh) (b.push c' fresh') :=
  List.rel_append h (.cons hc .nil)

theorem MatchingSets.add (h : MatchingSets a b) (hc : Matches c c') :
    Option.Rel MatchingSets
      (if h : a.contains c.path = false then some (a.push c h) else none)
      (if h : b.contains c'.path = false then some (b.push c' h) else none) := by
  have hsame : b.contains c'.path = a.contains c.path := by rw [h.contains, hc.path]
  by_cases hfresh : a.contains c.path = false
  · rw [dif_pos hfresh, dif_pos (hsame.trans hfresh)]
    exact .some (h.push hc _ _)
  · rw [dif_neg hfresh, dif_neg (hsame ▸ hfresh)]
    exact .none

theorem forall₂_getLast? {α β : Type} {R : α → β → Prop} {as : List α} {bs : List β}
    (h : List.Forall₂ R as bs) : Option.Rel R as.getLast? bs.getLast? := by
  induction h with
  | nil => exact .none
  | cons hab hrest ih =>
    cases hrest with
    | nil => exact .some hab
    | cons => rwa [List.getLast?_cons_cons, List.getLast?_cons_cons]

theorem MatchingSets.absorb? (h : MatchingSets a b) (hc : Matches c c') :
    Option.Rel MatchingSets (a.absorb? c) (b.absorb? c') := by
  have hlast := forall₂_getLast? h
  rw [DiffSet.absorb?, DiffSet.absorb?]
  generalize a.entries.getLast? = last, b.entries.getLast? = last' at hlast
  cases hlast with
  | none => exact h.add hc
  | @some last last' hlast =>
    have hjoins : (last.path = c.path ∧ last.kind = .deletion ∧ c.kind = .addition) ↔
        last'.path = c'.path ∧ last'.kind = .deletion ∧ c'.kind = .addition := by
      rw [hlast.path, hlast.kind, hc.path, hc.kind]
    dsimp only
    by_cases hj : last.path = c.path ∧ last.kind = .deletion ∧ c.kind = .addition
    · rw [if_pos hj, if_pos (hjoins.mp hj)]
      exact .some (h.replace (hlast.coalesce hc))
    · rw [if_neg hj, if_neg (mt hjoins.mpr hj)]
      exact h.add hc

namespace Diff

theorem read_matches (s : Section) : Parallel Matches (s.read true) (s.read false) := by
  rw [Section.read, Section.read]
  refine (Parallel.refl s.paths).bind fun names _ hnames => ?_
  subst hnames
  dsimp only
  split
  next => exact .ok (.refl _)
  next =>
    cases hhunks : Hunk.ofBlocks s.line (blocks s.body).2 with
    | error e => exact .error e
    | ok hs => exact .ok ⟨rfl, Hunk.alike_allRuns (balanced_of_ofBlocks hhunks)⟩

theorem absorb_matches (h : MatchingSets a b) (s : Section) :
    Parallel MatchingSets (absorb true a s) (absorb false b s) := by
  rw [absorb, absorb]
  refine (read_matches s).bind fun c c' hc => ?_
  have hset := h.absorb? hc
  generalize a.absorb? c = set, b.absorb? c' = set' at hset
  cases hset with
  | none =>
    rw [hc.path]
    exact .error _
  | some hset => exact .ok hset

theorem foldlM_matches (h : MatchingSets a b) (ss : List Section) :
    Parallel MatchingSets (ss.foldlM (absorb true) a) (ss.foldlM (absorb false) b) := by
  induction ss generalizing a b with
  | nil => exact .ok h
  | cons s ss ih =>
    rw [List.foldlM_cons, List.foldlM_cons]
    exact (absorb_matches h s).bind fun _ _ => ih

theorem parse_matches (text : String) :
    Parallel MatchingSets (parse true text) (parse false text) := by
  have hempty : MatchingSets .empty .empty := List.Forall₂.nil
  exact foldlM_matches hempty _

end Diff

theorem Matches.changedTexts (h : Matches c c') : c.changedTexts = c'.changedTexts :=
  congrArg (List.flatMap Run.texts) h.runs.changed

theorem Matches.classify? (k : Classifier) (h : Matches c c') : k.classify? c = k.classify? c' := by
  cases k with
  | disabled => rfl
  | heuristic files =>
    rw [Classifier.classify?, Classifier.classify?, h.path, h.binary, h.kind, h.changedTexts]

theorem Matches.annotate (k : Classifier) (h : Matches c c') :
    Matches { c with verdict := (k.classify? c).getD .change }
      { c' with verdict := (k.classify? c').getD .change } := by
  refine ⟨?_, h.runs⟩
  rw [h.classify? k, ← h.rest]

theorem MatchingSets.annotate (k : Classifier) (h : MatchingSets a b) :
    MatchingSets (k.annotate a) (k.annotate b) := by
  rw [MatchingSets, Classifier.annotate, DiffSet.mapEntries, Classifier.annotate,
    DiffSet.mapEntries, List.forall₂_map_left_iff, List.forall₂_map_right_iff]
  exact h.imp fun _ _ hc => hc.annotate k

theorem Matches.selects? (f : Filter) (h : Matches c c') : f.selects? c = f.selects? c' := by
  have hlines : ∀ side : LineKind → Bool, (∀ k, side k.quoted = side k) →
      Filter.hasLines? side c.runs = Filter.hasLines? side c'.runs := by
    intro side hside
    rw [Filter.hasLines?, Filter.hasLines?, h.runs.total? hside]
  cases f with
  | all => rfl
  | changedOnly =>
    rw [Filter.selects?, Filter.selects?, h.kind, h.binary,
      hlines (· == .added) LineKind.quoted_beq_added,
      hlines (· == .deleted) LineKind.quoted_beq_deleted]
  | globs patterns => rw [Filter.selects?, Filter.selects?, h.path]
  | variability => rw [Filter.selects?, Filter.selects?, h.verdict]

theorem filterAuxM_matches (f : Filter) {as bs chosen chosen' : List FileChange}
    (h : List.Forall₂ Matches as bs)
    (hchosen : chosen.map FileChange.path = chosen'.map FileChange.path) :
    (as.filterAuxM f.selects? chosen).map (List.map FileChange.path) =
      (bs.filterAuxM f.selects? chosen').map (List.map FileChange.path) := by
  induction h generalizing chosen chosen' with
  | nil => exact congrArg some hchosen
  | cons hc _ ih =>
    rw [List.filterAuxM, List.filterAuxM, hc.selects? f]
    cases f.selects? _ with
    | none => rfl
    | some keep =>
      cases keep with
      | false => exact ih hchosen
      | true =>
        refine ih ?_
        rw [cond_true, cond_true, List.map_cons, List.map_cons, hchosen, hc.path]

theorem MatchingSets.select? (f : Filter) (h : MatchingSets a b) : f.select? a = f.select? b := by
  have haux := @filterAuxM_matches f _ _ [] [] h rfl
  rw [Filter.select?, Filter.select?, List.filterM, List.filterM]
  generalize a.entries.filterAuxM f.selects? [] = chosen,
    b.entries.filterAuxM f.selects? [] = chosen' at haux
  cases chosen with
  | none =>
    rw [Option.map_none, eq_comm, Option.map_eq_none_iff] at haux
    rw [haux]
  | some cs =>
    obtain ⟨cs', rfl, hpaths⟩ := Option.map_eq_some_iff.mp haux.symm
    refine congrArg some ?_
    rw [List.map_reverse, List.map_reverse, hpaths]

/-- Whatever is asked of the two changes has one answer. -/
structure SameMeaning (c c' : FileChange) : Prop where
  fields : { c with runs := c'.runs } = c'
  oldLines : c.oldLines? = c'.oldLines?
  newLines : c.newLines? = c'.newLines?
  addedLines : c.addedLines? = c'.addedLines?
  deletedLines : c.deletedLines? = c'.deletedLines?
  changedTexts : c.changedTexts = c'.changedTexts
  located : ∀ d line p p', locate? d c.runs line = some p → locate? d c'.runs line = some p' →
    p = p'

theorem Matches.sameMeaning (h : Matches c c') : SameMeaning c c' where
  fields := h.rest
  oldLines := h.runs.total? LineKind.quoted_inOld
  newLines := h.runs.total? LineKind.quoted_inNew
  addedLines := h.runs.total? LineKind.quoted_beq_added
  deletedLines := h.runs.total? LineKind.quoted_beq_deleted
  changedTexts := h.changedTexts
  located _ _ _ _ := h.runs.locate?

namespace Diff

/-- Whether the text after a hunk header counts as a line decides neither if a diff is read nor
what it means. -/
theorem context_lines_mean_nothing (text : String) :
    (∃ e, parse true text = .error e ∧ parse false text = .error e) ∨
      ∃ a b, parse true text = .ok a ∧ parse false text = .ok b ∧ a.paths = b.paths ∧
        List.Forall₂ SameMeaning a.entries b.entries ∧
        ∀ config k, Classifier.ofConfig config = .ok k →
          (k.annotate a).entries.map FileChange.verdict =
              (k.annotate b).entries.map FileChange.verdict ∧
            ∀ kind f, Filter.ofKind config kind = .ok f →
              f.select? (k.annotate a) = f.select? (k.annotate b) := by
  have hparse := parse_matches text
  generalize parse true text = x, parse false text = y at hparse
  cases hparse with
  | error e => exact .inl ⟨e, rfl, rfl⟩
  | ok h =>
    rename_i a b
    refine .inr ⟨a, b, rfl, rfl, h.paths, h.imp fun _ _ hc => hc.sameMeaning, fun config k _ => ?_⟩
    have hk := h.annotate k
    exact ⟨hk.verdicts, fun _ f _ => hk.select? f⟩

end Diff

end SourceDelta
