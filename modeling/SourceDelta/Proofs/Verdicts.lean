import SourceDelta.Proofs.Selection
import SourceDelta.Proofs.VariabilityLines

/-!
# Verdicts on changes

The lines of a hunk are joined into runs, and the heuristic cuts the changed runs into
lines again. It comes to see the lines that the hunks of the path's sections count as
added or deleted, without their marks, whatever runs and hunks they stand in and
whatever lines stand between them. Its verdict depends on nothing else of the text.
-/

set_option autoImplicit false

namespace SourceDelta

open SourceDelta.Text

theorem FileChange.changedTexts_eq (c : FileChange) :
    c.changedTexts = ((c.runs.flatMap Run.lines).filter (·.1.changed)).map Prod.snd := by
  rw [changedTexts]
  induction c.runs with
  | nil => rfl
  | cons r rs ih =>
    rw [List.filter_cons, List.flatMap_cons, List.filter_append, List.map_append, ← ih]
    have hrun : (r.lines.filter (·.1.changed)).map Prod.snd =
        if r.kind.changed then r.texts else [] := by
      rw [Run.lines]
      cases hk : r.kind <;> simp [LineKind.changed, List.filter_map, Function.comp_def]
    rw [hrun]
    split <;> simp

namespace Diff
open SourceDelta.DiffSet (Share)

variable {contextLine : Bool} {covered old new : Nat} {h : Hunk} {hs : List Hunk} {b : Block}
  {bs : List Block} {l : Line} {ls p q : List Line} {s : Section} {c e : FileChange}
  {g : List FileChange} {text path : String} {set : DiffSet} {t : List Char}

theorem Hunk.filter_changed_allLines (contextLine : Bool) (covered : Nat) (hs : List Hunk) :
    (allLines contextLine covered hs).filter (·.1.changed) =
      hs.flatMap fun h => h.body.filter (·.1.changed) := by
  induction hs generalizing covered with
  | nil => rfl
  | cons h hs ih =>
    have hgap : (h.gapLines contextLine covered).filter (·.1.changed) = [] := by
      rw [gapLines]
      split <;> simp [LineKind.changed]
    rw [allLines, List.filter_append, List.filter_append, hgap, ih]
    rfl

/-- The line stands in a hunk of the section, in the stretch that the header counts, and its mark says
that it was added or deleted. -/
def Section.Counts (s : Section) (l : Line) : Prop :=
  ∃ lead bs, Cut s.body lead bs ∧ ∃ b ∈ bs, ∃ header p,
    HunkHeader.ofLine? b.line.text = some header ∧
    Stretch header.oldCount.toNat header.newCount.toNat b.rest p ∧
    l ∈ p ∧ (mark l = some '+' ∨ mark l = some '-')

def Section.IsOf (s : Section) (path : String) : Prop :=
  ∃ old new, s.paths = .ok (old, new) ∧ (s.header old new).path = path

/-- One of the sections of the path counts the line as a changed one. -/
def Counted (text path : String) (l : Line) : Prop :=
  ∃ s ∈ (sections (number 1 (lines text.toList))).2, s.IsOf path ∧ s.Counts l

theorem cut_blocks (ls : List Line) : Cut ls (blocks ls).1 (blocks ls).2 := by
  induction ls with
  | nil =>
    exact ⟨rfl, List.forall_mem_nil _, List.forall_mem_nil _, List.forall_mem_nil _⟩
  | cons l ls ih =>
    rw [blocks]
    dsimp only
    split
    next hl =>
      refine ⟨?_, List.forall_mem_nil _, ?_, ?_⟩
      · rw [List.flatMap_cons, List.nil_append, List.cons_append, ← ih.lines]
      · exact List.forall_mem_cons.mpr ⟨hl, ih.first⟩
      · exact List.forall_mem_cons.mpr ⟨ih.lead, ih.rest⟩
    next hl =>
      rw [Bool.not_eq_true] at hl
      refine ⟨?_, List.forall_mem_cons.mpr ⟨hl, ih.lead⟩, ih.first, ih.rest⟩
      rw [List.cons_append, ← ih.lines]

theorem Stretch.unique (hp : Stretch old new ls p) (hq : Stretch old new ls q) : p = q := by
  have hle := hp.shortest q hq.start hq.fills
  have hge := hq.shortest p hp.start hp.fills
  exact (List.prefix_of_prefix_length_le hp.start hq.start hle).eq_of_length (by omega)

theorem changed_kindOf {m : Option Char} :
    (kindOf m).changed = true ↔ m = some '+' ∨ m = some '-' := by
  unfold kindOf
  split
  · simp [LineKind.changed]
  · simp [LineKind.changed]
  next hplus hminus => exact iff_of_false (by simp [LineKind.changed]) (not_or.mpr ⟨hplus, hminus⟩)

theorem mem_changed_spelled : t ∈ ((spelled p).filter (·.1.changed)).map Prod.snd ↔
    ∃ l ∈ p, (mark l = some '+' ∨ mark l = some '-') ∧ t = l.text.tail := by
  simp only [spelled, List.mem_map, List.mem_filter, Prod.exists]
  constructor
  · rintro ⟨k, t, ⟨⟨l, ⟨hl, -⟩, he⟩, hk⟩, rfl⟩
    obtain ⟨rfl, rfl⟩ := Prod.mk.inj he
    exact ⟨l, hl, changed_kindOf.mp hk, rfl⟩
  · rintro ⟨l, hl, hmark, rfl⟩
    refine ⟨kindOf (mark l), l.text.tail, ⟨⟨l, ⟨hl, ?_⟩, rfl⟩, changed_kindOf.mpr hmark⟩, rfl⟩
    rcases hmark with hm | hm <;> rw [hm] <;> decide

theorem Section.isOf_of_read (hread : s.read contextLine = .ok c) : s.IsOf path ↔ c.path = path := by
  obtain ⟨old, new, hpaths, h⟩ := read_eq_ok.mp hread
  have hpath : c.path = (s.header old new).path := by
    split at h
    next => rw [h]
    next =>
      obtain ⟨hs, -, rfl⟩ := h
      rfl
  rw [hpath]
  constructor
  · rintro ⟨old', new', hpaths', rfl⟩
    cases hpaths.symm.trans hpaths'
    rfl
  · intro hp
    exact ⟨old, new, hpaths, hp⟩

theorem mem_changedTexts_read (hs : s ∈ (sections (number 1 (lines text.toList))).2)
    (hread : s.read contextLine = .ok c) (hbinary : c.binary = false) :
    t ∈ c.changedTexts ↔ ∃ l, s.Counts l ∧ t = l.text.tail := by
  have hcut := cut_blocks s.body
  obtain ⟨old, new, -, h⟩ := read_eq_ok.mp hread
  have hruns : ∃ hs', Hunk.ofBlocks s.line (blocks s.body).2 = .ok hs' ∧
      c.runs = Hunk.allRuns contextLine 0 hs' := by
    split at h
    next hb =>
      rw [h, hb] at hbinary
      cases hbinary
    next =>
      obtain ⟨hs', hhunks, rfl⟩ := h
      exact ⟨hs', hhunks, rfl⟩
  obtain ⟨hs', hhunks, hruns⟩ := hruns
  have hholds := holds_of_ofBlocks hhunks
  have hunbroken : ∀ h ∈ hs', h.Unbroken := by
    intro h hh
    obtain ⟨b, hb, hbh⟩ := exists_of_forall₂ hholds.flip hh
    refine Block.Holds.unbroken hbh fun l hl => newline_not_mem_body hs l ?_
    rw [hcut.lines]
    exact List.mem_append_right _ (List.mem_flatMap.mpr ⟨b, hb, hl⟩)
  rw [FileChange.changedTexts_eq, hruns,
    Hunk.lines_allRuns (balanced_of_ofBlocks hhunks) hunbroken, Hunk.filter_changed_allLines,
    List.map_flatMap, List.mem_flatMap]
  constructor
  · rintro ⟨h, hh, ht⟩
    obtain ⟨b, hb, hbh⟩ := exists_of_forall₂ hholds.flip hh
    obtain ⟨p, hp, hbody⟩ := Block.Holds.body hbh
    rw [hbody, mem_changed_spelled] at ht
    obtain ⟨l, hl, hmark, rfl⟩ := ht
    exact ⟨l, ⟨_, _, hcut, b, hb, h.header, p, hbh.header, hp, hl, hmark⟩, rfl⟩
  · rintro ⟨l, ⟨lead, bs, hcut', b, hb, header, p, hheader, hp, hl, hmark⟩, rfl⟩
    rw [hcut'.blocks] at hholds
    obtain ⟨h, hh, hbh⟩ := exists_of_forall₂ hholds hb
    obtain ⟨p', hp', hbody⟩ := hbh.body
    obtain rfl : header = h.header := Option.some.inj (hheader.symm.trans hbh.header)
    obtain rfl := hp.unique hp'
    refine ⟨h, hh, ?_⟩
    rw [hbody]
    exact mem_changed_spelled.mpr ⟨l, hl, hmark, rfl⟩

theorem path_of_share (h : Share g e) (hc : c ∈ g) : c.path = e.path := by
  cases h with
  | one => rw [List.mem_singleton.mp hc]
  | pair hpath =>
    rcases List.mem_pair.mp hc with rfl | rfl
    · rfl
    · exact hpath.symm

theorem binary_of_share (h : Share g e) (hbinary : e.binary = false) (hc : c ∈ g) :
    c.binary = false := by
  cases h with
  | one => rwa [List.mem_singleton.mp hc]
  | pair =>
    obtain ⟨hd, ha⟩ := Bool.or_eq_false_iff.mp hbinary
    rcases List.mem_pair.mp hc with rfl | rfl
    · exact hd
    · exact ha

theorem changedTexts_of_share (h : Share g e) :
    e.changedTexts = g.flatMap FileChange.changedTexts := by
  rw [FileChange.changedTexts, runs_of_share h, List.filter_flatMap, List.flatMap_assoc]
  rfl

/-- The changed lines of an entry are those that the sections of its path count. -/
theorem mem_changedTexts_parse (hparse : parse contextLine text = .ok set) (he : e ∈ set.entries)
    (hbinary : e.binary = false) :
    t ∈ e.changedTexts ↔ ∃ l, Counted text e.path l ∧ t = l.text.tail := by
  obtain ⟨cs, hread, hfold⟩ := parse_eq_ok.mp hparse
  obtain ⟨gs, rfl, hshare⟩ := DiffSet.foldlM_absorb?.mp hfold
  constructor
  · intro ht
    obtain ⟨g, hg, hge⟩ := exists_of_forall₂ hshare.flip he
    rw [changedTexts_of_share hge] at ht
    obtain ⟨c, hc, ht⟩ := List.mem_flatMap.mp ht
    obtain ⟨s, hs, hsc⟩ := exists_of_forall₂ hread.flip (List.mem_flatten_of_mem hg hc)
    obtain ⟨l, hl, rfl⟩ := (mem_changedTexts_read hs hsc (binary_of_share hge hbinary hc)).mp ht
    exact ⟨l, ⟨s, hs, (Section.isOf_of_read hsc).mpr (path_of_share hge hc), hl⟩, rfl⟩
  · rintro ⟨l, ⟨s, hs, hof, hl⟩, rfl⟩
    obtain ⟨c, hc, hsc⟩ := exists_of_forall₂ hread hs
    obtain ⟨g, hg, hcg⟩ := List.mem_flatten.mp hc
    obtain ⟨e', he', hge⟩ := exists_of_forall₂ hshare hg
    -- An entry is told by its path, so this is the share of the entry at hand.
    have hpath : e'.path = e.path :=
      (path_of_share hge hcg).symm.trans ((Section.isOf_of_read hsc).mp hof)
    obtain rfl := DiffSet.eq_of_path he' he hpath
    rw [changedTexts_of_share hge]
    refine List.mem_flatMap.mpr ⟨c, hcg, ?_⟩
    exact (mem_changedTexts_read hs hsc (binary_of_share hge hbinary hcg)).mpr ⟨l, hl, rfl⟩

/-- What makes the heuristic take a change for one of variability. -/
def Suspect (text : String) (e : FileChange) : Prop :=
  e.binary = true ∨ e.kind = .addition ∨ e.kind = .deletion ∨
    (∃ rest, LastPart '/' e.path.toList ("Kconfig".toList ++ rest)) ∨
    ∃ l, Counted text e.path l ∧ BearsVariability l.text.tail

/-- The verdict that an entry of the set of a text is due. -/
structure Due (files : List Glob) (text : String) (e : FileChange) (v : Verdict) : Prop where
  outside : v = .notAVariabilityFile ↔ ∀ g ∈ files, g.isMatch e.path = false
  change : v = .change ↔ (∃ g ∈ files, g.isMatch e.path = true) ∧ Suspect text e
  noChange : v = .noChange ↔ (∃ g ∈ files, g.isMatch e.path = true) ∧ ¬ Suspect text e

theorem due_outside {files : List Glob} (h : ∀ g ∈ files, g.isMatch e.path = false) :
    Due files text e .notAVariabilityFile := by
  have hnone : ¬ ∃ g ∈ files, g.isMatch e.path = true := by
    rintro ⟨g, hg, hmatch⟩
    rw [h g hg] at hmatch
    cases hmatch
  exact ⟨iff_of_true rfl h, iff_of_false nofun fun hx => hnone hx.1,
    iff_of_false nofun fun hx => hnone hx.1⟩

theorem due_inside {files : List Glob} {v : Verdict}
    (hsome : ∃ g ∈ files, g.isMatch e.path = true)
    (hv : v = .change ∧ Suspect text e ∨ v = .noChange ∧ ¬ Suspect text e) :
    Due files text e v := by
  have hnot : ¬ ∀ g ∈ files, g.isMatch e.path = false := by
    intro h
    obtain ⟨g, hg, hmatch⟩ := hsome
    rw [h g hg] at hmatch
    cases hmatch
  rcases hv with ⟨rfl, hs⟩ | ⟨rfl, hs⟩
  · exact ⟨iff_of_false nofun hnot, iff_of_true rfl ⟨hsome, hs⟩,
      iff_of_false nofun fun hx => hx.2 hs⟩
  · exact ⟨iff_of_false nofun hnot, iff_of_false nofun fun hx => hs hx.2,
      iff_of_true rfl ⟨hsome, hs⟩⟩

theorem due_classify? (hparse : parse contextLine text = .ok set) (he : e ∈ set.entries)
    (files : List Glob) :
    Due files text e (((Classifier.heuristic files).classify? e).getD .change) := by
  rw [Classifier.classify?, Glob.anyMatch]
  cases hany : files.any (·.isMatch e.path) with
  | false =>
    rw [Bool.not_false, if_pos rfl]
    exact due_outside (by simpa using hany)
  | true =>
    rw [Bool.not_true, if_neg Bool.false_ne_true]
    apply due_inside (List.any_eq_true.mp hany)
    cases hbinary : e.binary with
    | true => exact .inl ⟨rfl, .inl hbinary⟩
    | false =>
      rw [if_neg Bool.false_ne_true]
      have hlines : e.changedTexts.any bearsVariability = true ↔
          ∃ l, Counted text e.path l ∧ BearsVariability l.text.tail := by
        simp only [List.any_eq_true, mem_changedTexts_parse hparse he hbinary,
          bearsVariability_iff]
        constructor
        · rintro ⟨_, ⟨l, hl, rfl⟩, hbears⟩
          exact ⟨l, hl, hbears⟩
        · rintro ⟨l, hl, hbears⟩
          exact ⟨_, ⟨l, hl, rfl⟩, hbears⟩
      have hwhole : (e.kind ≠ .modification || isKconfig e.path) = true ↔
          e.kind = .addition ∨ e.kind = .deletion ∨
            ∃ rest, LastPart '/' e.path.toList ("Kconfig".toList ++ rest) := by
        rw [Bool.or_eq_true, isKconfig_iff, ← or_assoc]
        refine or_congr_left ?_
        cases e.kind <;> decide
      have hsuspect : Suspect text e ↔ (e.kind ≠ .modification || isKconfig e.path) = true ∨
          e.changedTexts.any bearsVariability = true := by
        rw [Suspect, hbinary, hwhole, hlines, or_assoc, or_assoc]
        exact or_iff_right Bool.false_ne_true
      rw [hsuspect]
      split
      next h => exact .inl ⟨rfl, .inl h⟩
      next h =>
        split
        next h' => exact .inl ⟨rfl, .inr h'⟩
        next h' => exact .inr ⟨rfl, not_or.mpr ⟨h, h'⟩⟩

end Diff

namespace Filter

theorem filterAuxM_variability (cs chosen : List FileChange) :
    cs.filterAuxM variability.selects? chosen =
      some ((cs.filter (·.verdict = .change)).reverse ++ chosen) := by
  induction cs generalizing chosen with
  | nil => rfl
  | cons c cs ih =>
    rw [List.filterAuxM, selects?, Option.bind_eq_bind, Option.bind_some, ih, List.filter_cons]
    split
    next h => simp [h]
    next h => simp [h]

theorem select?_variability (s : DiffSet) : variability.select? s =
    some ((s.entries.filter (·.verdict = .change)).map FileChange.path) := by
  rw [select?, List.filterM, filterAuxM_variability]
  simp

end Filter

namespace Diff

variable {contextLine : Bool} {text : String} {set : DiffSet}

/-- The heuristic gives every entry the verdict that its path, its kind and the lines counted as added
or deleted are due, and leaves the rest of the entry alone. The filter for variability then selects the
entries with a change, in the order of the text. -/
theorem heuristic_verdicts (hparse : parse contextLine text = .ok set) (files : List Glob) :
    List.Forall₂ (fun e e' => ∃ v, e' = { e with verdict := v } ∧ Due files text e v) set.entries
        ((Classifier.heuristic files).annotate set).entries ∧
      Filter.variability.select? ((Classifier.heuristic files).annotate set) =
        some ((((Classifier.heuristic files).annotate set).entries.filter
          (·.verdict = .change)).map FileChange.path) := by
  refine ⟨?_, Filter.select?_variability _⟩
  rw [Classifier.annotate, DiffSet.mapEntries, List.forall₂_map_right_iff, List.forall₂_same]
  exact fun e he => ⟨_, rfl, due_classify? hparse he files⟩

def conditionalText : String :=
  "diff --git a/f.c b/f.c\n@@ -1,2 +1,3 @@ CONFIG_A\n CONFIG_B\n+# else\n CONFIG_C\n" ++
    "diff --git a/g.c b/g.c\n@@ -1,2 +1,1 @@ CONFIG_A\n CONFIG_B\n-elsewhere\n" ++
    "diff --git a/h b/h\n@@ -1 +0,0 @@\n-CONFIG_A\n"

def sourceFiles : List Glob := [⟨[.leading, .star, .literal '.', .literal 'c']⟩]

theorem heuristic_verdicts_of_conditional : ∃ set, parse true conditionalText = .ok set ∧
    List.Forall₂ (fun e e' => ∃ v, e' = { e with verdict := v } ∧ Due sourceFiles conditionalText e v)
        set.entries ((Classifier.heuristic sourceFiles).annotate set).entries ∧
      ((((Classifier.heuristic sourceFiles).annotate set).entries.filter
          (·.verdict = .change)).map FileChange.path) = ["f.c"] := by
  have hselected : (parse true conditionalText).toOption.bind (fun set =>
      Filter.variability.select? ((Classifier.heuristic sourceFiles).annotate set)) =
        some ["f.c"] := by
    decide +kernel
  obtain ⟨set, hset, hpaths⟩ := Option.bind_eq_some_iff.mp hselected
  have hparse : parse true conditionalText = .ok set := toOption_eq_some.mp hset
  obtain ⟨hverdicts, hselect⟩ := heuristic_verdicts hparse sourceFiles
  exact ⟨set, hparse, hverdicts, Option.some.inj (hselect.symm.trans hpaths)⟩

end Diff

end SourceDelta
