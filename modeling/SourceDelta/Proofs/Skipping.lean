import SourceDelta.Proofs.ContextLines
import SourceDelta.Proofs.LongHunks
import SourceDelta.Proofs.Selection

/-!
# Skipped files keep their lines

A filter for changed files looks at counts, and a translation of line numbers
walks over runs. What the filter leaves out of the modified files has no changed
line, so a walk over it goes as far on the one side as on the other, and every
line that it answers for stays where it is. It answers for every line when the
hunks of the file come in order.
-/

set_option autoImplicit false

namespace SourceDelta

variable {d : Direction} {rs : List Run} {line : UInt32} {p : Position}

theorem kindAt_unchanged (h : ∀ k ∈ Run.kinds rs, k.changed = false) (i : Nat) :
    (Run.kindAt rs i).changed = false := by
  rcases Nat.lt_or_ge i (Run.kinds rs).length with hlt | hge
  · rw [Run.kindAt, List.getD_eq_getElem _ _ hlt]
    exact h _ (List.getElem_mem hlt)
  · rw [Run.kindAt, List.getD_eq_default _ _ hge]
    rfl

theorem exactNumber_unchanged (h : ∀ k ∈ Run.kinds rs, k.changed = false) (d : Direction)
    {n : Nat} (hn : n ≠ 0) : Run.exactNumber d rs n = n := by
  obtain ⟨i, rfl⟩ := Nat.exists_eq_succ_of_ne_zero hn
  obtain ⟨hsource, htarget⟩ := Run.before_unchanged d fun j (_ : j < i) => kindAt_unchanged h j
  have hnumber := Run.exactNumber_before (d.both_of_unchanged (kindAt_unchanged h i)).1
  rwa [hsource, htarget] at hnumber

/-- A walk over lines that stay comes out where it went in. -/
theorem locate?_unchanged (h : ∀ k ∈ Run.kinds rs, k.changed = false)
    (hp : locate? d rs line = some p) : p = .kept line := by
  by_cases hne : line = 0
  · subst hne
    exact locate?_zero.mp hp
  obtain ⟨-, n, hn, rfl⟩ := (locate?_eq_some hne).mp hp
  rw [exactNumber_unchanged h d (toNat_ne_zero hne), UInt32.toNat_inj] at hn
  rw [hn, (d.both_of_unchanged (kindAt_unchanged h _)).2]
  rfl

theorem locate?_kept (h : ∀ k ∈ Run.kinds rs, k.changed = false)
    (hfits : (Run.kinds rs).length < 2 ^ 32) (d : Direction) (line : UInt32) :
    locate? d rs line = some (.kept line) := by
  by_cases hne : line = 0
  · subst hne
    exact locate?_zero.mpr rfl
  have htotal : ∀ side, Run.total side rs < 2 ^ 32 := by
    intro side
    rw [← Run.countP_kinds]
    exact List.countP_le_length.trans_lt hfits
  refine (locate?_eq_some hne).mpr ⟨Run.fits_of_total d (htotal _) (htotal _) _, line, ?_, ?_⟩
  · exact (exactNumber_unchanged h d (toNat_ne_zero hne)).symm
  · rw [(d.both_of_unchanged (kindAt_unchanged h _)).2]
    rfl

namespace Diff
open SourceDelta.Text

namespace Hunk

variable {contextLine : Bool} {h : Hunk} {hs : List Hunk}

/-- The hunks come in file order and do not overlap: each starts behind the last old line of the one
before it. -/
def Ascending (hs : List Hunk) : Prop :=
  hs.IsChain fun h h' => h.header.oldEnd < h'.header.bodyStart

theorem Ascending.inOrder (ho : Ascending (h :: hs)) : InOrder h.header.oldEnd hs := by
  induction hs generalizing h with
  | nil => trivial
  | cons h' hs ih =>
    obtain ⟨hstart, hrest⟩ := List.isChain_cons_cons.mp ho
    exact ⟨hstart, ih hrest⟩

theorem oldEnd_add_one (h : Hunk) :
    h.header.oldEnd + 1 = h.header.bodyStart + h.header.oldCount.toNat := by
  rw [HunkHeader.oldEnd, HunkHeader.bodyStart, bodyStartOf]
  split
  next => omega
  next hne =>
    have hpos : h.header.oldCount.toNat ≠ 0 := fun hz => hne (UInt32.toNat_inj.mp hz)
    omega

theorem lastEnd_lt (h : Hunk) (hs : List Hunk) : lastEnd h.header.oldEnd hs + 1 < 2 ^ 32 := by
  have hfits : ∀ x : Hunk, x.header.oldEnd + 1 < 2 ^ 32 := by
    intro x
    rw [oldEnd_add_one]
    exact x.header.fits
  rw [lastEnd]
  cases hs.getLast? with
  | none => exact hfits h
  | some x => exact hfits x

theorem total_old_lt (hb : ∀ h ∈ hs, h.Balanced) (ho : Ascending hs) :
    Run.total LineKind.inOld (allRuns contextLine 0 hs) < 2 ^ 32 := by
  rw [total_allRuns hb]
  cases hs with
  | nil => exact Nat.two_pow_pos 32
  | cons h hs =>
    obtain ⟨hh, hhs⟩ := List.forall_mem_cons.mp hb
    have hrest : h.header.oldEnd + (allLines contextLine h.header.oldEnd hs).countP (·.1.inOld) =
      lastEnd h.header.oldEnd hs := countP_old_allLines hhs ho.inOrder
    have hend := oldEnd_add_one h
    have hlast := lastEnd_lt h hs
    have hgap : h.gap 0 = h.header.bodyStart - 1 := rfl
    rw [allLines, List.countP_append, List.countP_append, countP_gapLines LineKind.quoted_inOld rfl,
      hh.old, Nat.zero_max]
    omega

end Hunk

variable {contextLine : Bool} {text : String} {set : DiffSet} {c : FileChange} {ps : List String}
  {path : String}

/-- The change is that of one section, and the hunks of that section come in order. -/
def FromSection (contextLine : Bool) (text : String) (c : FileChange) : Prop :=
  ∃ s ∈ (sections (number 1 (lines text.toList))).2, s.read contextLine = .ok c ∧
    ∃ hs, Hunk.ofBlocks s.line (blocks s.body).2 = .ok hs ∧ Hunk.Ascending hs

theorem FromSection.total_lt (h : FromSection contextLine text c) :
    Run.total LineKind.inOld c.runs < 2 ^ 32 := by
  obtain ⟨s, -, hread, hs, hhunks, ho⟩ := h
  rcases runs_of_read hread with hruns | ⟨hs', hhunks', hruns⟩
  · rw [hruns]
    exact Nat.two_pow_pos 32
  · cases hhunks.symm.trans hhunks'
    rw [hruns]
    exact Hunk.total_old_lt (balanced_of_ofBlocks hhunks) ho

theorem mem_of_get? (h : set.get? path = some c) : c ∈ set.entries ∧ c.path = path := by
  rw [DiffSet.get?] at h
  have hpath := List.find?_some h
  exact ⟨List.mem_of_find?_eq_some h, eq_of_beq hpath⟩

theorem unchanged_of_skipped (hselect : Filter.changedOnly.select? set = some ps)
    (hget : set.get? path = some c) (hkind : c.kind = .modification) (hskip : path ∉ ps) :
    ∀ k ∈ Run.kinds c.runs, k.changed = false := by
  obtain ⟨hc, hpath⟩ := mem_of_get? hget
  obtain ⟨hanswers, hmem⟩ := Filter.select?_eq_some hselect path
  obtain ⟨b, hb⟩ := hanswers c hc
  have hfalse : ¬ b = true := by
    rintro rfl
    exact hskip (hmem.mpr ⟨c, hc, hpath, hb⟩)
  rw [Filter.selects?_modification hkind hb, not_or, Nat.pos_iff_ne_zero, not_not] at hfalse
  exact Run.total_changed_eq_zero.mp hfalse.2

theorem length_kinds {rs : List Run} (h : ∀ k ∈ Run.kinds rs, k.changed = false) :
    (Run.kinds rs).length = Run.total LineKind.inOld rs := by
  rw [← Run.countP_kinds, eq_comm, List.countP_eq_length]
  intro k hk
  have hchanged := h k hk
  cases k <;> first | rfl | cases hchanged

/-- A file that a filter for changed files leaves out, be it a modified one or one that the diff does
not name, keeps its line numbers in both directions, as far as the sums of the walk fit their words;
for a section with hunks in order they do. A modification that changes a line is never left out, nor
is a binary one. -/
theorem skipped_lines_stay (hparse : parse contextLine text = .ok set) :
    ((lines text.toList).length < 2 ^ 32 → ∃ ps, Filter.changedOnly.select? set = some ps) ∧
    ∀ ps, Filter.changedOnly.select? set = some ps →
      (∀ path, path ∉ ps → (∀ c, set.get? path = some c → c.kind = .modification) → ∀ d line,
        (set.locate? d path line = .ok none ∨ set.locate? d path line = .ok (some (.kept line))) ∧
        ((∀ c, set.get? path = some c → FromSection contextLine text c) →
          set.locate? d path line = .ok (some (.kept line)))) ∧
      ∀ c ∈ set.entries, c.kind = .modification →
        c.binary = true ∨ (∃ r ∈ c.runs, r.kind.changed = true) → c.path ∈ ps := by
  refine ⟨exists_changedOnly hparse, fun ps hselect => ⟨fun path hskip hkind d line => ?_,
    fun c hc hkind hchanged => ?_⟩⟩
  · rw [DiffSet.locate?]
    cases hget : set.get? path with
    | none => exact ⟨.inr rfl, fun _ => rfl⟩
    | some c =>
      have hmodified := hkind c hget
      have hstay := unchanged_of_skipped hselect hget hmodified hskip
      dsimp only
      rw [hmodified]
      dsimp only
      refine ⟨?_, fun hsection => ?_⟩
      · cases hlocate : locate? d c.runs line with
        | none => exact .inl rfl
        | some p => exact .inr (by rw [locate?_unchanged hstay hlocate])
      · have hfits := (hsection c rfl).total_lt
        rw [← length_kinds hstay] at hfits
        rw [locate?_kept hstay hfits]
  · obtain ⟨hanswers, hmem⟩ := Filter.select?_eq_some hselect c.path
    obtain ⟨b, hb⟩ := hanswers c hc
    refine hmem.mpr ⟨c, hc, rfl, ?_⟩
    have htrue : b = true := by
      rw [Filter.selects?_modification hkind hb]
      refine hchanged.imp_right ?_
      rintro ⟨r, hr, hrun⟩
      rw [Nat.pos_iff_ne_zero, ne_eq, Run.total_changed_eq_zero]
      intro hnone
      have hcount := count_pos_of_parse hparse hc hr
      have hk : r.kind ∈ Run.kinds c.runs :=
        List.mem_flatMap.mpr ⟨r, hr, List.mem_replicate.mpr ⟨Nat.ne_of_gt hcount, rfl⟩⟩
      rw [hnone _ hk] at hrun
      cases hrun
    rw [hb, htrue]

def quotedText : String :=
  "diff --git a/f b/f\n@@ -3 +3 @@\n x\ndiff --git a/g b/g\n@@ -1 +1 @@\n-a\n+b\n"

def quotedSection : Section :=
  ⟨1, "a/f b/f".toList, [⟨2, "@@ -3 +3 @@".toList⟩, ⟨3, " x".toList⟩]⟩

theorem skipped_lines_stay_of_quoted : ∃ set ps, parse true quotedText = .ok set ∧
    Filter.changedOnly.select? set = some ps ∧ ps = ["g"] ∧
    ∀ d line, set.locate? d "f" line = .ok (some (.kept line)) := by
  obtain ⟨set, hset, hselect⟩ := Option.map_eq_some_iff.mp
    (show (parse true quotedText).toOption.map Filter.changedOnly.select? = some (some ["g"]) by
      decide +kernel)
  have hparse : parse true quotedText = .ok set := toOption_eq_some.mp hset
  have hget : (parse true quotedText).toOption.bind (·.get? "f") =
      (quotedSection.read true).toOption := by decide +kernel
  have hsection : quotedSection ∈ (sections (number 1 (lines quotedText.toList))).2 :=
    List.mem_cons_self
  obtain ⟨c, hread, hkind⟩ : ∃ c, quotedSection.read true = .ok c ∧ c.kind = .modification :=
    ⟨_, rfl, rfl⟩
  obtain ⟨hs, hhunks, horder⟩ : ∃ hs, Hunk.ofBlocks quotedSection.line
      (blocks quotedSection.body).2 = .ok hs ∧ Hunk.Ascending hs := ⟨_, rfl, .singleton _⟩
  rw [hparse, hread] at hget
  have hall : ∀ c', set.get? "f" = some c' → c' = c := fun c' h => Option.some.inj (h.symm.trans hget)
  obtain ⟨-, hskips⟩ := skipped_lines_stay hparse
  refine ⟨set, ["g"], hparse, hselect, rfl, fun d line => ?_⟩
  refine ((hskips _ hselect).1 "f" (by decide) (fun c' h => ?_) d line).2 fun c' h => ?_
  · rw [hall c' h]
    exact hkind
  · rw [hall c' h]
    exact ⟨quotedSection, hsection, hread, hs, hhunks, horder⟩

def extension (n : Nat) : List (List Char) :=
  "@@ -0,0 +1,2147483648 @@".toList :: List.replicate n ['+']

theorem plain_extension (n : Nat) : ∀ l ∈ extension n, '\n' ∉ l ∧ '\r' ∉ l := by
  refine List.forall_mem_cons.mpr ⟨by decide, fun l hl => ?_⟩
  rw [List.eq_of_mem_replicate hl]
  decide

theorem not_marker_extension (n : Nat) : ∀ l ∈ extension n, startsWith marker l = false :=
  List.forall_mem_cons.mpr ⟨by decide, not_marker_repeated (.add [])⟩

theorem extended_alone {n : Nat} (hn : n = 2147483648) :
    ∃ c content content', ReadsAlone true (textOf (sectionLines (extension n ++ extension n))) c ∧
      c.kind = .modification ∧ c.binary = false ∧
      c.runs = [⟨.added, 2147483648, content⟩, ⟨.added, 2147483648, content'⟩] := by
  obtain ⟨header, hdeclares, hstart, hend⟩ : ∃ header,
      Declares "@@ -0,0 +1,2147483648 @@".toList (.add []) n header ∧ header.bodyStart = 1 ∧
        header.oldEnd = 0 := ⟨_, ⟨rfl, rfl, hn.symm⟩, rfl, rfl⟩
  obtain ⟨h, hblock, hheader, hshow⟩ := hdeclares.block (.add []) 2 3
  obtain ⟨h', hblock', hheader', hshow'⟩ := hdeclares.block (.add []) (3 + n) (3 + n + 1)
  have hgap : ∀ x : Hunk, x.header = header → x.gap 0 = 0 := by
    intro x hx
    rw [Hunk.gap, hx, hstart]
  have hadded : ∀ k : LineKind, k.Shows (.add []) → k = .added := fun _ => LineKind.Shows.added
  obtain ⟨content, hruns⟩ := runs_of_repeated true hshow hadded (by omega) (hgap h hheader)
  obtain ⟨content', hruns'⟩ := runs_of_repeated true hshow' hadded (by omega) (hgap h' hheader')
  have hlength : (extension n).length = n + 1 := by simp [extension]
  have hnumber : number 2 (extension n ++ extension n) =
      number 2 (extension n) ++ number (3 + n) (extension n) := by
    rw [number_append, hlength]
    congr 2
    omega
  have hrest : ∀ first, ∀ x ∈ number first (List.replicate n ['+']),
      startsWith "@@".toList x.text = false := not_header_repeated (.add [])
  have hcut : Cut (number 2 (extension n ++ extension n)) []
      [⟨⟨2, "@@ -0,0 +1,2147483648 @@".toList⟩, number 3 (List.replicate n ['+'])⟩,
        ⟨⟨3 + n, "@@ -0,0 +1,2147483648 @@".toList⟩, number (3 + n + 1) (List.replicate n ['+'])⟩] :=
    ⟨by rw [hnumber, List.flatMap_cons, List.flatMap_singleton]; rfl, by simp,
      List.forall_mem_cons.mpr ⟨rfl, List.forall_mem_singleton.mpr rfl⟩,
      List.forall_mem_cons.mpr ⟨hrest 3, List.forall_mem_singleton.mpr (hrest (3 + n + 1))⟩⟩
  have hhunks := ofBlocks_cons hblock (ofBlocks_cons hblock' (show Hunk.ofBlocks 1 [] = .ok [] from rfl))
  refine ⟨_, content, content', readsAlone_section ?_ ?_ hcut rfl rfl hhunks, rfl, rfl, ?_⟩
  · exact List.forall_mem_append.mpr ⟨plain_extension n, plain_extension n⟩
  · exact List.forall_mem_append.mpr ⟨not_marker_extension n, not_marker_extension n⟩
  · rw [withHunks, Hunk.allRuns, Hunk.allRuns, hruns, hheader, hend, Nat.max_self, hruns', hn]
    rfl

/-- The filter for changed files has no answer for a file with more added lines than a word can
count. -/
theorem changedOnly_needs_room : ∃ text set c, parse true text = .ok set ∧ c ∈ set.entries ∧
    c.kind = .modification ∧ (∃ r ∈ c.runs, r.kind.changed = true) ∧
    Filter.changedOnly.select? set = none := by
  obtain ⟨n, hn⟩ : ∃ n, n = 2147483648 := ⟨_, rfl⟩
  obtain ⟨c, content, content', ⟨set, hparse, hentries⟩, hkind, hbinary, hruns⟩ := extended_alone hn
  have hc : c ∈ set.entries := hentries ▸ List.mem_singleton_self c
  refine ⟨_, set, c, hparse, hc, hkind, ⟨⟨.added, 2147483648, content⟩, by simp [hruns], rfl⟩, ?_⟩
  have hlong : Run.total (· == .added) c.runs = 4294967296 := by
    simp [hruns, Run.total]
  rw [Option.eq_none_iff_forall_ne_some]
  intro ps hselect
  obtain ⟨b, hb⟩ := (Filter.select?_eq_some hselect c.path).1 c hc
  rw [Filter.selects?, hkind] at hb
  dsimp only at hb
  rw [hbinary, if_neg Bool.false_ne_true] at hb
  obtain ⟨added, hadded, -⟩ := Option.bind_eq_some_iff.mp hb
  have hfits := (Filter.hasLines?_eq_some.mp hadded).1
  omega

end Diff

end SourceDelta
