import SourceDelta.Position
import SourceDelta.Proofs.LongHunks
import SourceDelta.Proofs.Selection

/-!
# A deletion and the addition behind it

When a diff deletes a file and adds it again right behind, the two make one entry in
the place of the deletion: the old side is that of the deletion, the new side that of
the addition, and nothing else in the set shows that there were two. Every other
second section of a path is refused at its marker line.
-/

set_option autoImplicit false

namespace SourceDelta
open SourceDelta.Text

namespace DiffSet

variable {c d a e : FileChange} {cs cs' es rest : List FileChange} {s s' t : DiffSet}

/-- The first set has the entries of the second, and one more behind the first `es`. If nothing
stands behind that one, it is no deletion. -/
structure OneMore (es : List FileChange) (e : FileChange) (rest : List FileChange)
    (s t : DiffSet) : Prop where
  more : s.entries = es ++ e :: rest
  less : t.entries = es ++ rest
  closed : rest = [] → e.kind ≠ .deletion

theorem OneMore.mem (h : OneMore es e rest s t) : e ∈ s.entries := by
  rw [h.more]
  exact List.mem_append_right _ List.mem_cons_self

theorem OneMore.absorb? (h : OneMore es e rest s t) (hc : s.absorb? c = some s') :
    ∃ rest' t', t.absorb? c = some t' ∧ OneMore es e rest' s' t' := by
  obtain ⟨hmore, hless, hclosed⟩ := h
  rcases absorb?_eq_some.mp hc with ⟨hfresh, hs'⟩ | ⟨es', d, hs, hpath, hd, ha, hs'⟩
  · have hpaths : t.contains c.path = false := by
      rw [contains_eq_false, paths, hless]
      rw [contains_eq_false, paths, hmore] at hfresh
      exact fun hmem => hfresh (List.map_subset _ (by simp) hmem)
    refine ⟨rest ++ [c], t.push c hpaths, absorb?_eq_some.mpr (.inl ⟨hpaths, rfl⟩), ?_, ?_, ?_⟩
    · rw [hs', hmore, List.append_assoc, List.cons_append]
    · exact (congrArg (· ++ [c]) hless).trans (List.append_assoc _ _ _)
    · simp
  · rcases List.eq_nil_or_concat rest with rfl | ⟨rest, last, rfl⟩
    · -- The entry would be the deletion that the change joins.
      obtain ⟨-, hlast⟩ := List.append_inj' (hmore.symm.trans hs) rfl
      rw [List.cons.inj hlast |>.1] at hclosed
      exact absurd hd (hclosed rfl)
    · rw [List.concat_eq_append] at hmore hless
      rw [← List.cons_append, ← List.append_assoc] at hmore
      obtain ⟨hes, hlast⟩ := List.append_inj' (hmore.symm.trans hs) rfl
      obtain rfl : last = d := (List.cons.inj hlast).1
      rw [← List.append_assoc] at hless
      have hreplace : (t.replace (last.coalesce c)).entries = es ++ rest ++ [last.coalesce c] :=
        entries_replace hless rfl
      refine ⟨rest ++ [last.coalesce c], t.replace (last.coalesce c), ?_, ?_, ?_, by simp⟩
      · exact absorb?_eq_some.mpr (.inr ⟨es ++ rest, last, hless, hpath, hd, ha, hreplace⟩)
      · rw [hs', ← hes, List.append_assoc, List.cons_append]
      · rw [hreplace, List.append_assoc]

theorem OneMore.foldlM (h : OneMore es e rest s t) (hcs : cs.foldlM DiffSet.absorb? s = some s') :
    ∃ rest' t', cs.foldlM DiffSet.absorb? t = some t' ∧ OneMore es e rest' s' t' := by
  induction cs generalizing rest s t with
  | nil =>
    cases hcs
    exact ⟨rest, t, rfl, h⟩
  | cons c cs ih =>
    rw [List.foldlM_cons] at hcs
    obtain ⟨s₁, hc, hcs⟩ := Option.bind_eq_some_iff.mp hcs
    obtain ⟨rest₁, t₁, ht₁, h₁⟩ := h.absorb? hc
    obtain ⟨rest', t', ht', h'⟩ := ih h₁ hcs
    exact ⟨rest', t', by rw [List.foldlM_cons, ht₁]; exact ht', h'⟩

theorem absorb?_deletion (hd : d.kind = .deletion) (h : s.absorb? d = some s') :
    s'.entries = s.entries ++ [d] := by
  rcases absorb?_eq_some.mp h with ⟨-, hs'⟩ | ⟨_, _, -, -, -, ha, -⟩
  · exact hs'
  · rw [hd] at ha
    cases ha

theorem absorb?_last (hs : s.entries = es ++ [d]) (hpath : a.path = d.path)
    (h : s.absorb? a = some s') : s'.entries = es ++ [d.coalesce a] := by
  rcases absorb?_eq_some.mp h with ⟨hfresh, -⟩ | ⟨es', d', hs', -, -, -, hentries⟩
  · rw [contains_of_append hs hpath.symm] at hfresh
    cases hfresh
  · obtain ⟨rfl, hlast⟩ := List.append_inj' (hs.symm.trans hs') rfl
    obtain rfl : d = d' := (List.cons.inj hlast).1
    exact hentries

theorem foldlM_pair (hd : d.kind = .deletion) (hpath : a.path = d.path)
    (h : (cs ++ d :: a :: cs').foldlM DiffSet.absorb? empty = some s) :
    ∃ s₀ rest t, cs.foldlM DiffSet.absorb? empty = some s₀ ∧
      (cs ++ cs').foldlM DiffSet.absorb? empty = some t ∧
      OneMore s₀.entries (d.coalesce a) rest s t := by
  rw [List.foldlM_append] at h
  obtain ⟨s₀, hs₀, h⟩ := Option.bind_eq_some_iff.mp h
  rw [List.foldlM_cons] at h
  obtain ⟨s₁, hs₁, h⟩ := Option.bind_eq_some_iff.mp h
  rw [List.foldlM_cons] at h
  obtain ⟨s₂, hs₂, h⟩ := Option.bind_eq_some_iff.mp h
  have hpair := absorb?_last (absorb?_deletion hd hs₁) hpath hs₂
  have hmore : OneMore s₀.entries (d.coalesce a) [] s₂ s₀ :=
    ⟨hpair, (List.append_nil _).symm, fun _ => ChangeKind.noConfusion⟩
  obtain ⟨rest, t, ht, hrest⟩ := hmore.foldlM h
  refine ⟨s₀, rest, t, hs₀, ?_, hrest⟩
  rw [List.foldlM_append, hs₀]
  exact ht

theorem absorb?_eq_none (hc : c.path ∈ s.paths) (h : ∀ es d, s.entries = es ++ [d] →
    d.kind = .deletion → c.kind = .addition → d.path ≠ c.path) : s.absorb? c = none := by
  rw [Option.eq_none_iff_forall_ne_some]
  intro s' hs'
  rcases absorb?_eq_some.mp hs' with ⟨hfresh, -⟩ | ⟨es, d, hs, hpath, hd, ha, -⟩
  · exact contains_eq_false.mp hfresh hc
  · exact h es d hs hd ha hpath

end DiffSet

def renewedRuns (n m : UInt32) (old new : String) : List Run :=
  [⟨.deleted, n, old⟩, ⟨.added, m, new⟩]

section
variable {n m line : UInt32} {old new : String}

theorem locate?_renewed_old (hzero : line ≠ 0) (hline : line ≤ n) :
    locate? .oldToNew (renewedRuns n m old new) line = some (.dropped 1) := by
  have hn : add? 0 n = some n := add?_eq_some.mpr (Nat.zero_add _)
  rw [locate?, if_neg hzero, renewedRuns, walk?]
  simp only [Direction.inSource, Direction.inTarget, LineKind.inOld, LineKind.inNew, advance?,
    if_true, Bool.false_eq_true, if_false, hn, Option.bind_eq_bind, Option.bind_some, hline]
  rfl

theorem locate?_renewed_new (hzero : line ≠ 0) (hline : line ≤ m) :
    locate? .newToOld (renewedRuns n m old new) line = (add? n 1).map .dropped := by
  have hn : ∀ w, add? 0 w = some w := fun w => add?_eq_some.mpr (Nat.zero_add _)
  have hfirst : ¬ line ≤ 0 := by
    rw [UInt32.le_iff_toNat_le]
    exact fun h => hzero (UInt32.toNat_inj.mp (Nat.le_zero.mp h))
  rw [locate?, if_neg hzero, renewedRuns, walk?]
  simp only [Direction.inSource, Direction.inTarget, LineKind.inOld, LineKind.inNew, advance?,
    if_true, Bool.false_eq_true, if_false, hn, Option.bind_eq_bind, Option.bind_some, hfirst, walk?,
    hline]

end

namespace Diff

/-- The hunks of the text number their old lines from one on. -/
def Numbered (p : String) : Prop :=
  ∀ l ∈ lines p.toList, ∀ h, HunkHeader.ofLine? l = some h → h.oldCount ≠ 0 → h.oldStart ≠ 0

variable {contextLine : Bool} {text p q pd pa : String} {lead : List (List Char)}
  {before after parts : List String} {s : Section} {ls : List Line} {b : Block} {r : Run}
  {c d a e : FileChange} {set : DiffSet} {covered : Nat} {h : Hunk} {hs : List Hunk}
  {es : List FileChange}

theorem mem_blocks (hb : b ∈ (blocks ls).2) : b.line ∈ ls := by
  induction ls with
  | nil => cases hb
  | cons l ls ih =>
    rw [blocks] at hb
    dsimp only at hb
    split at hb
    · rcases List.mem_cons.mp hb with rfl | hb
      · exact List.mem_cons_self
      · exact List.mem_cons_of_mem _ (ih hb)
    · exact List.mem_cons_of_mem _ (ih hb)

theorem count_le_oldCount (hb : h.Balanced) (hr : r ∈ h.runs contextLine covered)
    (hkind : r.kind = .deleted) : r.count.toNat ≤ h.header.oldCount.toNat := by
  have hgroup : ∀ ls : List (LineKind × List Char), r ∈ Run.group ls →
      r.count.toNat ≤ ls.countP (·.1 = .deleted) := by
    intro ls hr
    obtain ⟨⟨k, ts⟩, hx, rfl⟩ := List.mem_map.mp hr
    have hk : k = .deleted := hkind
    subst hk
    calc (Run.ofLines .deleted ts).count.toNat = ts.length % 2 ^ 32 := UInt32.toNat_ofNat
      _ ≤ ts.length := Nat.mod_le _ _
      _ ≤ _ := Run.length_cluster hx
  have hgap : ∀ n, r ∉ Hunk.gapRuns n := by
    intro n hr
    rw [Hunk.gapRuns] at hr
    split at hr
    · cases hr
    · rw [List.mem_singleton.mp hr] at hkind
      cases hkind
  have hbody : h.body.countP (·.1 = .deleted) ≤ h.header.oldCount.toNat := by
    rw [← hb.old]
    refine List.countP_mono_left fun l _ hl => ?_
    rw [of_decide_eq_true hl]
    rfl
  rw [Hunk.runs] at hr
  split at hr
  · have hrun := hgroup _ ((List.mem_append.mp hr).resolve_left (hgap _))
    rw [List.countP_cons_of_neg (by simp)] at hrun
    exact hrun.trans hbody
  · exact (hgroup _ ((List.mem_append.mp hr).resolve_left (hgap _))).trans hbody

theorem exists_hunk_of_mem (hr : r ∈ Hunk.allRuns contextLine covered hs) :
    ∃ h ∈ hs, ∃ covered, r ∈ h.runs contextLine covered := by
  induction hs generalizing covered with
  | nil => cases hr
  | cons h hs ih =>
    rcases List.mem_append.mp hr with hr | hr
    · exact ⟨h, List.mem_cons_self, covered, hr⟩
    · obtain ⟨h', hh', hr⟩ := ih hr
      exact ⟨h', List.mem_cons_of_mem _ hh', hr⟩

theorem count_add_one_lt (hp : OneSection p) (hnumbered : Numbered p)
    (hc : ReadsAlone contextLine p c) (hr : r ∈ c.runs) (hkind : r.kind = .deleted) :
    r.count.toNat + 1 < 2 ^ 32 := by
  obtain ⟨s, hs, -⟩ := hp.section
  rcases runs_of_read ((readsAlone_iff hs).mp hc) with hruns | ⟨hs', hhunks, hruns⟩
  · rw [hruns] at hr
    cases hr
  rw [hruns] at hr
  obtain ⟨h, hh, covered, hr⟩ := exists_hunk_of_mem hr
  have hcount := count_le_oldCount (balanced_of_ofBlocks hhunks h hh) hr hkind
  obtain ⟨b, hb, hholds⟩ := exists_of_forall₂ (List.Forall₂.flip (holds_of_ofBlocks hhunks)) hh
  have hline : b.line ∈ number 1 (lines p.toList) :=
    mem_sections (.inr ⟨s, by rw [hs]; exact List.mem_singleton_self s, mem_blocks hb⟩)
  have hstart := hnumbered b.line.text (mem_number hline) h.header (Block.Holds.header hholds)
  have hfits := h.header.fits
  rw [bodyStartOf] at hfits
  have hsize : UInt32.size = 2 ^ 32 := rfl
  by_cases hzero : h.header.oldCount = 0
  · rw [hzero] at hcount
    have : (0 : UInt32).toNat = 0 := rfl
    omega
  · rw [if_neg hzero] at hfits
    have hone : h.header.oldStart.toNat ≠ 0 := fun h0 => hstart hzero (UInt32.toNat_inj.mp h0)
    omega

/-- The parts are read one by one and joined as the set. -/
def JoinAs (contextLine : Bool) (parts : List String) (set : DiffSet) : Prop :=
  ∃ cs, List.Forall₂ (ReadsAlone contextLine) parts cs ∧
    cs.foldlM DiffSet.absorb? .empty = some set

/-- The first part deletes the file that the second one adds. -/
structure Pair (contextLine : Bool) (pd pa : String) (d a : FileChange) : Prop where
  deleted : ReadsAlone contextLine pd d
  added : ReadsAlone contextLine pa a
  deletion : d.kind = .deletion
  addition : a.kind = .addition
  path : a.path = d.path

/-- The entry has the old side of a deletion and the new side of an addition. -/
structure Joined (d a e : FileChange) : Prop where
  path : e.path = d.path
  kind : e.kind = .modification
  runs : e.runs = d.runs ++ a.runs
  permissions : e.permissions = a.permissions
  oldPermissions : e.oldPermissions = d.permissions.or d.oldPermissions
  noTrailingNewline : e.noTrailingNewline = a.noTrailingNewline
  binary : e.binary = (d.binary || a.binary)

theorem Parted.parse_eq_ok (h : Parted text lead parts) :
    parse contextLine text = .ok set ↔ JoinAs contextLine parts set := by
  obtain ⟨ss, hss, hplaced⟩ := h.placed
  simp only [Diff.parse_eq_ok, hss, hplaced.reads, JoinAs]

theorem Parted.parse_refused (h : Parted text lead (before ++ p :: after))
    (hbefore : JoinAs contextLine before set) (hc : ReadsAlone contextLine p c)
    (hnone : set.absorb? c = none) : parse contextLine text =
      .error ⟨lead.length + lineCount before + 1, .duplicate c.path⟩ := by
  obtain ⟨ss, hss, hplaced⟩ := h.placed
  obtain ⟨cs, hcs, hfold⟩ := hbefore
  rw [parse, hss]
  exact hplaced.foldlM_error.mpr
    ⟨before, p, after, cs, set, rfl, hcs, hfold, .repeated hc hnone⟩

theorem ReadsAlone.unique (hc : ReadsAlone contextLine p c) (hd : ReadsAlone contextLine p d) :
    c = d := by
  obtain ⟨set, hset, hc⟩ := hc
  obtain ⟨set', hset', hd⟩ := hd
  rw [hset] at hset'
  cases hset'
  exact List.singleton_inj.mp (hc.symm.trans hd)

/-- Without the pair the other parts are joined as before. -/
theorem JoinAs.pair (h : JoinAs contextLine (before ++ pd :: pa :: after) set)
    (hpair : Pair contextLine pd pa d a) : ∃ set₀ rest set', JoinAs contextLine before set₀ ∧
      JoinAs contextLine (before ++ after) set' ∧
      DiffSet.OneMore set₀.entries (d.coalesce a) rest set set' := by
  obtain ⟨cs, hcs, hfold⟩ := h
  obtain ⟨cs₀, _, rfl, hbefore, hrest⟩ := forall₂_append_left hcs
  obtain ⟨d', _, hd, hrest', rfl⟩ := List.forall₂_cons_left_iff.mp hrest
  obtain ⟨a', cs₁, ha, hafter, rfl⟩ := List.forall₂_cons_left_iff.mp hrest'
  obtain rfl := hd.unique hpair.deleted
  obtain rfl := ha.unique hpair.added
  obtain ⟨set₀, rest, set', hset₀, hset', hmore⟩ :=
    DiffSet.foldlM_pair hpair.deletion hpair.path hfold
  exact ⟨set₀, rest, set', ⟨cs₀, hbefore, hset₀⟩,
    ⟨cs₀ ++ cs₁, List.rel_append hbefore hafter, hset'⟩, hmore⟩

theorem JoinAs.last_deletion (h : JoinAs contextLine parts set) (hlast : set.entries = es ++ [d])
    (hd : d.kind = .deletion) : ∃ pre q, parts = pre ++ [q] ∧ ReadsAlone contextLine q d := by
  obtain ⟨cs, hcs, hfold⟩ := h
  obtain ⟨gs, rfl, hgs⟩ := DiffSet.foldlM_absorb?.mp hfold
  rw [hlast] at hgs
  obtain ⟨gs, gs', rfl, -, hgs'⟩ := forall₂_append_right hgs
  obtain ⟨g, _, hg, hnil, rfl⟩ := List.forall₂_cons_right_iff.mp hgs'
  obtain rfl := List.forall₂_nil_right_iff.mp hnil
  rw [hg.eq_of_deletion hd, List.flatten_append] at hcs
  obtain ⟨pre, post, rfl, -, hpost⟩ := forall₂_append_right hcs
  obtain ⟨q, _, hq, hnil, rfl⟩ := List.forall₂_cons_right_iff.mp hpost
  obtain rfl := List.forall₂_nil_right_iff.mp hnil
  exact ⟨pre, q, rfl, hq⟩

/-- A deletion and the addition of its path right behind it make one entry in the place of the
deletion, with the old side of the one and the new side of the other; the other entries are those of
the document without the two. Where the one has deleted lines and the other added lines only, every
line of either file is dropped, the old ones before the first new line and the new ones behind the
last old line, whose number fits a word where lines are numbered from one. And any other part whose
path the parts before it have is refused at its first line. -/
theorem deletion_then_addition (contextLine : Bool) :
    (∀ text lead before pd pa after d a set, Parted text lead (before ++ pd :: pa :: after) →
      Pair contextLine pd pa d a → parse contextLine text = .ok set →
      ∃ es e es', set.entries = es ++ e :: es' ∧ Joined d a e ∧ set.get? d.path = some e ∧
        (∀ x ∈ es ++ es', x.path ≠ d.path) ∧
        (∀ text' lead', Parted text' lead' before →
          ∃ set', parse contextLine text' = .ok set' ∧ set'.entries = es) ∧
        (∀ text' lead', Parted text' lead' (before ++ after) →
          ∃ set', parse contextLine text' = .ok set' ∧ set'.entries = es ++ es') ∧
        ∀ n m old new, d.runs = [⟨.deleted, n, old⟩] → a.runs = [⟨.added, m, new⟩] →
          (∀ i, i ≠ 0 → i ≤ n →
            set.locate? .oldToNew d.path i = .ok (some (.dropped 1))) ∧
          (∀ j, j ≠ 0 → j ≤ m →
            set.locate? .newToOld d.path j = .ok ((add? n 1).map .dropped)) ∧
          (Numbered pd → ∃ following, following.toNat = n.toNat + 1 ∧ ∀ j, j ≠ 0 → j ≤ m →
            set.locate? .newToOld d.path j = .ok (some (.dropped following)))) ∧
    ∀ text lead before p after c set, Parted text lead (before ++ p :: after) →
      JoinAs contextLine before set → ReadsAlone contextLine p c → c.path ∈ set.paths →
      (∀ pre q d, before = pre ++ [q] → ¬ Pair contextLine q p d c) →
      parse contextLine text =
        .error ⟨lead.length + lineCount before + 1, .duplicate c.path⟩ := by
  constructor
  · intro text lead before pd pa after d a set hparts hpair hset
    obtain ⟨set₀, rest, set', hset₀, hset', hmore⟩ := (hparts.parse_eq_ok.mp hset).pair hpair
    have hget : set.get? d.path = some (d.coalesce a) := DiffSet.get?_of_mem hmore.mem
    have hlocate : ∀ direction line, set.locate? direction d.path line =
        .ok (locate? direction (d.coalesce a).runs line) := by
      intro direction line
      rw [DiffSet.locate?, hget]
      rfl
    refine ⟨set₀.entries, d.coalesce a, rest, hmore.more, ⟨rfl, rfl, rfl, rfl, rfl, rfl, rfl⟩, hget,
      ?_, fun text' lead' h => ⟨set₀, h.parse_eq_ok.mpr hset₀, rfl⟩,
      fun text' lead' h => ⟨set', h.parse_eq_ok.mpr hset', hmore.less⟩, ?_⟩
    · have hdistinct := set.distinct
      rw [hmore.more, (List.perm_middle.map _).nodup_iff, List.map_cons, List.nodup_cons]
        at hdistinct
      exact fun x hx hpath => hdistinct.1 (List.mem_map.mpr ⟨x, hx, hpath⟩)
    · intro n m old new hd ha
      have hruns : (d.coalesce a).runs = renewedRuns n m old new := by
        rw [FileChange.coalesce, hd, ha]
        rfl
      have hback : ∀ j, j ≠ 0 → j ≤ m →
          set.locate? .newToOld d.path j = .ok ((add? n 1).map .dropped) := by
        intro j hj hm
        rw [hlocate, hruns, locate?_renewed_new hj hm]
      refine ⟨fun i hi hn => by rw [hlocate, hruns, locate?_renewed_old hi hn], hback, ?_⟩
      intro hnumbered
      have hpart : OneSection pd := hparts.parts pd (by simp)
      have hroom : n.toNat + 1 < 2 ^ 32 := count_add_one_lt hpart hnumbered hpair.deleted
        (r := ⟨.deleted, n, old⟩) (by rw [hd]; exact List.mem_singleton_self _) rfl
      have hword : (UInt32.ofNat (n.toNat + 1)).toNat = n.toNat + 1 :=
        UInt32.toNat_ofNat_of_lt' hroom
      refine ⟨UInt32.ofNat (n.toNat + 1), hword, fun j hj hm => ?_⟩
      rw [hback j hj hm, add?_eq_some.mpr hword.symm, Option.map_some]
  · intro text lead before p after c set hparts hbefore hc hpath hother
    refine hparts.parse_refused hbefore hc (DiffSet.absorb?_eq_none hpath ?_)
    intro es d hlast hd ha hsame
    obtain ⟨pre, q, hpre, hq⟩ := hbefore.last_deletion hlast hd
    exact hother pre q d hpre ⟨hq, hc, hd, ha, hsame.symm⟩

def deletedLines : List (List Char) :=
  ["diff --git a/k b/k", "deleted file mode 100644", "@@ -1,2 +0,0 @@", "-a", "-b"].map
    String.toList

def addedLines : List (List Char) :=
  ["diff --git a/k b/k", "new file mode 100755", "@@ -0,0 +1 @@", "+c"].map String.toList

def deletedChange : FileChange :=
  { FileChange.plain "k" .deletion with
    permissions := some ⟨0o644⟩
    runs := [⟨.deleted, 2, "a\nb"⟩] }

def addedChange : FileChange :=
  { FileChange.plain "k" .addition with
    permissions := some ⟨0o755⟩
    runs := [⟨.added, 1, "c"⟩] }

theorem lines_deleted : lines (textOf deletedLines).toList = deletedLines :=
  lines_textOf (by decide)

theorem lines_added : lines (textOf addedLines).toList = addedLines := lines_textOf (by decide)

theorem pair_of_lines :
    Pair true (textOf deletedLines) (textOf addedLines) deletedChange addedChange :=
  ⟨(readsAlone_textOf (by decide) rfl).mpr rfl, (readsAlone_textOf (by decide) rfl).mpr rfl, rfl,
    rfl, rfl⟩

theorem numbered_deleted : Numbered (textOf deletedLines) := by
  have hall : ∀ l ∈ deletedLines, ∀ h ∈ HunkHeader.ofLine? l, h.oldCount ≠ 0 → h.oldStart ≠ 0 := by
    decide +kernel
  intro l hl h hh
  rw [lines_deleted] at hl
  exact hall l hl h hh

theorem parted_of_file (n : Nat) :
    Parted (textOf (deletedLines :: List.replicate n addedLines).flatten) []
      (textOf deletedLines :: List.replicate n (textOf addedLines)) := by
  have hgroups : ∀ g ∈ deletedLines :: List.replicate n addedLines,
      g = deletedLines ∨ g = addedLines := by
    intro g hg
    exact (List.mem_cons.mp hg).imp id List.eq_of_mem_replicate
  have hparted := parted_textOf (deletedLines :: List.replicate n addedLines)
    (fun g hg => by rcases hgroups g hg with rfl | rfl <;> decide)
    (fun g hg => by
      rcases hgroups g hg with rfl | rfl
      · exact ⟨_, _, rfl, by decide, by decide⟩
      · exact ⟨_, _, rfl, by decide, by decide⟩)
  rwa [List.map_cons, List.map_replicate] at hparted

theorem deletion_then_addition_of_file : ∃ set,
    parse true (textOf (deletedLines ++ addedLines)) = .ok set ∧
    (∃ e, set.entries = [e] ∧ Joined deletedChange addedChange e) ∧
    set.locate? .oldToNew "k" 2 = .ok (some (.dropped 1)) ∧
    set.locate? .newToOld "k" 1 = .ok (some (.dropped 3)) ∧
    parse true (textOf (deletedLines ++ addedLines ++ addedLines)) =
      .error ⟨10, .duplicate "k"⟩ := by
  have hparts := parted_of_file 1
  have hpair := pair_of_lines
  obtain ⟨set, hfold, hentries⟩ : ∃ set : DiffSet,
      [deletedChange, addedChange].foldlM DiffSet.absorb? .empty = some set ∧
        set.entries = [deletedChange.coalesce addedChange] := ⟨_, rfl, rfl⟩
  have hjoined : JoinAs true [textOf deletedLines, textOf addedLines] set :=
    ⟨_, .cons hpair.deleted (.cons hpair.added .nil), hfold⟩
  have hset := hparts.parse_eq_ok.mpr hjoined
  obtain ⟨hjoin, hrefused⟩ := deletion_then_addition true
  obtain ⟨es, e, es', hset', he, -, -, -, -, hlines⟩ :=
    hjoin _ [] [] _ _ [] _ _ set hparts hpair hset
  obtain ⟨hold, -, hnew⟩ := hlines 2 1 "a\nb" "c" rfl rfl
  obtain ⟨following, hfollowing, hnew⟩ := hnew numbered_deleted
  obtain rfl : following = 3 := UInt32.toNat_inj.mp hfollowing
  refine ⟨set, hset, ⟨e, ?_, he⟩, hold 2 (by decide) (by decide),
    hnew 1 (by decide) (by decide), ?_⟩
  · have hlength := congrArg List.length (hset'.symm.trans hentries)
    simp only [List.length_append, List.length_cons, List.length_nil] at hlength
    obtain rfl : es = [] := List.eq_nil_of_length_eq_zero (by omega)
    obtain rfl : es' = [] := List.eq_nil_of_length_eq_zero (by omega)
    exact hset'
  · have hthird := hrefused _ [] [_, _] _ [] addedChange set (parted_of_file 2) hjoined hpair.added
      (by rw [DiffSet.paths, hentries]; exact List.mem_singleton_self _) ?_
    · rwa [lineCount, List.flatMap_cons, List.flatMap_singleton, lines_deleted, lines_added]
        at hthird
    · -- The part before the third one adds the file as well.
      intro pre q d hpre hother
      obtain ⟨-, hq⟩ := List.append_inj'
        (show [textOf deletedLines] ++ [textOf addedLines] = pre ++ [q] from hpre) rfl
      obtain rfl := List.singleton_inj.mp hq
      have hkind := hother.deletion
      rw [hother.deleted.unique hpair.added] at hkind
      cases hkind

/-- The lines of a deletion that numbers the old lines from zero on. -/
def zeroedLines (n : Nat) : List (List Char) :=
  "deleted file mode 100644".toList :: "@@ -0,4294967295 +0,0 @@".toList :: List.replicate n ['-']

theorem plain_zeroed (n : Nat) : ∀ l ∈ zeroedLines n, '\n' ∉ l ∧ '\r' ∉ l := by
  have hrest : ∀ l ∈ List.replicate n ['-'], '\n' ∉ l ∧ '\r' ∉ l := by
    intro l hl
    rw [List.eq_of_mem_replicate hl]
    decide
  exact List.forall_mem_cons.mpr ⟨by decide, List.forall_mem_cons.mpr ⟨by decide, hrest⟩⟩

theorem not_marker_zeroed (n : Nat) : ∀ l ∈ zeroedLines n, startsWith marker l = false :=
  List.forall_mem_cons.mpr ⟨by decide, List.forall_mem_cons.mpr ⟨by decide,
    not_marker_repeated (.delete [])⟩⟩

theorem zeroed_alone {n : Nat} (hn : n = 4294967295) :
    ∃ d content, ReadsAlone true (textOf (sectionLines (zeroedLines n))) d ∧ d.path = "k" ∧
      d.kind = .deletion ∧ d.runs = [⟨.deleted, 4294967295, content⟩] := by
  obtain ⟨header, hdeclares, hstart⟩ : ∃ header,
      Declares "@@ -0,4294967295 +0,0 @@".toList (.delete []) n header ∧ header.bodyStart = 0 :=
    ⟨_, ⟨rfl, hn.symm, rfl⟩, rfl⟩
  obtain ⟨h, hblock, rfl, hshow⟩ := hdeclares.block (.delete []) 3 4
  have hgap : h.gap 0 = 0 := by rw [Hunk.gap, hstart]
  obtain ⟨content, hruns⟩ := runs_of_repeated true hshow (fun _ hk => LineKind.Shows.deleted hk)
    (by omega) hgap
  have hcut : Cut (number 2 (zeroedLines n)) [⟨2, "deleted file mode 100644".toList⟩]
      [⟨⟨3, "@@ -0,4294967295 +0,0 @@".toList⟩, number 4 (List.replicate n ['-'])⟩] :=
    ⟨by rw [List.flatMap_singleton]; rfl, by decide, List.forall_mem_singleton.mpr rfl,
      List.forall_mem_singleton.mpr (not_header_repeated (.delete []) 4)⟩
  have hhunks := ofBlocks_cons hblock (show Hunk.ofBlocks 1 [] = .ok [] from rfl)
  refine ⟨_, content, readsAlone_section (plain_zeroed n) (not_marker_zeroed n) hcut rfl rfl hhunks,
    rfl, rfl, ?_⟩
  rw [withHunks, Hunk.allRuns, hruns, hn]
  rfl

/-- Where lines are numbered from zero on, the number behind the last one need not fit a word. -/
theorem following_out_of_range : ∃ text pd pa d a set n m old new,
    Parted text [] [pd, pa] ∧ Pair true pd pa d a ∧ parse true text = .ok set ∧
      d.runs = [⟨.deleted, n, old⟩] ∧ a.runs = [⟨.added, m, new⟩] ∧ 1 ≤ m ∧
      set.locate? .newToOld d.path 1 = .ok none := by
  obtain ⟨n, hn⟩ : ∃ n, n = 4294967295 := ⟨_, rfl⟩
  obtain ⟨d, content, hdeleted, hpath, hkind, hruns⟩ := zeroed_alone hn
  have hpair : Pair true (textOf (sectionLines (zeroedLines n))) (textOf addedLines) d
      addedChange := ⟨hdeleted, pair_of_lines.added, hkind, rfl, hpath.symm⟩
  have hparts : Parted (textOf [sectionLines (zeroedLines n), addedLines].flatten) []
      [textOf (sectionLines (zeroedLines n)), textOf addedLines] := by
    refine parted_textOf [sectionLines (zeroedLines n), addedLines] ?_ ?_
    · refine List.forall_mem_cons.mpr ⟨List.forall_mem_cons.mpr ⟨by decide, plain_zeroed n⟩, ?_⟩
      exact List.forall_mem_singleton.mpr (by decide)
    · refine List.forall_mem_cons.mpr ⟨⟨_, _, rfl, by decide, not_marker_zeroed n⟩, ?_⟩
      exact List.forall_mem_singleton.mpr ⟨_, _, rfl, by decide, by decide⟩
  let set : DiffSet := ⟨[d.coalesce addedChange], List.nodup_singleton _⟩
  have hshare : DiffSet.Share [d, addedChange] (d.coalesce addedChange) :=
    .pair hpath hkind rfl
  have hfold : [[d, addedChange]].flatten.foldlM DiffSet.absorb? .empty = some set :=
    DiffSet.foldlM_of_share (.cons hshare .nil)
  have hset : parse true (textOf [sectionLines (zeroedLines n), addedLines].flatten) = .ok set :=
    hparts.parse_eq_ok.mpr ⟨_, .cons hpair.deleted (.cons hpair.added .nil), hfold⟩
  refine ⟨_, _, _, d, addedChange, set, 4294967295, 1, content, "c", hparts, hpair, hset, hruns, rfl,
    by decide, ?_⟩
  have hget : set.get? d.path = some (d.coalesce addedChange) :=
    DiffSet.get?_of_mem (s := set) (List.mem_singleton_self (d.coalesce addedChange))
  have hrenewed : (d.coalesce addedChange).runs = renewedRuns 4294967295 1 content "c" := by
    rw [FileChange.coalesce, hruns]
    rfl
  rw [DiffSet.locate?, hget]
  show Except.ok (locate? .newToOld (d.coalesce addedChange).runs 1) = _
  rw [hrenewed, locate?_renewed_new (by decide) (by decide)]
  rfl

end Diff

end SourceDelta
