import Mathlib.Data.List.Nodup
import Mathlib.Data.List.TakeWhile
import SourceDelta.Proofs.Parts

/-!
# Files that are named twice

A section that changes a file in place names it twice, as `a/P b/P`, and needs no
quotes when the path has no quote or backslash. The line is cut at its middle, so
spaces and ` b/` inside the path do no harm. But blank characters at the end of
the line are dropped first: the middle of what is left is no place to cut, and a
path with blanks at its end loses them and what stands before its last ` b/`.
-/

set_option autoImplicit false

namespace SourceDelta.Diff
open SourceDelta.Text

def twice (p : List Char) : List Char := "a/".toList ++ p ++ (" b/".toList ++ p)

def newSide (p : List Char) : List Char :=
  match cutLast? " b/".toList p with
  | some (_, rest) => rest.drop 3
  | none => p

/-- The path that is read where a path is named twice. -/
def readName (p : List Char) : List Char := if trimEnd p = p then p else newSide (trimEnd p)

variable {p q t u cs mark a b : List Char} {c d : Char}

theorem samePath?_twice (p : List Char) : samePath? (twice p) = some p := by
  have hlength : (twice p).length = 2 * (p.length + 2) + 1 := by
    simp [twice]
    omega
  have hhalf : (twice p).length / 2 = ("a/".toList ++ p).length := by
    rw [hlength, List.length_append]
    have htwo : "a/".toList.length = 2 := rfl
    omega
  rw [samePath?, if_pos (by omega), hhalf]
  simp only [twice, List.take_left, List.drop_left]
  rw [after?_eq_some.mpr rfl, after?_eq_some.mpr rfl]
  exact if_pos rfl

theorem exists_trimEnd (p : List Char) :
    ∃ t, p = trimEnd p ++ t ∧ ∀ c ∈ t, isBlank c = true := by
  refine ⟨(p.reverse.takeWhile isBlank).reverse, ?_, fun c hc => ?_⟩
  · rw [trimEnd, ← List.reverse_append, List.takeWhile_append_dropWhile, List.reverse_reverse]
  · exact List.mem_takeWhile_imp (List.mem_reverse.mp hc)

theorem after?_blank (hd : isBlank d = true) (rest : List Char) :
    after? " b/".toList (c :: d :: rest) = none := by
  have hb : ¬ 'b' = d := by
    rintro rfl
    exact absurd hd (by decide)
  simp [after?, hb]

theorem samePath?_of_half (h : after? " b/".toList (cs.drop (cs.length / 2)) = none) :
    samePath? cs = none := by
  rw [samePath?]
  split
  · dsimp only
    rw [h]
    split
    next heq => cases heq
    next => rfl
  · rfl

/-- When blanks at the end of the second path have been dropped, the middle of the line lies among
those of the first one. -/
theorem samePath?_trimmed (ht : ∀ c ∈ t, isBlank c = true) (hne : t ≠ []) :
    samePath? ("a/".toList ++ (q ++ t) ++ (" b/".toList ++ q)) = none := by
  have hlength : ("a/".toList ++ (q ++ t) ++ (" b/".toList ++ q)).length =
      2 * (q.length + 2) + t.length + 1 := by
    simp
    omega
  by_cases heven : t.length % 2 = 1
  · rw [samePath?, if_neg (by omega)]
  obtain ⟨x, y, rfl, hx⟩ : ∃ x y, t = x ++ y ∧ x.length = t.length / 2 :=
    ⟨t.take (t.length / 2), t.drop (t.length / 2), (List.take_append_drop _ _).symm, by
      rw [List.length_take]
      omega⟩
  have hsplit : "a/".toList ++ (q ++ (x ++ y)) ++ (" b/".toList ++ q) =
      ("a/".toList ++ q ++ x) ++ (y ++ (" b/".toList ++ q)) := by simp
  have hhalf : ("a/".toList ++ (q ++ (x ++ y)) ++ (" b/".toList ++ q)).length / 2 =
      ("a/".toList ++ q ++ x).length := by
    have hstart : ("a/".toList ++ q ++ x).length = q.length + 2 + x.length := by
      simp
      omega
    rw [hlength, hstart]
    omega
  refine samePath?_of_half ?_
  rw [hhalf, hsplit, List.drop_left]
  match y, hx, hne, ht with
  | [], hx, hne, _ =>
    have hx : x = [] := List.eq_nil_of_length_eq_zero (by simp at hx; omega)
    exact absurd (by simp [hx]) hne
  | [c], _, _, _ => exact after?_blank (by decide) _
  | c :: d :: y, _, _, ht => exact after?_blank (ht d (by simp)) _

theorem cutLast?_eq_append (h : cutLast? mark cs = some (a, b)) : cs = a ++ b := by
  induction cs generalizing a with
  | nil =>
    rw [cutLast?] at h
    split at h
    · cases h
      rfl
    · cases h
  | cons c cs ih =>
    rw [cutLast?] at h
    split at h
    next hcut =>
      cases h
      rw [ih hcut, List.cons_append]
    next =>
      split at h
      · cases h
        rfl
      · cases h

theorem cutLast?_behind (h : cutLast? mark cs = some (a, b)) (u : List Char) :
    cutLast? mark (u ++ cs) = some (u ++ a, b) := by
  induction u with
  | nil => exact h
  | cons c u ih => rw [List.cons_append, cutLast?, ih, List.cons_append]

theorem cutLast?_sides (u q : List Char) :
    ∃ x, cutLast? " b/".toList (u ++ (" b/".toList ++ q)) =
      some (u ++ x, " b/".toList ++ newSide q) := by
  rw [newSide]
  cases hcut : cutLast? " b/".toList q with
  | none =>
    have hrest : cutLast? " b/".toList ("b/".toList ++ q) = none :=
      cutLast?_cons rfl (cutLast?_cons rfl hcut)
    refine ⟨[], ?_⟩
    rw [List.append_nil]
    exact cutLast?_last rfl hrest u
  | some ab =>
    obtain ⟨a, b⟩ := ab
    obtain ⟨rest, rfl⟩ := cutLast?_startsWith hcut
    refine ⟨" b/".toList ++ a, ?_⟩
    rw [← List.append_assoc, cutLast?_behind hcut, List.append_assoc]
    rfl

theorem newSide_subset (p : List Char) : newSide p ⊆ p := by
  rw [newSide]
  split
  next a rest hcut =>
    rw [cutLast?_eq_append hcut]
    exact fun c hc => List.mem_append_right _ (List.drop_subset 3 rest hc)
  next => exact List.Subset.refl p

theorem paths?_same (hquote : '"' ∉ p) (hslash : '\\' ∉ p) (htrim : trimEnd p = p) :
    paths? (twice p) = some (p, p) := by
  have hunquoted := not_quoted_plain hquote hquote
  have hsame := samePath?_twice p
  rw [twice] at hsame
  rw [htrim] at hunquoted
  rw [paths?, twice, trimEnd_plain, htrim]
  simp only [hunquoted, Bool.false_eq_true, if_false, hsame, forward_eq_self hslash]

/-- Where a path without quotes and backslashes is named twice, `readName` of it is read as the new
path. -/
theorem paths?_twice (hquote : '"' ∉ p) (hslash : '\\' ∉ p) :
    ∃ old, paths? (twice p) = some (old, readName p) := by
  by_cases htrim : trimEnd p = p
  · exact ⟨p, by rw [readName, if_pos htrim, paths?_same hquote hslash htrim]⟩
  · have hforward : forward (newSide (trimEnd p)) = newSide (trimEnd p) :=
      forward_eq_self fun h => hslash (mem_of_mem_trimEnd (newSide_subset _ h))
    have hunquoted := not_quoted_plain hquote hquote
    obtain ⟨t, ht, hblank⟩ := exists_trimEnd p
    have hne : t ≠ [] := by
      rintro rfl
      rw [List.append_nil] at ht
      exact htrim ht.symm
    have hsame := samePath?_trimmed (q := trimEnd p) hblank hne
    rw [← ht] at hsame
    obtain ⟨x, hcut⟩ := cutLast?_sides ("a/".toList ++ p) (trimEnd p)
    refine ⟨forward (p ++ x), ?_⟩
    rw [readName, if_neg htrim, paths?, twice, trimEnd_plain]
    simp only [hunquoted, Bool.false_eq_true, if_false, hsame, sides?, hcut, Option.map_some,
      Option.bind_eq_bind, Option.bind_some]
    have hold : after? "a/".toList ("a/".toList ++ p ++ x) = some (p ++ x) :=
      after?_eq_some.mpr (List.append_assoc _ _ _)
    have hnew : after? "b/".toList ((" b/".toList ++ newSide (trimEnd p)).drop 1) =
        some (newSide (trimEnd p)) := after?_eq_some.mpr rfl
    rw [hold, hnew, Option.bind_some, Option.bind_some, hforward]

def creationMarks : List (List Char) := ["new file mode".toList, "deleted file mode".toList]

/-- The body of a section that changes a file in place: it says that the file is binary, or all its
hunks are there. -/
def Modifies (body : List Line) : Prop :=
  ∃ lead bs, Cut body lead bs ∧ (∀ l ∈ body, startsWith marker l.text = false) ∧
    (∀ l ∈ lead, ∀ mark ∈ creationMarks, startsWith mark l.text = false) ∧
    ((∃ l ∈ lead, ∃ mark ∈ binaryMarks, startsWith mark l.text = true) ∨ ∀ b ∈ bs, b.Filled)

/-- The lines of the text are, path by path, a marker line that names the path twice and a body that
changes the file in place. -/
structure ChangesInPlace (text : String) (paths : List (List Char)) (ss : List Section) : Prop where
  lines : number 1 (lines text.toList) =
    ss.flatMap fun s => ⟨s.line, marker ++ s.names⟩ :: s.body
  names : List.Forall₂ (fun p s => s.names = twice p) paths ss
  bodies : ∀ s ∈ ss, Modifies s.body

variable {text : String} {paths : List (List Char)} {s : Section} {ss : List Section}
  {lead body : List Line}

theorem Modifies.not_marker (h : Modifies body) : ∀ l ∈ body, startsWith marker l.text = false := by
  obtain ⟨lead, bs, -, hmarker, -⟩ := h
  exact hmarker

theorem ofText_in_place {l : List Char} (h : ∀ mark ∈ creationMarks, startsWith mark l = false)
    (mode : Option Permissions) :
    HeaderLine.ofText l ≠ .newFile mode ∧ HeaderLine.ofText l ≠ .deletedFile mode := by
  have hnew : startsWith "new file mode".toList l = false := h _ (by simp [creationMarks])
  have hdeleted : startsWith "deleted file mode".toList l = false := h _ (by simp [creationMarks])
  simp only [HeaderLine.ofText, hnew, hdeleted, Bool.false_eq_true, if_false]
  split_ifs <;> simp

theorem ofText_binary {l : List Char} (h : ∃ mark ∈ binaryMarks, startsWith mark l = true) :
    HeaderLine.ofText l = .binary := by
  obtain ⟨mark, hmark, hl⟩ := h
  obtain ⟨rest, rfl⟩ := startsWith_iff.mp hl
  rcases List.mem_pair.mp hmark with rfl | rfl <;> rfl

theorem readHeader_in_place (oldPath : String) (c : FileChange)
    (h : ∀ l ∈ lead, ∀ mark ∈ creationMarks, startsWith mark l.text = false) :
    (readHeader oldPath c lead).path = c.path ∧ (readHeader oldPath c lead).kind = c.kind := by
  induction lead generalizing c with
  | nil => exact ⟨rfl, rfl⟩
  | cons l ls ih =>
    have hl := ofText_in_place (h l List.mem_cons_self)
    have hrest := fun c => ih c fun y hy => h y (List.mem_cons_of_mem _ hy)
    rw [readHeader]
    split
    case h_1 mode hmode => exact absurd hmode (hl mode).1
    case h_2 mode hmode => exact absurd hmode (hl mode).2
    case h_6 => exact ⟨rfl, rfl⟩
    all_goals exact hrest _

theorem readHeader_of_binary (oldPath : String) (c : FileChange)
    (h : ∃ l ∈ lead, ∃ mark ∈ binaryMarks, startsWith mark l.text = true) :
    (readHeader oldPath c lead).binary = true := by
  induction lead generalizing c with
  | nil =>
    obtain ⟨l, hl, -⟩ := h
    cases hl
  | cons l ls ih =>
    obtain ⟨y, hy, hmark⟩ := h
    rw [readHeader]
    rcases List.mem_cons.mp hy with rfl | hy
    · rw [ofText_binary hmark]
    · split
      case h_6 => rfl
      all_goals exact ih _ ⟨y, hy, hmark⟩

theorem read_in_place {old : List Char} (hnames : paths? s.names = some (old, p))
    (h : Modifies s.body) (contextLine : Bool) :
    ∃ c, s.read contextLine = .ok c ∧ c.path = String.ofList p ∧ c.kind = .modification := by
  obtain ⟨lead, bs, hcut, -, hlead, hbody⟩ := h
  have hpaths : s.paths = .ok (String.ofList old, String.ofList p) := by
    rw [Section.paths, hnames]
  have hheader : s.header (String.ofList old) (String.ofList p) =
      readHeader (String.ofList old) (.plain (String.ofList p) .modification) lead := by
    rw [Section.header, hcut.blocks]
  obtain ⟨hpath, hkind⟩ := readHeader_in_place (String.ofList old)
    (.plain (String.ofList p) .modification) hlead
  rw [← hheader] at hpath hkind
  by_cases hbinary : (s.header (String.ofList old) (String.ofList p)).binary = true
  · refine ⟨s.header (String.ofList old) (String.ofList p), read_eq_ok.mpr ⟨_, _, hpaths, ?_⟩,
      hpath, hkind⟩
    rw [if_pos hbinary]
  · have hfilled : ∀ b ∈ bs, b.Filled := hbody.resolve_left fun hmark =>
      hbinary (hheader ▸ readHeader_of_binary _ _ hmark)
    obtain ⟨hs, hhunks⟩ := exists_ofBlocks hfilled s.line
    refine ⟨withHunks contextLine (s.header (String.ofList old) (String.ofList p)) hs,
      read_eq_ok.mpr ⟨_, _, hpaths, ?_⟩, hpath, hkind⟩
    rw [if_neg hbinary, hcut.blocks]
    exact ⟨hs, hhunks, rfl⟩

theorem sections_flatMap (hmarker : ∀ s ∈ ss, ∀ l ∈ s.body, startsWith marker l.text = false) :
    sections (ss.flatMap fun s => ⟨s.line, marker ++ s.names⟩ :: s.body) = ([], ss) := by
  induction ss with
  | nil => rfl
  | cons s ss ih =>
    have hrest := ih fun s' hs' => hmarker s' (List.mem_cons_of_mem _ hs')
    have hfirst : sections (⟨s.line, marker ++ s.names⟩ :: s.body) = ([], [s]) :=
      sections_single (after?_eq_some.mpr rfl) (hmarker s List.mem_cons_self)
    rw [List.flatMap_cons, sections_append (by rw [hrest]), hfirst, hrest]
    rfl

theorem reads_in_place (hnames : List.Forall₂ (fun p s => s.names = twice p) paths ss)
    (hbodies : ∀ s ∈ ss, Modifies s.body) (hplain : ∀ p ∈ paths, '"' ∉ p ∧ '\\' ∉ p)
    (contextLine : Bool) :
    ∃ cs, List.Forall₂ (fun s c => s.read contextLine = .ok c) ss cs ∧
      cs.map FileChange.path = paths.map (fun p => String.ofList (readName p)) ∧
      ∀ c ∈ cs, c.kind = .modification := by
  induction hnames with
  | nil => exact ⟨[], .nil, rfl, List.forall_mem_nil _⟩
  | @cons p s paths ss hs _ ih =>
    obtain ⟨hquote, hslash⟩ := hplain p List.mem_cons_self
    obtain ⟨cs, hcs, hpaths, hkinds⟩ := ih (fun s' hs' => hbodies s' (List.mem_cons_of_mem _ hs'))
      fun q hq => hplain q (List.mem_cons_of_mem _ hq)
    obtain ⟨old, hread⟩ := paths?_twice hquote hslash
    rw [← hs] at hread
    obtain ⟨c, hc, hpath, hkind⟩ := read_in_place hread (hbodies s List.mem_cons_self) contextLine
    refine ⟨c :: cs, .cons hc hcs, ?_, List.forall_mem_cons.mpr ⟨hkind, hkinds⟩⟩
    rw [List.map_cons, List.map_cons, hpath, hpaths]

theorem ChangesInPlace.parse (h : ChangesInPlace text paths ss)
    (hplain : ∀ p ∈ paths, '"' ∉ p ∧ '\\' ∉ p) (contextLine : Bool) :
    ∃ cs : List FileChange,
      cs.map FileChange.path = paths.map (fun p => String.ofList (readName p)) ∧
      ∀ set, Diff.parse contextLine text = .ok set ↔ set.entries = cs := by
  obtain ⟨cs, hcs, hpaths, hkinds⟩ := reads_in_place h.names h.bodies hplain contextLine
  have hsections : (sections (number 1 (Text.lines text.toList))).2 = ss := by
    rw [h.lines, sections_flatMap fun s hs => (h.bodies s hs).not_marker]
  refine ⟨cs, hpaths, fun set => ?_⟩
  rw [parse_eq_ok, hsections, ← DiffSet.foldlM_modifications hkinds]
  constructor
  · rintro ⟨cs', hcs', hfold⟩
    have hsame : cs' = cs := List.right_unique_forall₂'
      (fun _ _ _ hc hc' => Except.ok.inj (hc.symm.trans hc')) hcs' hcs
    rwa [hsame] at hfold
  · exact fun hfold => ⟨cs, hcs, hfold⟩

/-- Files that are changed in place, with names that need no quotes, are read when no two of their
names are read as the same path, and then under these paths and in this order. Where no name ends in
a blank character the paths are the names, and nothing but a repeated name is refused. -/
theorem plain_names_read (h : ChangesInPlace text paths ss)
    (hplain : ∀ p ∈ paths, '"' ∉ p ∧ '\\' ∉ p) (contextLine : Bool) :
    ((∃ set, parse contextLine text = .ok set) ↔ (paths.map readName).Nodup) ∧
    (∀ set, parse contextLine text = .ok set →
      set.paths = paths.map fun p => String.ofList (readName p)) ∧
    ((∀ p ∈ paths, trimEnd p = p) → paths.Nodup →
      ∃ set, parse contextLine text = .ok set ∧ set.paths = paths.map String.ofList ∧
        ∀ p ∈ paths, ∃ c, set.get? (String.ofList p) = some c ∧ c.path = String.ofList p) := by
  obtain ⟨cs, hpaths, hparse⟩ := h.parse hplain contextLine
  have hset : ∀ set, parse contextLine text = .ok set →
      set.paths = paths.map fun p => String.ofList (readName p) := by
    intro set hset
    rw [DiffSet.paths, (hparse set).mp hset, hpaths]
  have hnodup : (cs.map FileChange.path).Nodup ↔ (paths.map readName).Nodup := by
    rw [hpaths, ← List.nodup_map_iff (l := paths.map readName)
      (fun _ _ h => String.ofList_injective h), List.map_map]
    rfl
  have haccepted : (∃ set, parse contextLine text = .ok set) ↔ (paths.map readName).Nodup := by
    rw [← hnodup]
    constructor
    · rintro ⟨set, hset⟩
      rw [← (hparse set).mp hset]
      exact set.distinct
    · exact fun hdistinct => ⟨⟨cs, hdistinct⟩, (hparse _).mpr rfl⟩
  refine ⟨haccepted, hset, fun htrim hdistinct => ?_⟩
  have hname : ∀ p ∈ paths, readName p = p := fun p hp => if_pos (htrim p hp)
  obtain ⟨set, hparsed⟩ := haccepted.mpr (by
    rw [List.map_congr_left hname, List.map_id']
    exact hdistinct)
  have hsame : set.paths = paths.map String.ofList := by
    rw [hset set hparsed]
    exact List.map_congr_left fun p hp => congrArg String.ofList (hname p hp)
  refine ⟨set, hparsed, hsame, fun p hp => DiffSet.exists_get? ?_⟩
  rw [hsame]
  exact List.mem_map_of_mem hp

/-- The names of two files, one of which could be taken for two sides. -/
def spacedPaths : List (List Char) := ["dir b/x.c".toList, "é f".toList]

def spacedLines : List (List Char) :=
  ["diff --git a/dir b/x.c b/dir b/x.c", "old mode 100644", "new mode 100755",
    "diff --git a/é f b/é f", "index 1111111..2222222 100644", "@@ -1 +1 @@", "-a", "+b"].map
    String.toList

def spacedSections : List Section :=
  [⟨1, twice "dir b/x.c".toList, number 2 ((spacedLines.drop 1).take 2)⟩,
    ⟨4, twice "é f".toList, number 5 (spacedLines.drop 4)⟩]

theorem spaced_changesInPlace :
    ChangesInPlace (String.ofList (spacedLines.flatMap fun l => l ++ ['\n'])) spacedPaths
      spacedSections := by
  have hhunk : Block.Filled ⟨⟨6, "@@ -1 +1 @@".toList⟩, number 7 (spacedLines.drop 6)⟩ :=
    ⟨_, _, rfl, List.prefix_refl _, by decide, by decide, by decide⟩
  refine ⟨by rw [String.toList_ofList]; rfl, .cons rfl (.cons rfl .nil), ?_⟩
  refine List.forall_mem_cons.mpr ⟨?_, List.forall_mem_singleton.mpr ?_⟩
  · exact ⟨number 2 ((spacedLines.drop 1).take 2), [], ⟨rfl, by decide, by decide, by decide⟩,
      by decide, by decide, .inr (List.forall_mem_nil _)⟩
  · exact ⟨number 5 ((spacedLines.drop 4).take 1), [_], ⟨rfl, by decide, by decide, by decide⟩,
      by decide, by decide, .inr (List.forall_mem_singleton.mpr hhunk)⟩

theorem plain_names_read_of_spaced :
    ∃ set, parse true (String.ofList (spacedLines.flatMap fun l => l ++ ['\n'])) = .ok set ∧
      set.paths = ["dir b/x.c", "é f"] ∧ (set.get? "é f").isSome = true := by
  obtain ⟨-, -, hread⟩ := plain_names_read spaced_changesInPlace (by decide) true
  obtain ⟨set, hparse, hpaths, hget⟩ := hread (by decide) (by decide)
  obtain ⟨c, hc, -⟩ := hget "é f".toList (by decide)
  exact ⟨set, hparse, hpaths, Option.isSome_iff_exists.mpr ⟨c, hc⟩⟩

end SourceDelta.Diff
