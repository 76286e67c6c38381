import SourceDelta.Diff.Document
import SourceDelta.Proofs.EditHunks
import SourceDelta.Proofs.MarkerLines

/-!
# Line numbers across a written edit

A section of a diff presents an edit: it names the file, says what it likes
about it, and writes the edit as hunks. It is read whatever the reader does with
the text after the headers of its hunks, and the line numbers of both files are
those of the edit.
-/

set_option autoImplicit false

namespace SourceDelta.Diff
open SourceDelta.Text

/-- How the lines between the marker and the first hunk do not start. -/
def reservedMarks : List (List Char) :=
  [marker, "@@".toList, "GIT binary patch".toList, "Binary files ".toList]

/-- The lines of a section that presents an edit. -/
inductive SectionText (edits : List LineEdit) : List (List Char) → Prop
  | mk {p q names : List Char} {lead hunks : List (List Char)} (hnames : NamesText p q names)
      (hlead : ∀ l ∈ lead, ∀ mark ∈ reservedMarks, startsWith mark l = false)
      (hhunks : HunksText 0 0 edits hunks) :
      SectionText edits ((marker ++ names) :: (lead ++ hunks))

/-- The text is a section that presents the edit. -/
def Presents (text : String) (edits : List LineEdit) : Prop :=
  ∃ ls, SectionText edits ls ∧ Written ls text.toList

variable {contextLine : Bool} {text : String} {old new : Nat} {edits : List LineEdit}
  {names names' l : List Char} {ls cs : List (List Char)} {x : Line} {xs : List Line}

theorem forall₂_number (h : List.Forall₂ Reads ls cs) (n : Nat) :
    List.Forall₂ ReadsLine ls (number n cs) := by
  induction h generalizing n with
  | nil => exact .nil
  | cons hl _ ih => exact .cons hl (ih (n + 1))

theorem sections_lead (h : ∀ x ∈ xs, startsWith marker x.text = false) :
    sections xs = (xs, []) := by
  induction xs with
  | nil => rfl
  | cons x xs ih =>
    have hx := h x List.mem_cons_self
    rw [startsWith, Option.isSome_eq_false_iff, Option.isNone_iff_eq_none] at hx
    rw [sections, ih fun y hy => h y (List.mem_cons_of_mem _ hy), hx]

theorem sections_single (hmarker : after? marker x.text = some names)
    (hrest : ∀ y ∈ xs, startsWith marker y.text = false) :
    sections (x :: xs) = ([], [⟨x.number, names, xs⟩]) := by
  rw [sections, sections_lead hrest]
  simp only [hmarker]

theorem HunksText.not_marker (h : HunksText old new edits ls) :
    ∀ l ∈ ls, startsWith marker l = false := by
  induction h with
  | rest => simp
  | hunk hgap hheader hbody h ih =>
    intro l hl
    rcases List.mem_cons.mp hl with rfl | hl
    · obtain ⟨ha, hb, tail⟩ := hheader
      rfl
    · rcases List.mem_append.mp hl with hl | hl
      · exact hbody.not_startsWith rfl (by decide) l hl
      · exact ih l hl

theorem paths?_reads (h : Reads names names') : paths? names' = paths? names := by
  rw [paths?, paths?, h.trimEnd]

def binaryMarks : List (List Char) := ["GIT binary patch".toList, "Binary files ".toList]

theorem ofText_ne_binary (h : ∀ mark ∈ binaryMarks, startsWith mark l = false) :
    HeaderLine.ofText l ≠ .binary := by
  have hpatch : startsWith "GIT binary patch".toList l = false := h _ (by simp [binaryMarks])
  have hfiles : startsWith "Binary files ".toList l = false := h _ (by simp [binaryMarks])
  simp only [HeaderLine.ofText, hpatch, hfiles, Bool.or_self, Bool.false_eq_true, if_false]
  split_ifs <;> simp

theorem readHeader_binary (oldPath : String) (c : FileChange)
    (h : ∀ y ∈ xs, ∀ mark ∈ binaryMarks, startsWith mark y.text = false) :
    (readHeader oldPath c xs).binary = c.binary := by
  induction xs generalizing c with
  | nil => rfl
  | cons y ys ih =>
    have hrest := fun c => ih c fun z hz => h z (List.mem_cons_of_mem _ hz)
    rw [readHeader]
    split
    case h_6 hbinary => exact absurd hbinary (ofText_ne_binary (h y List.mem_cons_self))
    all_goals exact hrest _

/-- A section that presents an edit is read, and the runs of its change cover the edit. -/
theorem section_read {s : Section} {lead : List (List Char)} {hunks : List (List Char)}
    {ys zs : List Line} (hbody : s.body = ys ++ zs) (hnames : (paths? s.names).isSome = true)
    (hlead : ∀ l ∈ lead, ∀ mark ∈ reservedMarks, startsWith mark l = false)
    (hys : List.Forall₂ ReadsLine lead ys) (hhunks : HunksText 0 0 edits hunks)
    (hzs : List.Forall₂ ReadsLine hunks zs) (hold : (oldFile edits).length < 2 ^ 32 - 1)
    (hnew : (newFile edits).length < 2 ^ 32 - 1) (contextLine : Bool) :
    ∃ c, s.read contextLine = .ok c ∧ Covers c.runs edits := by
  obtain ⟨⟨a, b⟩, hpaths⟩ := Option.isSome_iff_exists.mp hnames
  have hmarks : ∀ y ∈ ys, ∀ mark ∈ reservedMarks, startsWith mark y.text = false := by
    intro y hy mark hmark
    obtain ⟨l, hl, hly⟩ := exists_of_forall₂ (List.Forall₂.flip hys) hy
    exact Reads.not_startsWith hly (hlead l hl mark hmark)
  rw [length_oldFile] at hold
  rw [length_newFile] at hnew
  obtain ⟨bs, hs, hblocks, hread, hcovers⟩ :=
    hhunks.read hzs (by rwa [Nat.zero_add]) (by rwa [Nat.zero_add]) s.line
  have hcut : blocks s.body = (ys, bs) :=
    hbody ▸ blocks_append (fun y hy => hmarks y hy _ (by simp [reservedMarks])) hblocks
  have hbinary := readHeader_binary (String.ofList a) (.plain (String.ofList b) .modification)
    fun y hy mark hmark => hmarks y hy mark (List.mem_cons_of_mem _ (List.mem_cons_of_mem _ hmark))
  refine ⟨{ readHeader (String.ofList a) (.plain (String.ofList b) .modification) ys with
    runs := Hunk.allRuns contextLine 0 hs
    noTrailingNewline := hs.any (·.unended) }, ?_, hcovers contextLine⟩
  rw [Section.read, Section.paths, hpaths]
  simp only [hcut, Except.bind, bind]
  rw [hbinary, if_neg (by exact Bool.false_ne_true), hread]

theorem absorb_empty {s : Section} {c : FileChange} (h : s.read contextLine = .ok c) :
    ∃ set, absorb contextLine .empty s = .ok set ∧ set.entries = [c] := by
  have hfresh : DiffSet.empty.contains c.path = false := rfl
  refine ⟨DiffSet.empty.push c hfresh, ?_, rfl⟩
  rw [absorb, h]
  rfl

theorem Presents.parse (h : Presents text edits) (hold : (oldFile edits).length < 2 ^ 32 - 1)
    (hnew : (newFile edits).length < 2 ^ 32 - 1) (contextLine : Bool) :
    ∃ set c, Diff.parse contextLine text = .ok set ∧ set.entries = [c] ∧ Covers c.runs edits := by
  obtain ⟨_, @⟨p, q, names, lead, hunks, hnames, hlead, hhunks⟩, hwritten⟩ := h
  obtain ⟨x, rest, hx, hrest, hlines⟩ :=
    List.forall₂_cons_left_iff.mp (forall₂_number hwritten.lines 1)
  obtain ⟨ys, zs, rfl, hys, hzs⟩ := forall₂_append_left hrest
  obtain ⟨names', htext, hnames'⟩ := Reads.append hx (by decide)
  have hmarker : after? marker x.text = some names' := after?_eq_some.mpr htext
  have hnone : ∀ y ∈ ys ++ zs, startsWith marker y.text = false := by
    intro y hy
    obtain ⟨l, hl, hly⟩ := exists_of_forall₂ (List.Forall₂.flip hrest) hy
    refine Reads.not_startsWith hly ?_
    rcases List.mem_append.mp hl with hl | hl
    · exact hlead l hl _ (by simp [reservedMarks])
    · exact hhunks.not_marker l hl
  have hpaths : (paths? names').isSome = true := by
    rw [paths?_reads hnames']
    exact hnames.paths?
  obtain ⟨c, hread, hcovers⟩ := section_read (s := ⟨x.number, names', ys ++ zs⟩) rfl hpaths hlead
    hys hhunks hzs hold hnew contextLine
  obtain ⟨set, habsorb, hentries⟩ := absorb_empty hread
  refine ⟨set, c, ?_, hentries, hcovers⟩
  rw [Diff.parse, hlines, sections_single hmarker hnone]
  simp only [List.foldlM_cons, List.foldlM_nil, bind_pure, habsorb]

/-- A section that presents an edit is read, with and without lines from its headers, and its runs
translate the line numbers of both files as the edit has them. Every line gets an answer: no sum
on the way leaves the 32-bit words. -/
theorem translation_exact (h : Presents text edits) (hold : (oldFile edits).length < 2 ^ 32 - 1)
    (hnew : (newFile edits).length < 2 ^ 32 - 1) (contextLine : Bool) :
    ∃ set c, parse contextLine text = .ok set ∧ set.entries = [c] ∧ Exact edits c.runs := by
  obtain ⟨set, c, hparse, hentries, hcovers⟩ := h.parse hold hnew contextLine
  exact ⟨set, c, hparse, hentries, hcovers.exact hold hnew⟩

def sampleEdits : List LineEdit :=
  [.keep ['a'], .keep ['b'], .add ['x'], .keep ['c'], .keep [], .delete ['d']]

def sampleLines : List (List Char) :=
  ["diff --git a/f b/f", "--- a/f", "+++ b/f", "@@ -2,0 +3 @@ main", "+x", "@@ -3,3 +4,2 @@", " c", "",
    "-d", "\\ No newline at end of file"].map String.toList

theorem sample_presents :
    Presents (String.ofList (sampleLines.flatMap fun l => l ++ ['\n'])) sampleEdits := by
  have hnumeral : ∀ n < 10, Numeral n [Nat.digitChar n] := by
    intro n hn
    exact ⟨0, by rw [Nat.toDigits_of_lt_base hn]; rfl⟩
  have hfirst : HeaderText 2 0 3 1 "@@ -2,0 +3 @@ main".toList :=
    .mk (.counted (hnumeral 2 (by decide)) (hnumeral 0 (by decide)))
      (.single (hnumeral 3 (by decide))) " main".toList
  have hsecond : HeaderText 3 3 4 2 "@@ -3,3 +4,2 @@".toList :=
    .mk (.counted (hnumeral 3 (by decide)) (hnumeral 3 (by decide)))
      (.counted (hnumeral 4 (by decide)) (hnumeral 2 (by decide))) []
  have hbody : BodyText [.keep ['c'], .keep [], .delete ['d']]
      [" c".toList, [], "-d".toList, "\\ No newline at end of file".toList] :=
    .line (.keep _) (.line .blank (.line (.delete _) (.note _ .nil)))
  have hlast : HunksText 2 3 ([] ++ ([.keep ['c'], .keep [], .delete ['d']] ++ []))
      ("@@ -3,3 +4,2 @@".toList :: ([" c".toList, [], "-d".toList,
        "\\ No newline at end of file".toList] ++ [])) :=
    .hunk (by simp) hsecond hbody (.rest (by simp))
  have hhunks : HunksText 0 0 ([.keep ['a'], .keep ['b']] ++ ([.add ['x']] ++ _))
      ("@@ -2,0 +3 @@ main".toList :: (["+x".toList] ++ _)) :=
    .hunk (by simp [LineEdit.Stays, LineEdit.inOld, LineEdit.inNew]) hfirst
      (.line (.add _) .nil) hlast
  have hnames : NamesText ['f'] ['f'] "a/f b/f".toList := .plain (by decide) (by decide)
  have hlead : ∀ l ∈ ["--- a/f".toList, "+++ b/f".toList], ∀ mark ∈ reservedMarks,
      startsWith mark l = false := by decide
  exact ⟨sampleLines, .mk hnames hlead hhunks, by
    rw [String.toList_ofList]
    exact written_flatMap (by decide)⟩

theorem translation_exact_of_two_hunks :
    ∃ set c, parse true (String.ofList (sampleLines.flatMap fun l => l ++ ['\n'])) = .ok set ∧
      set.entries = [c] ∧ Exact sampleEdits c.runs :=
  translation_exact sample_presents (by decide) (by decide) true

end SourceDelta.Diff
