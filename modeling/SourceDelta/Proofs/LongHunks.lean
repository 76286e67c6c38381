import SourceDelta.Proofs.Parts

/-!
# Hunks of many equal lines

A header may declare as many lines as a word can count. A hunk that repeats one
added or deleted line that often is read like any other and makes one run, which
is shown here for every number of lines, as no such text can be evaluated.
-/

set_option autoImplicit false

namespace SourceDelta
open SourceDelta.Text

variable {k : LineKind} {t : List Char} {body : List (LineKind × List Char)}

theorem clusters_of_kind (h : ∀ l ∈ body, l.1 = k) (hne : body ≠ []) :
    Run.clusters body = [(k, body.map Prod.snd)] := by
  induction body with
  | nil => exact absurd rfl hne
  | cons l body ih =>
    obtain ⟨rfl, hrest⟩ := List.forall_mem_cons.mp h
    obtain ⟨k, t⟩ := l
    rw [Run.clusters]
    cases body with
    | nil => rfl
    | cons l' body =>
      rw [ih hrest (List.cons_ne_nil _ _)]
      exact if_pos rfl

theorem group_of_kind (h : ∀ l ∈ body, l.1 = k) (hne : body ≠ []) :
    Run.group body = [Run.ofLines k (body.map Prod.snd)] := by
  rw [Run.group, clusters_of_kind h hne]
  rfl

theorem LineKind.Shows.added (h : k.Shows (.add t)) : k = .added := by
  obtain ⟨hold, -⟩ := h
  cases k <;> first | rfl | cases hold

theorem LineKind.Shows.deleted (h : k.Shows (.delete t)) : k = .deleted := by
  obtain ⟨-, hnew⟩ := h
  cases k <;> first | rfl | cases hnew

namespace Diff

variable {contextLine : Bool} {cs l : List Char} {ls : List (List Char)} {e : LineEdit}
  {s : Section} {c : FileChange} {h : Hunk} {header : HunkHeader} {n covered : Nat}

/-- The text of lines, each ended by a line feed. -/
def textOf (ls : List (List Char)) : String := String.ofList (ls.flatMap fun l => l ++ ['\n'])

theorem lines_textOf (h : ∀ l ∈ ls, '\n' ∉ l ∧ '\r' ∉ l) : lines (textOf ls).toList = ls := by
  rw [textOf, String.toList_ofList]
  induction ls with
  | nil => rfl
  | cons l ls ih =>
    obtain ⟨⟨hbreak, hreturn⟩, hls⟩ := List.forall_mem_cons.mp h
    have hdrop : dropReturn l = l := by
      rw [dropReturn]
      split
      next rest hl => exact absurd (List.mem_reverse.mp (hl ▸ List.mem_cons_self)) hreturn
      next => rfl
    rw [List.flatMap_cons, List.append_assoc, List.singleton_append, lines_append hbreak, ih hls,
      hdrop]

theorem parted_textOf (gs : List (List (List Char)))
    (hplain : ∀ g ∈ gs, ∀ l ∈ g, '\n' ∉ l ∧ '\r' ∉ l)
    (hmarker : ∀ g ∈ gs, ∃ l ls, g = l :: ls ∧ startsWith marker l = true ∧
      ∀ x ∈ ls, startsWith marker x = false) :
    Parted (textOf gs.flatten) [] (gs.map textOf) := by
  refine ⟨?_, List.forall_mem_nil _, ?_⟩
  · rw [lines_textOf fun l hl => ?_, List.nil_append, List.flatMap_map]
    · rw [List.flatMap_congr fun g hg => lines_textOf (hplain g hg), List.flatMap_id']
    · obtain ⟨g, hg, hl⟩ := List.mem_flatten.mp hl
      exact hplain g hg l hl
  · rw [List.forall_mem_map]
    intro g hg
    obtain ⟨l, ls, rfl, hl, hls⟩ := hmarker g hg
    exact ⟨l, ls, lines_textOf (hplain _ hg), hl, hls⟩

theorem readsAlone_textOf (hplain : ∀ l ∈ ls, '\n' ∉ l ∧ '\r' ∉ l)
    (hs : sections (number 1 ls) = ([], [s])) :
    ReadsAlone contextLine (textOf ls) c ↔ s.read contextLine = .ok c :=
  readsAlone_iff ((congrArg (fun ls => sections (number 1 ls)) (lines_textOf hplain)).trans hs)

theorem bodyText_replicate (hl : LineText e l) (n : Nat) :
    BodyText (List.replicate n e) (List.replicate n l) := by
  induction n with
  | zero => exact .nil
  | succ n ih => exact .line hl ih

/-- The header declares so many lines that the edit repeats, and none else. -/
structure Declares (cs : List Char) (e : LineEdit) (n : Nat) (header : HunkHeader) : Prop where
  read : HunkHeader.ofLine? cs = some header
  old : header.oldCount.toNat = if e.inOld then n else 0
  new : header.newCount.toNat = if e.inNew then n else 0

theorem Declares.block (hd : Declares cs e n header) (hl : LineText e l) (line first : Nat) :
    ∃ h, (∀ inSection, Hunk.ofBlock inSection ⟨⟨line, cs⟩, number first (List.replicate n l)⟩ =
        .ok h) ∧ h.header = header ∧ List.Forall₂ ShowsLine (List.replicate n e) h.body :=
  (bodyText_replicate hl n).block hd.read (hd.old.trans List.countP_replicate.symm)
    (hd.new.trans List.countP_replicate.symm)
    (forall₂_number (List.forall₂_same.mpr fun _ _ => .inl rfl) first)

/-- Where no gap is before them, repeated lines are one run. -/
theorem runs_of_repeated (contextLine : Bool)
    (hshow : List.Forall₂ ShowsLine (List.replicate n e) h.body)
    (hkind : ∀ k' : LineKind, k'.Shows e → k' = k) (hn : 0 < n) (hgap : h.gap covered = 0) :
    ∃ content, h.runs contextLine covered = [⟨k, UInt32.ofNat n, content⟩] := by
  have hlength : h.body.length = n := by rw [← hshow.length_eq, List.length_replicate]
  have hkinds : ∀ b ∈ h.body, b.1 = k := by
    intro b hb
    obtain ⟨e', he', hbe⟩ := exists_of_forall₂ hshow.flip hb
    obtain rfl := List.eq_of_mem_replicate he'
    exact hkind _ hbe
  have hgroup := group_of_kind hkinds (List.ne_nil_of_length_pos (hlength ▸ hn))
  rw [Run.ofLines, List.length_map, hlength] at hgroup
  rw [Hunk.runs, Hunk.quotesContext, hgap]
  simp only [Nat.lt_irrefl, decide_false, Bool.and_false, Bool.false_eq_true, if_false]
  rw [Hunk.gapRuns, if_pos rfl, List.nil_append]
  exact ⟨_, hgroup⟩

theorem not_header_repeated (hl : LineText e l) (first : Nat) :
    ∀ x ∈ number first (List.replicate n l), startsWith "@@".toList x.text = false :=
  fun _ hx => (bodyText_replicate hl n).not_startsWith rfl (by decide) _ (mem_number hx)

theorem not_marker_repeated (hl : LineText e l) :
    ∀ x ∈ List.replicate n l, startsWith marker x = false :=
  (bodyText_replicate hl n).not_startsWith rfl (by decide)

def sectionLines (ls : List (List Char)) : List (List Char) := "diff --git a/k b/k".toList :: ls

theorem readsAlone_section {lead : List Line} {bs : List Block} {hs : List Hunk}
    (hplain : ∀ l ∈ ls, '\n' ∉ l ∧ '\r' ∉ l) (hmarker : ∀ l ∈ ls, startsWith marker l = false)
    (hcut : Cut (number 2 ls) lead bs) (hheader : readHeader "k" (.plain "k" .modification) lead = c)
    (hbinary : c.binary = false) (hhunks : Hunk.ofBlocks 1 bs = .ok hs) :
    ReadsAlone contextLine (textOf (sectionLines ls)) (withHunks contextLine c hs) := by
  let s : Section := ⟨1, "a/k b/k".toList, number 2 ls⟩
  have hsections : sections (number 1 (sectionLines ls)) = ([], [s]) :=
    sections_single (x := ⟨1, "diff --git a/k b/k".toList⟩) rfl
      fun x hx => hmarker _ (mem_number hx)
  have hpaths : s.paths = .ok ("k", "k") := by
    have h : paths? "a/k b/k".toList = some (['k'], ['k']) := by decide
    rw [Section.paths, h]
  refine (readsAlone_textOf (List.forall_mem_cons.mpr ⟨by decide, hplain⟩) hsections).mpr ?_
  refine read_eq_ok.mpr ⟨"k", "k", hpaths, ?_⟩
  rw [Section.header, hcut.blocks]
  dsimp only
  rw [hheader, hbinary, if_neg Bool.false_ne_true]
  exact ⟨hs, hhunks, rfl⟩

end Diff

end SourceDelta
