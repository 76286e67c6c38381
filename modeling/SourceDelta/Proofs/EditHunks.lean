import SourceDelta.Proofs.HunkReading
import SourceDelta.Proofs.LineWalk

/-!
# Edits written as hunks

A diff writes an edit as hunks: some lines that stay are left out, the others
follow a header with the ranges that they take in the two files. Whatever lines
are left out, the hunks that are read from such lines have runs that cover the
edit.
-/

set_option autoImplicit false

namespace SourceDelta.Diff
open SourceDelta.Text

/-- A line of an edit as a hunk writes it. An empty line that stays may lack its mark. -/
inductive LineText : LineEdit → List Char → Prop
  | keep (t : List Char) : LineText (.keep t) (' ' :: t)
  | blank : LineText (.keep []) []
  | delete (t : List Char) : LineText (.delete t) ('-' :: t)
  | add (t : List Char) : LineText (.add t) ('+' :: t)

/-- The lines after a header. A note on the end of a file may stand anywhere. -/
inductive BodyText : List LineEdit → List (List Char) → Prop
  | nil : BodyText [] []
  | note {edits : List LineEdit} {ls : List (List Char)} (tail : List Char)
      (h : BodyText edits ls) : BodyText edits (('\\' :: tail) :: ls)
  | line {e : LineEdit} {l : List Char} {edits : List LineEdit} {ls : List (List Char)}
      (hl : LineText e l) (h : BodyText edits ls) : BodyText (e :: edits) (l :: ls)

/-- The start of a range of `count` lines behind `before` lines. A range without lines starts at
the line before it. -/
def rangeStart (before count : Nat) : Nat := if count = 0 then before else before + 1

/-- The hunks of an edit that starts behind `old` and `new` lines. -/
inductive HunksText : Nat → Nat → List LineEdit → List (List Char) → Prop
  | rest {old new : Nat} {edits : List LineEdit} (h : ∀ e ∈ edits, e.Stays) :
      HunksText old new edits []
  | hunk {old new : Nat} {gap body edits : List LineEdit} {header : List Char}
      {lines ls : List (List Char)} (hgap : ∀ e ∈ gap, e.Stays)
      (hheader : HeaderText
        (rangeStart (old + gap.length) (body.countP LineEdit.inOld)) (body.countP LineEdit.inOld)
        (rangeStart (new + gap.length) (body.countP LineEdit.inNew)) (body.countP LineEdit.inNew)
        header)
      (hbody : BodyText body lines)
      (h : HunksText (old + gap.length + body.countP LineEdit.inOld)
        (new + gap.length + body.countP LineEdit.inNew) edits ls) :
      HunksText old new (gap ++ (body ++ edits)) (header :: (lines ++ ls))

variable {contextLine : Bool} {old new before before' count covered oldCount newCount : Nat}
  {cs cs' : List Char}
  {e : LineEdit} {edits shown gap : List LineEdit} {l l' : List Char} {ls : List (List Char)}
  {x : Line} {xs ys zs : List Line} {rs : List Run} {body : List (LineKind × List Char)}
  {truncated : Nat → Nat → Malformed}

def ReadsLine (l : List Char) (x : Line) : Prop := Reads l x.text

theorem LineText.bodyLine? (h : LineText e l) (hr : Reads l l') :
    startsWith ['\\'] l' = false ∧ ∃ k t, Diff.bodyLine? l' = some (k, t) ∧ k.Shows e := by
  cases h with
  | keep t =>
    obtain ⟨t', rfl, -⟩ := hr.cons (by decide)
    exact ⟨rfl, .unmodified, t', rfl, rfl, rfl⟩
  | blank =>
    rw [hr.nil]
    exact ⟨rfl, .unmodified, [], rfl, rfl, rfl⟩
  | delete t =>
    obtain ⟨t', rfl, -⟩ := hr.cons (by decide)
    exact ⟨rfl, .deleted, t', rfl, rfl, rfl⟩
  | add t =>
    obtain ⟨t', rfl, -⟩ := hr.cons (by decide)
    exact ⟨rfl, .added, t', rfl, rfl, rfl⟩

theorem readBody_line {k : LineKind} {t : List Char} {unended : Bool}
    (hnote : startsWith ['\\'] x.text = false) (hline : bodyLine? x.text = some (k, t))
    (hshow : k.Shows e)
    (hrest : readBody truncated (edits.countP LineEdit.inOld) (edits.countP LineEdit.inNew) xs =
      .ok (body, unended)) :
    readBody truncated ((e :: edits).countP LineEdit.inOld) ((e :: edits).countP LineEdit.inNew)
      (x :: xs) = .ok ((k, t) :: body, unended) := by
  have hsome : ¬ ((e :: edits).countP LineEdit.inOld = 0 ∧
      (e :: edits).countP LineEdit.inNew = 0) := by
    rintro ⟨hold, hnew⟩
    rcases e.inOld_or_inNew with he | he
    · exact absurd ((List.countP_cons_of_pos he).symm.trans hold) (Nat.succ_ne_zero _)
    · exact absurd ((List.countP_cons_of_pos he).symm.trans hnew) (Nat.succ_ne_zero _)
  have hroom : ∀ has : LineEdit → Bool, (has e && (e :: edits).countP has == 0) = false := by
    intro has
    cases he : has e <;> simp [he]
  have hleft : ∀ has : LineEdit → Bool, (if has e then (e :: edits).countP has - 1
      else (e :: edits).countP has) = edits.countP has := by
    intro has
    cases he : has e <;> simp [he]
  rw [readBody, hnote, if_neg Bool.false_ne_true, if_neg hsome, hline]
  simp only [hshow.1, hshow.2, hroom, hleft, hrest, Bool.or_self, Bool.false_eq_true, if_false]
  rfl

theorem BodyText.readBody (h : BodyText edits ls) (hr : List.Forall₂ ReadsLine ls xs) :
    ∃ body unended, (∀ truncated, Diff.readBody truncated (edits.countP LineEdit.inOld)
      (edits.countP LineEdit.inNew) xs = .ok (body, unended)) ∧
      List.Forall₂ ShowsLine edits body := by
  induction h generalizing xs with
  | nil =>
    cases hr
    exact ⟨[], false, fun _ => rfl, .nil⟩
  | note tail h ih =>
    obtain ⟨x, xs', hx, hxs, rfl⟩ := List.forall₂_cons_left_iff.mp hr
    obtain ⟨body, unended, hread, hshow⟩ := ih hxs
    obtain ⟨tail', htext, -⟩ := Reads.cons hx (by decide)
    refine ⟨body, true, fun truncated => ?_, hshow⟩
    rw [Diff.readBody, if_pos (startsWith_iff.mpr ⟨tail', htext⟩), hread truncated]
    rfl
  | line hl h ih =>
    obtain ⟨x, xs', hx, hxs, rfl⟩ := List.forall₂_cons_left_iff.mp hr
    obtain ⟨body, unended, hread, hshow⟩ := ih hxs
    obtain ⟨hnote, k, t, hline, hk⟩ := hl.bodyLine? hx
    exact ⟨(k, t) :: body, unended, fun truncated => readBody_line hnote hline hk (hread truncated),
      .cons hk hshow⟩

theorem Range.not_return {start count : Nat} (h : Range start count cs) : '\r' ∉ cs := by
  have hdigits : ∀ {n : Nat} {ds : List Char}, Numeral n ds → '\r' ∉ ds := by
    intro n ds hn hmem
    exact absurd (hn.isDigit hmem) (by decide)
  cases h with
  | counted ha hb => simp [hdigits ha, hdigits hb]
  | single ha => exact hdigits ha

theorem HeaderText.reads {oldStart newStart : Nat}
    (h : HeaderText oldStart oldCount newStart newCount cs) (hr : Reads cs cs') :
    HeaderText oldStart oldCount newStart newCount cs' := by
  obtain ⟨ha, hb, tail⟩ := h
  obtain ⟨tail', rfl, -⟩ := hr.append (by simp [ha.not_return, hb.not_return])
  exact .mk ha hb tail'

theorem HeaderText.startsWith {oldStart newStart : Nat}
    (h : HeaderText oldStart oldCount newStart newCount cs) : startsWith "@@".toList cs = true := by
  obtain ⟨ha, hb, tail⟩ := h
  exact startsWith_iff.mpr ⟨_, rfl⟩

theorem bodyStartOf_rangeStart (hcount : before + count < 2 ^ 32 - 1) :
    bodyStartOf (UInt32.ofNat (rangeStart before count)) (UInt32.ofNat count) = before + 1 := by
  have hword : count < 2 ^ 32 ∧ before + 1 < 2 ^ 32 ∧ before < 2 ^ 32 := by omega
  obtain ⟨hc, hs, hb⟩ := hword
  have hzero : UInt32.ofNat count = 0 ↔ count = 0 := by
    rw [← UInt32.toNat_inj, UInt32.toNat_ofNat_of_lt' hc]
    rfl
  rw [bodyStartOf, rangeStart]
  split
  next h => rw [if_pos (hzero.mp h), UInt32.toNat_ofNat_of_lt' hb]
  next h => rw [if_neg (mt hzero.mpr h), UInt32.toNat_ofNat_of_lt' hs]

theorem HeaderText.read
    (h : HeaderText (rangeStart before oldCount) oldCount (rangeStart before' newCount) newCount cs)
    (hold : before + oldCount < 2 ^ 32 - 1) (hnew : before' + newCount < 2 ^ 32 - 1) :
    ∃ header, HunkHeader.ofLine? cs = some header ∧ header.bodyStart = before + 1 ∧
      header.oldEnd = before + oldCount ∧ header.oldCount.toNat = oldCount ∧
      header.newCount.toNat = newCount := by
  have hbound : ∀ before count : Nat, before + count < 2 ^ 32 - 1 →
      rangeStart before count < 2 ^ 32 ∧ count < 2 ^ 32 := by
    intro before count hlt
    rw [rangeStart]
    split <;> omega
  obtain ⟨hstart, hcount⟩ := hbound _ _ hold
  obtain ⟨hstart', hcount'⟩ := hbound _ _ hnew
  have hbody := bodyStartOf_rangeStart hold
  obtain ⟨header, hread, holdStart, holdCount, -, hnewCount⟩ :=
    h.ofLine? hstart hcount hstart' hcount' (by omega)
  have holdNat : header.oldCount.toNat = oldCount := by
    rw [holdCount, UInt32.toNat_ofNat_of_lt' hcount]
  have hbodyStart : header.bodyStart = before + 1 := by
    rw [HunkHeader.bodyStart, holdStart, holdCount, hbody]
  refine ⟨header, hread, hbodyStart, ?_, holdNat, ?_⟩
  · rw [HunkHeader.oldEnd, hbodyStart, holdNat]
    omega
  · rw [hnewCount, UInt32.toNat_ofNat_of_lt' hcount']

theorem covers_gapRuns (h : Covers rs edits) (hgap : ∀ e ∈ gap, e.Stays)
    (hlen : gap.length < 2 ^ 32) : Covers (Hunk.gapRuns gap.length ++ rs) (gap ++ edits) := by
  rw [Hunk.gapRuns]
  split
  next hnone =>
    rw [List.length_eq_zero_iff.mp hnone]
    exact h
  next => exact .run (UInt32.toNat_ofNat_of_lt' hlen) (fun e he => (hgap e he).shows rfl) h

theorem covers_hunk {h : Hunk} (hrs : Covers rs edits) (hgap : ∀ e ∈ gap, e.Stays)
    (hstart : h.header.bodyStart = covered + gap.length + 1)
    (hshow : List.Forall₂ ShowsLine shown h.body)
    (hold : gap.length + shown.countP LineEdit.inOld < 2 ^ 32)
    (hnew : gap.length + shown.countP LineEdit.inNew < 2 ^ 32) :
    Covers (h.runs contextLine covered ++ rs) (gap ++ (shown ++ edits)) := by
  have hgapLength : h.gap covered = gap.length := by
    rw [Hunk.gap, hstart]
    omega
  rw [Hunk.runs, hgapLength]
  split
  next hquotes =>
    simp only [Hunk.quotesContext, hgapLength, Bool.and_eq_true, decide_eq_true_eq] at hquotes
    -- The last line of the gap moves into the first run of the hunk.
    obtain ⟨init, last, rfl⟩ := (List.eq_nil_or_concat gap).resolve_left
      (List.ne_nil_of_length_pos hquotes.2)
    rw [List.concat_eq_append] at hgap hold hnew ⊢
    rw [List.length_append, List.length_singleton] at hold hnew ⊢
    have hlast : last.Stays := hgap last (by simp)
    have hquoted : List.Forall₂ ShowsLine (last :: shown)
        ((.unmodified, h.header.context) :: h.body) := .cons (hlast.shows rfl) hshow
    have hgroup := hrs.group hquoted (by rw [List.countP_cons_of_pos hlast.1]; omega)
      (by rw [List.countP_cons_of_pos hlast.2]; omega)
    rw [Nat.add_sub_cancel, List.append_assoc, List.append_assoc]
    exact covers_gapRuns hgroup (fun e he => hgap e (by simp [he])) (by omega)
  next =>
    rw [List.append_assoc]
    exact covers_gapRuns (hrs.group hshow (by omega) (by omega)) hgap (by omega)

theorem blocks_append (hlead : ∀ y ∈ ys, startsWith "@@".toList y.text = false) {bs : List Block}
    (hrest : blocks zs = ([], bs)) : blocks (ys ++ zs) = (ys, bs) := by
  induction ys with
  | nil => exact hrest
  | cons y ys ih =>
    rw [List.cons_append, blocks, ih fun z hz => hlead z (List.mem_cons_of_mem _ hz),
      hlead y List.mem_cons_self]
    rfl

theorem ofBlocks_cons {sectionLine : Nat} {b : Block} {bs : List Block} {h : Hunk}
    {hs : List Hunk} (hb : ∀ inSection, Hunk.ofBlock inSection b = .ok h)
    (hbs : Hunk.ofBlocks sectionLine bs = .ok hs) :
    Hunk.ofBlocks sectionLine (b :: bs) = .ok (h :: hs) := by
  cases bs with
  | nil =>
    cases hbs
    rw [Hunk.ofBlocks, hb]
    rfl
  | cons b' bs =>
    rw [Hunk.ofBlocks, hb, hbs]
    · rfl
    · exact List.cons_ne_nil _ _

theorem BodyText.not_startsWith {c : Char} {mark : List Char} (h : BodyText edits ls)
    (hmark : mark.head? = some c) (hc : c ∉ [' ', '-', '+', '\\']) :
    ∀ l ∈ ls, Text.startsWith mark l = false := by
  obtain ⟨ms, rfl⟩ := List.head?_eq_some_iff.mp hmark
  have hother : ∀ {d : Char} {t : List Char}, d ∈ [' ', '-', '+', '\\'] →
      Text.startsWith (c :: ms) (d :: t) = false := by
    intro d t hd
    have hne : ¬ c = d := fun hcd => hc (hcd ▸ hd)
    exact congrArg Option.isSome (if_neg hne)
  induction h with
  | nil => simp
  | note tail h ih => exact List.forall_mem_cons.mpr ⟨hother (by simp), ih⟩
  | line hl h ih =>
    refine List.forall_mem_cons.mpr ⟨?_, ih⟩
    cases hl with
    | keep => exact hother (by simp)
    | blank => rfl
    | delete => exact hother (by simp)
    | add => exact hother (by simp)

theorem BodyText.block (hbody : BodyText shown ls) {header : HunkHeader}
    (hread : HunkHeader.ofLine? x.text = some header)
    (hold : header.oldCount.toNat = shown.countP LineEdit.inOld)
    (hnew : header.newCount.toNat = shown.countP LineEdit.inNew)
    (hxs : List.Forall₂ ReadsLine ls xs) :
    ∃ h, (∀ inSection, Hunk.ofBlock inSection ⟨x, xs⟩ = .ok h) ∧ h.header = header ∧
      List.Forall₂ ShowsLine shown h.body := by
  obtain ⟨body, unended, hlines, hshow⟩ := hbody.readBody hxs
  refine ⟨⟨header, body, unended⟩, fun inSection => ?_, rfl, hshow⟩
  rw [Hunk.ofBlock, hread]
  simp only [hold, hnew, hlines]
  rfl

theorem hunk_read
    (hheader : HeaderText (rangeStart before (shown.countP LineEdit.inOld))
      (shown.countP LineEdit.inOld) (rangeStart before' (shown.countP LineEdit.inNew))
      (shown.countP LineEdit.inNew) cs)
    (hbody : BodyText shown ls) (hx : ReadsLine cs x) (hxs : List.Forall₂ ReadsLine ls xs)
    (hold : before + shown.countP LineEdit.inOld < 2 ^ 32 - 1)
    (hnew : before' + shown.countP LineEdit.inNew < 2 ^ 32 - 1) :
    ∃ h, (∀ inSection, Hunk.ofBlock inSection ⟨x, xs⟩ = .ok h) ∧
      h.header.bodyStart = before + 1 ∧ h.header.oldEnd = before + shown.countP LineEdit.inOld ∧
      List.Forall₂ ShowsLine shown h.body := by
  obtain ⟨header, hread, hstart, hend, holdCount, hnewCount⟩ := (hheader.reads hx).read hold hnew
  obtain ⟨h, hblock, rfl, hshow⟩ := hbody.block hread holdCount hnewCount hxs
  exact ⟨h, hblock, hstart, hend, hshow⟩

/-- The hunks of an edit are read, and their runs cover it. -/
theorem HunksText.read (h : HunksText old new edits ls) (hr : List.Forall₂ ReadsLine ls xs)
    (hold : old + edits.countP LineEdit.inOld < 2 ^ 32 - 1)
    (hnew : new + edits.countP LineEdit.inNew < 2 ^ 32 - 1) (sectionLine : Nat) :
    ∃ bs hs, blocks xs = ([], bs) ∧ Hunk.ofBlocks sectionLine bs = .ok hs ∧
      ∀ contextLine, Covers (Hunk.allRuns contextLine old hs) edits := by
  induction h generalizing xs with
  | rest hstay =>
    cases hr
    exact ⟨[], [], rfl, rfl, fun _ => .rest hstay⟩
  | @hunk old new gap body edits header lines ls hgap hheader hbody h ih =>
    obtain ⟨x, rest, hx, hrest, rfl⟩ := List.forall₂_cons_left_iff.mp hr
    obtain ⟨ys, zs, rfl, hys, hzs⟩ := forall₂_append_left hrest
    have hgapOld : gap.countP LineEdit.inOld = gap.length :=
      List.countP_eq_length.mpr fun e he => (hgap e he).1
    have hgapNew : gap.countP LineEdit.inNew = gap.length :=
      List.countP_eq_length.mpr fun e he => (hgap e he).2
    simp only [List.countP_append, hgapOld, hgapNew] at hold hnew
    obtain ⟨bs, hs, hblocks, hread, hcovers⟩ := ih hzs (by omega) (by omega)
    obtain ⟨hunk, hhunk, hstart, hend, hshow⟩ := hunk_read hheader hbody hx hys (by omega) (by omega)
    have hlead : ∀ y ∈ ys, startsWith "@@".toList y.text = false := by
      intro y hy
      obtain ⟨l, hl, hly⟩ := exists_of_forall₂ (List.Forall₂.flip hys) hy
      exact Reads.not_startsWith hly (hbody.not_startsWith rfl (by decide) l hl)
    refine ⟨⟨x, ys⟩ :: bs, hunk :: hs, ?_, ofBlocks_cons hhunk hread, fun contextLine => ?_⟩
    · rw [blocks, blocks_append hlead hblocks]
      exact if_pos (hheader.reads hx).startsWith
    · rw [Hunk.allRuns, hend, Nat.max_eq_right (by omega)]
      exact covers_hunk (hcovers contextLine) hgap hstart hshow (by omega) (by omega)

end SourceDelta.Diff
