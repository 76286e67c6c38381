import SourceDelta.Proofs.Checked
import SourceDelta.Proofs.Coverage
import SourceDelta.Proofs.Parts

/-!
# Hunks line by line

The lines of a file are taken one after another, with counters of the old and new
lines that the open hunk still misses and the last old line that is covered, all of
them words. A header is only taken when its sums fit a word, and a line only when the
counters are not at zero yet, so no addition and no subtraction leaves the words; the
mark before a line is one byte. What is collected is what the hunks of the file come to.
-/

set_option autoImplicit false

namespace SourceDelta

namespace Run

variable {k : LineKind} {t : List Char} {ts : List (List Char)}
  {rest : List (LineKind × List Char)}

theorem clusters_cons (x : LineKind × List Char) (xs : List (LineKind × List Char)) :
    ∃ ts more, clusters (x :: xs) = (x.1, ts) :: more := by
  obtain ⟨k, t⟩ := x
  rw [clusters]
  split
  · exact ⟨_, _, rfl⟩
  · split
    · exact ⟨_, _, rfl⟩
    · exact ⟨_, _, rfl⟩

theorem clusters_append (hts : ts ≠ []) (hrest : ∀ x ∈ rest.head?, x.1 ≠ k) :
    clusters (ts.map (k, ·) ++ rest) = (k, ts) :: clusters rest := by
  induction ts with
  | nil => exact absurd rfl hts
  | cons t ts ih =>
    rw [List.map_cons, List.cons_append, clusters]
    by_cases hnil : ts = []
    · subst hnil
      rw [List.map_nil, List.nil_append]
      cases rest with
      | nil => rfl
      | cons x rest =>
        obtain ⟨us, more, hclusters⟩ := clusters_cons x rest
        rw [hclusters]
        exact if_neg (Ne.symm (hrest x rfl))
    · rw [ih hnil]
      exact if_pos rfl

theorem group_append (hts : ts ≠ []) (hrest : ∀ x ∈ rest.head?, x.1 ≠ k) :
    group (ts.map (k, ·) ++ rest) = ofLines k ts :: group rest := by
  rw [group, clusters_append hts hrest, List.map_cons, group]

theorem group_same (hts : ts ≠ []) : group (ts.map (k, ·)) = [ofLines k ts] := by
  have hnil : ∀ x ∈ ([] : List (LineKind × List Char)).head?, x.1 ≠ k := by simp
  have h := group_append hts hnil
  rwa [List.append_nil] at h

end Run

namespace Diff
open SourceDelta.Text SourceDelta.Checked

namespace Checked

variable {ε : Type}

structure Header where
  oldStart : UInt32
  oldCount : UInt32
  newStart : UInt32
  newCount : UInt32
  context : List Char

namespace Header

def bodyStart? (start count : UInt32) : Option UInt32 :=
  if count = 0 then add? start 1 else some start

def ofLine? (line : List Char) : Option Header := do
  let cs ← after? "@@ -".toList line
  let (oldStart, oldCount, cs) ← HunkHeader.range? cs
  let cs ← after? " +".toList cs
  let (newStart, newCount, cs) ← HunkHeader.range? cs
  let cs ← after? " @@".toList cs
  let context := (after? [' '] cs).getD cs
  let start ← bodyStart? oldStart oldCount
  let _ ← add? start oldCount
  some ⟨oldStart, oldCount, newStart, newCount, context⟩

def bodyStart (h : Header) : Checked ε UInt32 :=
  if h.oldCount = 0 then add h.oldStart 1 else .ok h.oldStart

def oldEnd (h : Header) : Checked ε UInt32 := do
  let start ← h.bodyStart
  let stop ← add start h.oldCount
  .ok (floorSub stop 1)

end Header

/-- The run that is being collected, the last covered old line, the lines that the hunk opened last
still misses, and what the file has so far. -/
structure Walker where
  kind : Option LineKind
  texts : List (List Char)
  covered : UInt32
  missingOld : UInt32
  missingNew : UInt32
  opened : Option Nat
  runs : List Run
  unended : Bool

namespace Walker

def start : Walker := ⟨none, [], 0, 0, 0, none, [], false⟩

def complete (w : Walker) : Bool := w.missingOld == 0 && w.missingNew == 0

def flush (w : Walker) : Walker :=
  match w.kind with
  | none => w
  | some k =>
    if w.texts = [] then { w with kind := none }
    else { w with kind := none, texts := [], runs := w.runs ++ [Run.ofLines k w.texts] }

def push (k : LineKind) (t : List Char) (w : Walker) : Walker :=
  let w := if w.kind = some k then w else { w.flush with kind := some k }
  { w with texts := w.texts ++ [t] }

def checkComplete (inSection : Option Nat) (w : Walker) : Checked Malformed Unit :=
  match w.opened with
  | some line =>
    if w.complete then .ok ()
    else .error (.fault
      ⟨line, .truncated w.missingOld.toNat w.missingNew.toNat inSection⟩)
  | none => .ok ()

def restart (line : Nat) (h : Header) (gap stop : UInt32) (w : Walker) : Walker :=
  let w := w.flush
  { w with
    runs := w.runs ++ if 0 < gap then [⟨.gap, gap, ""⟩] else []
    covered := max w.covered stop
    missingOld := h.oldCount
    missingNew := h.newCount
    opened := some line }

def openHunk (contextLine : Bool) (line : Nat) (h : Header) (w : Walker) : Checked ε Walker := do
  let start ← h.bodyStart
  let stop ← h.oldEnd
  let gap := floorSub (floorSub start 1) w.covered
  if contextLine && h.context ≠ [] && 0 < gap then do
    let gap ← sub gap 1
    .ok ((w.restart line h gap stop).push .unmodified h.context)
  else .ok (w.restart line h gap stop)

/-- The kind and text of a line inside a hunk; the text is cut off behind the mark. -/
def bodyLine (l : Line) : Checked Malformed (LineKind × List Char) :=
  match l.text.head? with
  | none => .ok (.unmodified, [])
  | some c =>
    if c = '+' then do .ok (.added, ← onFrom l.text 1)
    else if c = '-' then do .ok (.deleted, ← onFrom l.text 1)
    else if c = ' ' then do .ok (.unmodified, ← onFrom l.text 1)
    else .error (.fault ⟨l.number, .stray (String.ofList l.text)⟩)

def take (l : Line) (w : Walker) : Checked Malformed Walker := do
  let (k, t) ← bodyLine l
  let oldStep : UInt32 := if k.inOld then 1 else 0
  let newStep : UInt32 := if k.inNew then 1 else 0
  if w.missingOld < oldStep || w.missingNew < newStep then .error (.fault ⟨l.number, .overlong⟩)
  else do
    let missingOld ← sub w.missingOld oldStep
    let missingNew ← sub w.missingNew newStep
    .ok (push k t { w with missingOld, missingNew })

def feed (contextLine : Bool) (w : Walker) (l : Line) : Checked Malformed Walker :=
  if startsWith "@@".toList l.text then do
    w.checkComplete none
    let h ← orFault ⟨l.number, .header (String.ofList l.text)⟩ (ofOption (Header.ofLine? l.text))
    w.openHunk contextLine l.number h
  else if startsWith ['\\'] l.text then .ok { w with unended := true }
  else if w.complete then .ok w
  else w.take l

def finish (sectionLine : Nat) (w : Walker) : Checked Malformed (List Run × Bool) := do
  w.checkComplete (some sectionLine)
  .ok (w.flush.runs, w.flush.unended)

def walk (contextLine : Bool) (sectionLine : Nat) (w : Walker) (ls : List Line) :
    Checked Malformed (List Run × Bool) :=
  ls.foldlM (feed contextLine) w >>= finish sectionLine

end Walker

namespace Header

variable {h : HunkHeader} {start count : UInt32}

def plain (h : HunkHeader) : Header :=
  ⟨h.oldStart, h.oldCount, h.newStart, h.newCount, h.context⟩

theorem bodyStart?_eq_some {c : UInt32} :
    bodyStart? start count = some c ↔ bodyStartOf start count = c.toNat := by
  rw [bodyStart?, bodyStartOf]
  split
  next => exact add?_eq_some
  next => rw [Option.some.injEq, UInt32.toNat_inj]

theorem sum_eq_some {c : UInt32} : ((bodyStart? start count).bind (add? · count)) = some c ↔
    bodyStartOf start count + count.toNat = c.toNat := by
  rw [Option.bind_eq_some_iff]
  constructor
  · rintro ⟨b, hb, hc⟩
    rw [bodyStart?_eq_some.mp hb, add?_eq_some.mp hc]
  · intro h
    have hc := c.toNat_lt
    have hlt : bodyStartOf start count < 2 ^ 32 := by omega
    have hb : (UInt32.ofNat (bodyStartOf start count)).toNat = bodyStartOf start count :=
      UInt32.toNat_ofNat_of_lt' hlt
    exact ⟨_, bodyStart?_eq_some.mpr hb.symm, add?_eq_some.mpr (hb.symm ▸ h)⟩

theorem sum_eq_none : ((bodyStart? start count).bind (add? · count)) = none ↔
    ¬ bodyStartOf start count + count.toNat < UInt32.size := by
  rw [← not_iff_not, not_not, ← ne_eq, Option.ne_none_iff_exists']
  constructor
  · rintro ⟨c, hc⟩
    exact sum_eq_some.mp hc ▸ c.toNat_lt
  · intro h
    exact ⟨_, sum_eq_some.mpr (UInt32.toNat_ofNat_of_lt' h).symm⟩

theorem bind_eq_map_bind {α β γ : Type} {x : Option α} {f : α → Option β} {g : α → Option γ}
    {h : γ → β} (hfg : ∀ a, f a = (g a).map h) : x.bind f = (x.bind g).map h := by
  cases x with
  | none => rfl
  | some a => exact hfg a

theorem ofLine?_eq (line : List Char) : ofLine? line = (HunkHeader.ofLine? line).map plain := by
  refine bind_eq_map_bind fun cs => ?_
  refine bind_eq_map_bind fun ⟨oldStart, oldCount, cs⟩ => ?_
  refine bind_eq_map_bind fun cs => ?_
  refine bind_eq_map_bind fun ⟨newStart, newCount, cs⟩ => ?_
  refine bind_eq_map_bind fun cs => ?_
  simp only [Option.bind_eq_bind]
  rw [← Option.bind_assoc]
  split
  next hfits =>
    have hlt : bodyStartOf oldStart oldCount + oldCount.toNat < 2 ^ 32 := hfits
    rw [sum_eq_some.mpr (UInt32.toNat_ofNat_of_lt' hlt).symm]
    rfl
  next hfits => rw [sum_eq_none.mpr hfits, Option.bind_none, Option.map_none]

theorem bodyStart_lt (h : HunkHeader) : h.bodyStart < 2 ^ 32 :=
  Nat.lt_of_le_of_lt (Nat.le_add_right _ _) h.fits

theorem oldEnd_lt (h : HunkHeader) : h.oldEnd < 2 ^ 32 :=
  Nat.lt_of_le_of_lt (Nat.sub_le _ _) h.fits

theorem bodyStart_eq (h : HunkHeader) :
    ((plain h).bodyStart : Checked ε UInt32) = .ok (UInt32.ofNat h.bodyStart) := by
  have hword : (UInt32.ofNat h.bodyStart).toNat = h.bodyStart :=
    UInt32.toNat_ofNat_of_lt' (bodyStart_lt h)
  rw [bodyStart]
  split
  next hzero =>
    refine add_eq_ok ?_
    rw [hword, HunkHeader.bodyStart, bodyStartOf, if_pos (by exact hzero)]
    rfl
  next hsome =>
    congr 1
    apply UInt32.toNat_inj.mp
    rw [hword, HunkHeader.bodyStart, bodyStartOf, if_neg (by exact hsome)]
    rfl

theorem oldEnd_eq (h : HunkHeader) :
    ((plain h).oldEnd : Checked ε UInt32) = .ok (UInt32.ofNat h.oldEnd) := by
  have hstop : (UInt32.ofNat (h.bodyStart + h.oldCount.toNat)).toNat =
      h.bodyStart + h.oldCount.toNat := UInt32.toNat_ofNat_of_lt' h.fits
  have hadd : (add (UInt32.ofNat h.bodyStart) (plain h).oldCount : Checked ε UInt32) =
      .ok (UInt32.ofNat (h.bodyStart + h.oldCount.toNat)) := by
    refine add_eq_ok ?_
    rw [hstop, UInt32.toNat_ofNat_of_lt' (bodyStart_lt h)]
    rfl
  rw [oldEnd, bodyStart_eq, ok_bind, hadd, ok_bind]
  congr 1
  apply UInt32.toNat_inj.mp
  rw [floorSub_toNat, hstop, UInt32.toNat_ofNat_of_lt' (oldEnd_lt h)]
  rfl

end Header

namespace Walker

variable {w : Walker} {k : LineKind} {t : List Char} {l : Line} {ls : List Line}

def pending (w : Walker) : List (LineKind × List Char) :=
  match w.kind with
  | some k => w.texts.map (k, ·)
  | none => []

/-- A run is being collected when there are lines for it, and lines are missing only from a hunk. -/
structure Tidy (w : Walker) : Prop where
  collects : w.kind = none ↔ w.texts = []
  opened : w.opened = none → w.complete = true

theorem tidy_start : start.Tidy := ⟨iff_of_true rfl rfl, fun _ => rfl⟩

theorem flush_eq (hw : w.Tidy) : w.flush =
    { w with kind := none, texts := [], runs := w.runs ++ Run.group w.pending } := by
  obtain ⟨kind, texts, covered, missingOld, missingNew, opened, runs, unended⟩ := w
  cases kind with
  | none =>
    obtain rfl : texts = [] := hw.collects.mp rfl
    simp only [flush, pending, Run.group, Run.clusters, List.map_nil, List.append_nil]
  | some k =>
    have htexts : texts ≠ [] := fun h => Option.some_ne_none k (hw.collects.mpr h)
    simp only [flush, pending, if_neg htexts, Run.group_same htexts]

theorem push_eq (hw : w.Tidy) (k : LineKind) (t : List Char) :
    ∃ texts runs, w.push k t = { w with kind := some k, texts, runs } ∧ texts ≠ [] ∧
      ∀ body, runs ++ Run.group (texts.map (k, ·) ++ body) =
        w.runs ++ Run.group (w.pending ++ (k, t) :: body) := by
  rw [push]
  by_cases hkind : w.kind = some k
  · refine ⟨w.texts ++ [t], w.runs, ?_, by simp, fun body => ?_⟩
    · rw [if_pos hkind, hkind]
    · rw [pending, hkind, List.map_append, List.append_assoc]
      rfl
  · refine ⟨[t], w.runs ++ Run.group w.pending, ?_, by simp, fun body => ?_⟩
    · rw [if_neg hkind, flush_eq hw]
      rfl
    · rw [List.append_assoc, pending]
      cases hw' : w.kind with
      | none => rfl
      | some j =>
        have htexts : w.texts ≠ [] := fun h =>
          Option.some_ne_none j (hw'.symm.trans (hw.collects.mpr h))
        have hne : ∀ x ∈ ((k, t) :: body).head?, x.1 ≠ j := by
          intro x hx
          cases hx
          rintro rfl
          exact hkind hw'
        dsimp only
        rw [Run.group_append htexts hne, Run.group_same htexts]
        rfl

theorem push_frame (hw : w.Tidy) (k : LineKind) (t : List Char) : (w.push k t).Tidy ∧
    (w.push k t).opened = w.opened ∧ (w.push k t).missingOld = w.missingOld ∧
      (w.push k t).missingNew = w.missingNew := by
  obtain ⟨texts, runs, hpush, htexts, -⟩ := push_eq hw k t
  rw [hpush]
  exact ⟨⟨iff_of_false nofun htexts, hw.opened⟩, rfl, rfl, rfl⟩

theorem complete_iff : w.complete = true ↔ w.missingOld.toNat = 0 ∧ w.missingNew.toNat = 0 := by
  rw [complete, Bool.and_eq_true, beq_iff_eq, beq_iff_eq, ← UInt32.toNat_inj, ← UInt32.toNat_inj]
  rfl

theorem onFrom_mark_one {c : Char} (hc : c.toNat < 128) (cs : List Char) :
    (onFrom (c :: cs) 1 : Checked ε (List Char)) = .ok cs := by
  have hcut := onFrom_append (ε := ε) [c] cs
  rwa [byteLength_ascii (List.forall_mem_singleton.mpr hc)] at hcut

theorem bodyLine_eq (l : Line) : bodyLine l = match bodyLine? l.text with
    | some p => .ok p
    | none => .error (.fault ⟨l.number, .stray (String.ofList l.text)⟩) := by
  rw [bodyLine]
  cases l.text with
  | nil => rfl
  | cons c cs =>
    rw [List.head?_cons, bodyLine?]
    dsimp only
    by_cases hplus : c = '+'
    · rw [if_pos hplus, if_pos hplus, hplus, onFrom_mark_one (by decide)]
      rfl
    rw [if_neg hplus, if_neg hplus]
    by_cases hminus : c = '-'
    · rw [if_pos hminus, if_pos hminus, hminus, onFrom_mark_one (by decide)]
      rfl
    rw [if_neg hminus, if_neg hminus]
    by_cases hspace : c = ' '
    · rw [if_pos hspace, if_pos hspace, hspace, onFrom_mark_one (by decide)]
      rfl
    · rw [if_neg hspace, if_neg hspace]

theorem step_eq (counts : Bool) (missing : UInt32) :
    (missing < (if counts then 1 else 0 : UInt32) ↔ (counts && missing.toNat == 0) = true) ∧
    ((counts && missing.toNat == 0) = false → ∃ m : UInt32,
      (sub missing (if counts then 1 else 0) : Checked ε UInt32) = .ok m ∧
      m.toNat = if counts then missing.toNat - 1 else missing.toNat) := by
  have hone : (1 : UInt32).toNat = 1 := rfl
  have hzero : (0 : UInt32).toNat = 0 := rfl
  cases counts with
  | false =>
    refine ⟨by simp [UInt32.lt_iff_toNat_lt], fun _ => ⟨missing, sub_eq_ok ?_, rfl⟩⟩
    simp
  | true =>
    have hlt := missing.toNat_lt
    refine ⟨by simp [UInt32.lt_iff_toNat_lt], fun h => ?_⟩
    have hpos : missing.toNat ≠ 0 := by simpa using h
    have hword : (UInt32.ofNat (missing.toNat - 1)).toNat = missing.toNat - 1 :=
      UInt32.toNat_ofNat_of_lt' (Nat.lt_of_le_of_lt (Nat.sub_le _ _) hlt)
    refine ⟨UInt32.ofNat (missing.toNat - 1), sub_eq_ok ?_, hword⟩
    rw [hword]
    change 1 + (missing.toNat - 1) = missing.toNat
    omega

/-- What the lines ahead hold when the hunk opened at a line misses so many lines: the lines of that
hunk, whether one says that a file ends without a line feed, and the hunks behind it. -/
def ahead (sectionLine line old new : Nat) (ls : List Line) :
    Except Malformed ((List (LineKind × List Char) × Bool) × List Hunk) := do
  let p ← readBody (fun old new => ⟨line, .truncated old new
    (if (blocks ls).2.isEmpty then some sectionLine else none)⟩) old new (blocks ls).1
  let hs ← Hunk.ofBlocks sectionLine (blocks ls).2
  .ok (p, hs)

def outcome (contextLine : Bool) (w : Walker)
    (p : (List (LineKind × List Char) × Bool) × List Hunk) : List Run × Bool :=
  (w.runs ++ Run.group (w.pending ++ p.1.1) ++ Hunk.allRuns contextLine w.covered.toNat p.2,
    w.unended || p.1.2 || p.2.any (·.unended))

theorem ofBlocks_cons (sectionLine : Nat) (b : Block) (bs : List Block) :
    Hunk.ofBlocks sectionLine (b :: bs) = (do
      let h ← Hunk.ofBlock (if bs.isEmpty then some sectionLine else none) b
      let hs ← Hunk.ofBlocks sectionLine bs
      .ok (h :: hs)) := by
  cases bs <;> rfl

theorem checkComplete_eq (hw : w.Tidy)
    (inSection : Option Nat) : w.checkComplete inSection = if w.complete then .ok () else
      .error (.fault ⟨w.opened.getD 0,
        .truncated w.missingOld.toNat w.missingNew.toNat inSection⟩) := by
  rw [checkComplete]
  split
  next hline => rw [hline, Option.getD_some]
  next hnone => rw [if_pos (hw.opened hnone)]

theorem gapRuns_word (g : UInt32) :
    (if 0 < g then [(⟨.gap, g, ""⟩ : Run)] else []) = Hunk.gapRuns g.toNat := by
  rw [Hunk.gapRuns]
  by_cases hg : g.toNat = 0
  · rw [if_pos hg, if_neg]
    rw [UInt32.lt_iff_toNat_lt, hg]
    exact Nat.lt_irrefl 0
  · rw [if_neg hg, if_pos, Run.ofGap, UInt32.ofNat_toNat]
    exact UInt32.lt_iff_toNat_lt.mpr (Nat.pos_of_ne_zero hg)

theorem toNat_max (a b : UInt32) : (max a b).toNat = max a.toNat b.toNat := by
  change (if a ≤ b then b else a).toNat = _
  simp only [UInt32.le_iff_toNat_le]
  split <;> omega

theorem restart_eq (line : Nat) (h : Header) (gap stop : UInt32) (hw : w.Tidy) :
    w.restart line h gap stop = ⟨none, [], max w.covered stop, h.oldCount, h.newCount, some line,
      w.runs ++ Run.group w.pending ++ Hunk.gapRuns gap.toNat, w.unended⟩ := by
  rw [restart, flush_eq hw, ← gapRuns_word]

theorem tidy_restart (line : Nat) (h : Header) (gap stop : UInt32) (hw : w.Tidy) :
    (w.restart line h gap stop).Tidy := by
  rw [restart_eq line h gap stop hw]
  exact ⟨iff_of_true rfl rfl, nofun⟩

theorem outcome_restart (contextLine : Bool) (line : Nat) (h : HunkHeader) (gap : UInt32)
    (hw : w.Tidy) (p : List (LineKind × List Char) × Bool) (hs : List Hunk) :
    outcome contextLine (w.restart line (.plain h) gap (UInt32.ofNat h.oldEnd)) (p, hs) =
      (w.runs ++ Run.group w.pending ++ (Hunk.gapRuns gap.toNat ++ Run.group p.1) ++
        Hunk.allRuns contextLine (max w.covered.toNat h.oldEnd) hs,
        w.unended || p.2 || hs.any (·.unended)) := by
  have hcovered : (max w.covered (UInt32.ofNat h.oldEnd)).toNat =
      max w.covered.toNat h.oldEnd := by
    rw [toNat_max, UInt32.toNat_ofNat_of_lt' (Header.oldEnd_lt h)]
  rw [restart_eq _ _ _ _ hw, outcome, hcovered, ← List.append_assoc _ _ (Run.group p.1)]
  rfl

theorem outcome_push (contextLine : Bool) (hw : w.Tidy) (k : LineKind) (t : List Char)
    (body : List (LineKind × List Char)) (unended : Bool) (hs : List Hunk) :
    outcome contextLine (w.push k t) ((body, unended), hs) =
      outcome contextLine w (((k, t) :: body, unended), hs) := by
  obtain ⟨texts, runs, hpush, -, hruns⟩ := push_eq hw k t
  rw [hpush, outcome, outcome, ← hruns body]
  rfl

theorem outcome_header (contextLine : Bool) (w : Walker) (h : Hunk) (hs : List Hunk) :
    outcome contextLine w (([], false), h :: hs) =
      (w.runs ++ Run.group w.pending ++ h.runs contextLine w.covered.toNat ++
        Hunk.allRuns contextLine (max w.covered.toNat h.header.oldEnd) hs,
        w.unended || h.unended || hs.any (·.unended)) := by
  rw [outcome, Hunk.allRuns, List.append_nil, Bool.or_false, List.any_cons, Bool.or_assoc,
    List.append_assoc, List.append_assoc, List.append_assoc]

theorem openHunk_eq (contextLine : Bool) (line : Nat) (h : HunkHeader) (hw : w.Tidy) :
    ∃ w', (w.openHunk contextLine line (.plain h) : Checked ε Walker) = .ok w' ∧ w'.Tidy ∧
      w'.opened = some line ∧ w'.missingOld = h.oldCount ∧ w'.missingNew = h.newCount ∧
      ∀ p hs, outcome contextLine w' (p, hs) =
        outcome contextLine w (([], false), ⟨h, p.1, p.2⟩ :: hs) := by
  obtain ⟨g, hg⟩ : ∃ g : UInt32, g = floorSub (floorSub (UInt32.ofNat h.bodyStart) 1) w.covered :=
    ⟨_, rfl⟩
  have hgap : g.toNat = h.bodyStart - 1 - w.covered.toNat := by
    rw [hg, floorSub_toNat, floorSub_toNat, UInt32.toNat_ofNat_of_lt' (Header.bodyStart_lt h)]
    rfl
  have hquotes : ∀ p : List (LineKind × List Char) × Bool,
      Hunk.quotesContext contextLine w.covered.toNat ⟨h, p.1, p.2⟩ =
        (contextLine && h.context ≠ [] && 0 < g) := by
    intro p
    rw [Hunk.quotesContext, Hunk.gap, ← hgap]
    rfl
  rw [openHunk, Header.bodyStart_eq, ok_bind, Header.oldEnd_eq, ok_bind, ← hg]
  dsimp only
  by_cases hquoted : (contextLine && h.context ≠ [] && 0 < g) = true
  · have hpos : 0 < g.toNat := by
      rw [Bool.and_eq_true, decide_eq_true_iff] at hquoted
      exact UInt32.lt_iff_toNat_lt.mp hquoted.2
    have hword : (UInt32.ofNat (g.toNat - 1)).toNat = g.toNat - 1 :=
      UInt32.toNat_ofNat_of_lt' (Nat.lt_of_le_of_lt (Nat.sub_le _ _) g.toNat_lt)
    have hsub : (sub g 1 : Checked ε UInt32) = .ok (UInt32.ofNat (g.toNat - 1)) := by
      refine sub_eq_ok ?_
      rw [hword]
      change 1 + (g.toNat - 1) = g.toNat
      omega
    have hclosed := tidy_restart line (.plain h) (UInt32.ofNat (g.toNat - 1))
      (UInt32.ofNat h.oldEnd) hw
    rw [if_pos (by exact hquoted), hsub, ok_bind]
    obtain ⟨htidy, hline, hold, hnew⟩ := push_frame hclosed .unmodified h.context
    refine ⟨_, rfl, htidy, hline, hold, hnew, fun p hs => ?_⟩
    have hread : Hunk.runs contextLine w.covered.toNat ⟨h, p.1, p.2⟩ =
        Hunk.gapRuns (g.toNat - 1) ++ Run.group ((.unmodified, h.context) :: p.1) := by
      rw [Hunk.runs, hquotes, if_pos hquoted, Hunk.gap, ← hgap]
    rw [outcome_push contextLine hclosed, outcome_restart _ _ _ _ hw, hword, outcome_header, hread]
    rfl
  · rw [if_neg (by exact hquoted)]
    refine ⟨_, rfl, tidy_restart line _ _ _ hw, rfl, rfl, rfl, fun p hs => ?_⟩
    have hread : Hunk.runs contextLine w.covered.toNat ⟨h, p.1, p.2⟩ =
        Hunk.gapRuns g.toNat ++ Run.group p.1 := by
      rw [Hunk.runs, hquotes, if_neg hquoted, Hunk.gap, ← hgap]
    rw [outcome_restart _ _ _ _ hw, outcome_header, hread]

theorem feed_header (contextLine : Bool) (hw : w.Tidy)
    (hl : startsWith "@@".toList l.text = true) : w.feed contextLine l =
      if w.complete then
        match HunkHeader.ofLine? l.text with
        | some h => w.openHunk contextLine l.number (.plain h)
        | none => .error (.fault ⟨l.number, .header (String.ofList l.text)⟩)
      else .error (.fault ⟨w.opened.getD 0,
        .truncated w.missingOld.toNat w.missingNew.toNat none⟩) := by
  rw [feed, if_pos hl, checkComplete_eq hw, Header.ofLine?_eq]
  split
  · cases HunkHeader.ofLine? l.text <;> rfl
  · rfl

theorem blocks_header (hl : startsWith "@@".toList l.text = true) (ls : List Line) :
    blocks (l :: ls) = ([], ⟨l, (blocks ls).1⟩ :: (blocks ls).2) := by
  rw [blocks]
  exact if_pos hl

theorem blocks_line (hl : ¬ startsWith "@@".toList l.text = true) (ls : List Line) :
    blocks (l :: ls) = (l :: (blocks ls).1, (blocks ls).2) := by
  rw [blocks]
  exact if_neg hl

theorem ahead_header {h : HunkHeader} {sectionLine line old new : Nat}
    (hl : startsWith "@@".toList l.text = true) (hh : HunkHeader.ofLine? l.text = some h)
    (hdone : old = 0 ∧ new = 0) (ls : List Line) :
    ahead sectionLine line old new (l :: ls) =
      (ahead sectionLine l.number h.oldCount.toNat h.newCount.toNat ls).map fun p =>
        (([], false), ⟨h, p.1.1, p.1.2⟩ :: p.2) := by
  rw [ahead, blocks_header hl, ahead]
  dsimp only
  rw [readBody, if_pos hdone, ofBlocks_cons, Hunk.ofBlock, hh]
  dsimp only
  cases readBody _ _ _ (blocks ls).1 with
  | error m => rfl
  | ok p => cases Hunk.ofBlocks sectionLine (blocks ls).2 <;> rfl

theorem ahead_no_header {sectionLine line old new : Nat}
    (hl : startsWith "@@".toList l.text = true) (hh : HunkHeader.ofLine? l.text = none)
    (hdone : old = 0 ∧ new = 0) (ls : List Line) :
    ahead sectionLine line old new (l :: ls) =
      .error ⟨l.number, .header (String.ofList l.text)⟩ := by
  rw [ahead, blocks_header hl]
  dsimp only
  rw [readBody, if_pos hdone, ofBlocks_cons, Hunk.ofBlock, hh]
  rfl

theorem ahead_truncated {sectionLine line old new : Nat}
    (hl : startsWith "@@".toList l.text = true) (hdone : ¬ (old = 0 ∧ new = 0)) (ls : List Line) :
    ahead sectionLine line old new (l :: ls) = .error ⟨line, .truncated old new none⟩ := by
  rw [ahead, blocks_header hl]
  dsimp only
  rw [readBody, if_neg hdone]
  rfl

theorem walk_cons (contextLine : Bool) (sectionLine : Nat) (w : Walker) (l : Line)
    (ls : List Line) : walk contextLine sectionLine w (l :: ls) =
      feed contextLine w l >>= fun w => walk contextLine sectionLine w ls := by
  rw [walk, List.foldlM_cons]
  cases feed contextLine w l <;> rfl

theorem take_eq (contextLine : Bool) (hw : w.Tidy) (hcomplete : ¬ w.complete = true)
    (hnote : ¬ startsWith ['\\'] l.text = true) :
    (∃ m, w.take l = .error (.fault m) ∧ ∀ truncated rest,
      readBody truncated w.missingOld.toNat w.missingNew.toNat (l :: rest) = .error m) ∨
    ∃ w' x, w.take l = .ok w' ∧ w'.Tidy ∧ w'.opened = w.opened ∧
      (∀ truncated rest,
        readBody truncated w.missingOld.toNat w.missingNew.toNat (l :: rest) =
          (readBody truncated w'.missingOld.toNat w'.missingNew.toNat rest).map
            fun p => (x :: p.1, p.2)) ∧
      ∀ body unended hs, outcome contextLine w' ((body, unended), hs) =
        outcome contextLine w ((x :: body, unended), hs) := by
  have hmissing := mt complete_iff.mpr hcomplete
  rw [take, bodyLine_eq]
  cases hline : bodyLine? l.text with
  | none =>
    refine .inl ⟨_, rfl, fun truncated rest => ?_⟩
    rw [readBody, if_neg hnote, if_neg hmissing, hline]
  | some x =>
    obtain ⟨k, t⟩ := x
    dsimp only
    rw [ok_bind]
    dsimp only
    by_cases hlong : ((k.inOld && w.missingOld.toNat == 0) ||
        (k.inNew && w.missingNew.toNat == 0)) = true
    · refine .inl ⟨⟨l.number, .overlong⟩, ?_, fun truncated rest => ?_⟩
      · rw [if_pos]
        rw [Bool.or_eq_true, decide_eq_true_iff, decide_eq_true_iff, (step_eq (ε := Unit) _ _).1,
          (step_eq (ε := Unit) _ _).1, ← Bool.or_eq_true]
        exact hlong
      · rw [readBody, if_neg hnote, if_neg hmissing, hline]
        exact if_pos hlong
    · have hshort := Bool.or_eq_false_iff.mp (Bool.eq_false_iff.mpr hlong)
      obtain ⟨old, hsubOld, hold⟩ := (step_eq (ε := Malformed) k.inOld w.missingOld).2 hshort.1
      obtain ⟨new, hsubNew, hnew⟩ := (step_eq (ε := Malformed) k.inNew w.missingNew).2 hshort.2
      have hcounted : Tidy { w with missingOld := old, missingNew := new } :=
        ⟨hw.collects, fun h => absurd (hw.opened h) hcomplete⟩
      obtain ⟨htidy, hopened, hmissingOld, hmissingNew⟩ := push_frame hcounted k t
      refine .inr ⟨_, (k, t), ?_, htidy, hopened, fun truncated rest => ?_, fun _ _ _ => ?_⟩
      · rw [if_neg, hsubOld, ok_bind, hsubNew, ok_bind]
        rw [Bool.or_eq_true, decide_eq_true_iff, decide_eq_true_iff, (step_eq (ε := Unit) _ _).1,
          (step_eq (ε := Unit) _ _).1, ← Bool.or_eq_true]
        exact hlong
      · rw [readBody, if_neg hnote, if_neg hmissing, hline, hmissingOld, hmissingNew, hold, hnew]
        dsimp only
        rw [if_neg hlong]
        cases readBody _ _ _ rest <;> rfl
      · rw [outcome_push contextLine hcounted]
        rfl

/-- Taking the lines one by one comes to cutting them at the headers first. -/
def Agrees (contextLine : Bool) (sectionLine : Nat) (w : Walker) (ls : List Line) : Prop :=
  walk contextLine sectionLine w ls = ofFaults
    ((ahead sectionLine (w.opened.getD 0) w.missingOld.toNat w.missingNew.toNat ls).map
      (outcome contextLine w))

theorem agrees_nil (contextLine : Bool) (sectionLine : Nat) (hw : w.Tidy) :
    Agrees contextLine sectionLine w [] := by
  rw [Agrees, walk, List.foldlM_nil]
  change finish sectionLine w = _
  rw [finish, checkComplete_eq hw, ahead, blocks, readBody, flush_eq hw]
  by_cases hcomplete : w.complete = true
  · rw [if_pos hcomplete, if_pos (complete_iff.mp hcomplete)]
    change Except.ok _ = Except.ok (outcome contextLine w (([], false), []))
    rw [outcome, Hunk.allRuns, List.append_nil, List.append_nil, List.any_nil, Bool.or_false,
      Bool.or_false]
  · rw [if_neg hcomplete, if_neg (mt complete_iff.mpr hcomplete)]
    rfl

section Lines

variable {contextLine : Bool} {sectionLine : Nat} {ls : List Line}

theorem agrees_header (hw : w.Tidy) (hheader : startsWith "@@".toList l.text = true)
    (ih : ∀ {w : Walker}, w.Tidy → Agrees contextLine sectionLine w ls) :
    Agrees contextLine sectionLine w (l :: ls) := by
  rw [Agrees, walk_cons, feed_header contextLine hw hheader]
  by_cases hcomplete : w.complete = true
  · rw [if_pos hcomplete]
    have hdone := complete_iff.mp hcomplete
    cases hh : HunkHeader.ofLine? l.text with
    | none =>
      rw [ahead_no_header hheader hh hdone]
      rfl
    | some h =>
      obtain ⟨w', hopen, htidy, hline, hold, hnew, houtcome⟩ :=
        openHunk_eq (ε := Malformed) contextLine l.number h hw
      rw [ahead_header hheader hh hdone]
      dsimp only
      rw [hopen, ok_bind, ih htidy, hline, hold, hnew, Option.getD_some]
      cases ahead sectionLine l.number h.oldCount.toNat h.newCount.toNat ls with
      | error m => rfl
      | ok p => exact congrArg Except.ok (houtcome p.1 p.2)
  · rw [if_neg hcomplete, ahead_truncated hheader (mt complete_iff.mpr hcomplete)]
    rfl

theorem agrees_note (hw : w.Tidy) (hheader : ¬ startsWith "@@".toList l.text = true)
    (hnote : startsWith ['\\'] l.text = true)
    (ih : ∀ {w : Walker}, w.Tidy → Agrees contextLine sectionLine w ls) :
    Agrees contextLine sectionLine w (l :: ls) := by
  have hmarked : Tidy { w with unended := true } := ⟨hw.collects, hw.opened⟩
  rw [Agrees, walk_cons, ahead, blocks_line hheader, feed, if_neg hheader]
  dsimp only
  rw [if_pos hnote, ok_bind, readBody, if_pos hnote, ih hmarked, ahead]
  dsimp only
  cases readBody _ _ _ (blocks ls).1 with
  | error m => rfl
  | ok p =>
    cases Hunk.ofBlocks sectionLine (blocks ls).2 with
    | error m => rfl
    | ok hs =>
      change Except.ok (_, true || p.2 || _) = Except.ok (_, w.unended || true || _)
      rw [Bool.true_or, Bool.or_true]
      rfl

theorem agrees_body (hw : w.Tidy) (hheader : ¬ startsWith "@@".toList l.text = true)
    (hnote : ¬ startsWith ['\\'] l.text = true)
    (ih : ∀ {w : Walker}, w.Tidy → Agrees contextLine sectionLine w ls) :
    Agrees contextLine sectionLine w (l :: ls) := by
  rw [Agrees, walk_cons, ahead, blocks_line hheader, feed, if_neg hheader]
  dsimp only
  rw [if_neg hnote]
  by_cases hcomplete : w.complete = true
  · have hdone := complete_iff.mp hcomplete
    rw [if_pos hcomplete, ok_bind, readBody, if_neg hnote, if_pos hdone, ih hw, ahead,
      hdone.1, hdone.2]
  · rw [if_neg hcomplete]
    rcases take_eq contextLine hw hcomplete hnote with
      ⟨m, htake, hread⟩ | ⟨w', x, htake, htidy, hline, hread, houtcome⟩
    · rw [htake, hread]
      rfl
    · rw [htake, ok_bind, hread, ih htidy, ahead, hline]
      cases readBody _ _ _ (blocks ls).1 with
      | error m => rfl
      | ok p =>
        cases Hunk.ofBlocks sectionLine (blocks ls).2 with
        | error m => rfl
        | ok hs => exact congrArg Except.ok (houtcome p.1 p.2 hs)

end Lines

theorem walk_eq (contextLine : Bool) (sectionLine : Nat) (ls : List Line) (hw : w.Tidy) :
    Agrees contextLine sectionLine w ls := by
  induction ls generalizing w with
  | nil => exact agrees_nil contextLine sectionLine hw
  | cons l ls ih =>
    by_cases hheader : startsWith "@@".toList l.text = true
    · exact agrees_header hw hheader ih
    by_cases hnote : startsWith ['\\'] l.text = true
    · exact agrees_note hw hheader hnote ih
    · exact agrees_body hw hheader hnote ih

end Walker

end Checked

end Diff

end SourceDelta
