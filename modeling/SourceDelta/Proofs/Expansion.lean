import Mathlib.Algebra.GroupWithZero.Nat
import SourceDelta.Diff.Hunk
import SourceDelta.Proofs.Coverage
import SourceDelta.Proofs.TextLines

/-!
# The lines of runs

Runs stand for lines, and hunks for the lines of a file up to their last one.
Cut into runs and put together again, the lines of hunks are what they were, and
every run counts the lines that it holds: no count leaves the 32-bit words. The
totals over runs are those over their lines.
-/

set_option autoImplicit false

namespace SourceDelta
open SourceDelta.Text

namespace LineKind

def quoted : LineKind → LineKind
  | gap => unmodified
  | k => k

theorem quoted_inOld (k : LineKind) : k.quoted.inOld = k.inOld := by cases k <;> rfl

theorem quoted_inNew (k : LineKind) : k.quoted.inNew = k.inNew := by cases k <;> rfl

theorem quoted_beq_added (k : LineKind) : (k.quoted == .added) = (k == .added) := by
  cases k <;> rfl

theorem quoted_beq_deleted (k : LineKind) : (k.quoted == .deleted) = (k == .deleted) := by
  cases k <;> rfl

theorem countP_quoted {side : LineKind → Bool} (hside : ∀ k, side k.quoted = side k)
    (ks : List LineKind) : (ks.map quoted).countP side = ks.countP side := by
  rw [List.countP_map]
  exact List.countP_congr fun k _ => by rw [Function.comp_apply, hside]

end LineKind

namespace Run

/-- The lines of a run under their kind. The text of the lines in a gap is not known. -/
def lines (r : Run) : List (LineKind × List Char) :=
  if r.kind = .gap then List.replicate r.count.toNat (.gap, []) else r.texts.map (r.kind, ·)

def kinds (rs : List Run) : List LineKind :=
  rs.flatMap fun r => List.replicate r.count.toNat r.kind

def total (p : LineKind → Bool) (rs : List Run) : Nat :=
  ((rs.filter (p ·.kind)).map (·.count.toNat)).sum

/-- The run counts the lines that it holds, at least one, and names none of a gap. -/
structure Counted (r : Run) : Prop where
  pos : 0 < r.count.toNat
  length : r.lines.length = r.count.toNat
  gap : r.kind = .gap → r.content = ""

variable {r : Run} {rs : List Run} {k : LineKind} {t : List Char} {ts : List (List Char)}
  {ls : List (LineKind × List Char)} {cs : List (LineKind × List (List Char))}

theorem kinds_append (rs rs' : List Run) : kinds (rs ++ rs') = kinds rs ++ kinds rs' :=
  List.flatMap_append

theorem pieces_join {sep : Char} (hne : ts ≠ []) (h : ∀ t ∈ ts, sep ∉ t) :
    pieces sep (join sep ts) = ts := by
  induction ts with
  | nil => exact absurd rfl hne
  | cons t ts ih =>
    have ht : sep ∉ t := h t List.mem_cons_self
    cases ts with
    | nil => exact pieces_of_not_mem ht
    | cons t' ts =>
      rw [join, pieces_append_sep, pieces_of_not_mem ht,
        ih (List.cons_ne_nil _ _) fun x hx => h x (List.mem_cons_of_mem _ hx)]
      · rfl
      · exact List.cons_ne_nil _ _

theorem clusters_ne_nil (h : (k, ts) ∈ clusters ls) : ts ≠ [] := by
  induction ls generalizing k ts with
  | nil => cases h
  | cons l ls ih =>
    rw [clusters] at h
    split at h
    next =>
      cases List.mem_singleton.mp h
      exact List.cons_ne_nil _ _
    next k' ts' more hmore =>
      rw [hmore] at ih
      split at h
      next =>
        rcases List.mem_cons.mp h with heq | h
        · cases heq
          exact List.cons_ne_nil _ _
        · exact ih (List.mem_cons_of_mem _ h)
      next =>
        rcases List.mem_cons.mp h with heq | h
        · cases heq
          exact List.cons_ne_nil _ _
        · exact ih h

theorem length_cluster (h : (k, ts) ∈ clusters ls) : ts.length ≤ ls.countP (·.1 = k) := by
  have hall := clusters_flatMap ls
  obtain ⟨before, after, hsplit⟩ := List.append_of_mem h
  rw [hsplit, List.flatMap_append, List.flatMap_cons] at hall
  rw [← hall, List.countP_append, List.countP_append]
  have hcount : (ts.map fun t => (k, t)).countP (·.1 = k) = ts.length := by
    rw [List.countP_map]
    exact List.countP_eq_length.mpr (by simp)
  rw [hcount]
  omega

theorem mem_of_mem_cluster (h : (k, ts) ∈ clusters ls) (ht : t ∈ ts) : (k, t) ∈ ls := by
  rw [← clusters_flatMap ls]
  exact List.mem_flatMap.mpr ⟨(k, ts), h, List.mem_map_of_mem ht⟩

theorem lines_ofLines (hk : k ≠ .gap) (hne : ts ≠ []) (h : ∀ t ∈ ts, '\n' ∉ t) :
    (ofLines k ts).lines = ts.map (k, ·) := by
  have hkind : (ofLines k ts).kind ≠ .gap := hk
  rw [lines, if_neg hkind, texts, ofLines, String.toList_ofList, pieces_join hne h]

theorem kinds_ofLines (h : ts.length < 2 ^ 32) :
    List.replicate (ofLines k ts).count.toNat (ofLines k ts).kind =
      (ts.map (k, ·)).map Prod.fst := by
  rw [ofLines, UInt32.toNat_ofNat_of_lt' h, List.map_map]
  exact List.map_const'.symm

theorem kinds_group (h : ∀ k, ls.countP (·.1 = k) < 2 ^ 32) :
    kinds (group ls) = ls.map Prod.fst := by
  rw [kinds, group, List.flatMap_map, ← clusters_flatMap ls, List.map_flatMap, clusters_flatMap]
  exact List.flatMap_congr fun c hc =>
    kinds_ofLines (Nat.lt_of_le_of_lt (length_cluster hc) (h c.1))

theorem lines_group (hquoted : ∀ l ∈ ls, l.1 ≠ .gap) (h : ∀ l ∈ ls, '\n' ∉ l.2) :
    (group ls).flatMap lines = ls := by
  conv_rhs => rw [← clusters_flatMap ls]
  rw [group, List.flatMap_map]
  refine List.flatMap_congr fun c hc => ?_
  have hne := clusters_ne_nil hc
  obtain ⟨t, ht⟩ := List.exists_mem_of_ne_nil _ hne
  exact lines_ofLines (hquoted _ (mem_of_mem_cluster hc ht)) hne
    fun t ht => h _ (mem_of_mem_cluster hc ht)

theorem foldlM_add? {a w : UInt32} (ws : List UInt32) :
    ws.foldlM add? a = some w ↔ a.toNat + (ws.map UInt32.toNat).sum = w.toNat := by
  induction ws generalizing a with
  | nil => simp [UInt32.toNat_inj]
  | cons v ws ih =>
    rw [List.foldlM_cons, List.map_cons, List.sum_cons, ← Nat.add_assoc]
    cases hadd : add? a v with
    | none =>
      have hw := w.toNat_lt
      have hsize : 2 ^ 32 ≤ a.toNat + v.toNat := add?_eq_none.mp hadd
      exact iff_of_false (fun h => by cases h) (by omega)
    | some b =>
      rw [add?_eq_some.mp hadd]
      exact ih

theorem countP_kinds (p : LineKind → Bool) (rs : List Run) : (kinds rs).countP p = total p rs := by
  induction rs with
  | nil => rfl
  | cons r rs ih =>
    rw [kinds, List.flatMap_cons, List.countP_append, ← kinds, ih, List.countP_replicate, total,
      total, List.filter_cons]
    split
    next => rw [List.map_cons, List.sum_cons]
    next => rw [Nat.zero_add]

theorem total?_eq_some {p : LineKind → Bool} {w : UInt32} :
    total? p rs = some w ↔ total p rs = w.toNat := by
  rw [total?, sum?, foldlM_add?, List.map_map, UInt32.toNat_zero, Nat.zero_add]
  rfl

end Run

namespace Diff

namespace Hunk

/-- The hunk holds the lines that its header declares, and no gap. -/
structure Balanced (h : Hunk) : Prop where
  old : h.body.countP (·.1.inOld) = h.header.oldCount.toNat
  new : h.body.countP (·.1.inNew) = h.header.newCount.toNat
  quoted : ∀ l ∈ h.body, l.1 ≠ .gap

structure Unbroken (h : Hunk) : Prop where
  context : '\n' ∉ h.header.context
  body : ∀ l ∈ h.body, '\n' ∉ l.2

def gapLines (contextLine : Bool) (covered : Nat) (h : Hunk) : List (LineKind × List Char) :=
  if h.quotesContext contextLine covered then
    List.replicate (h.gap covered - 1) (.gap, []) ++ [(.unmodified, h.header.context)]
  else List.replicate (h.gap covered) (.gap, [])

/-- The lines of hunks, each behind its gap, `covered` being the last old line before them. -/
def allLines (contextLine : Bool) : Nat → List Hunk → List (LineKind × List Char)
  | _, [] => []
  | covered, h :: hs =>
    h.gapLines contextLine covered ++ h.body ++
      allLines contextLine (max covered h.header.oldEnd) hs

variable {contextLine : Bool} {covered n : Nat} {h : Hunk} {hs : List Hunk} {k : LineKind} {r : Run}

theorem gap_lt (covered : Nat) (h : Hunk) :
    h.gap covered + h.header.oldCount.toNat < 2 ^ 32 := by
  have hfits : h.header.bodyStart + h.header.oldCount.toNat < 2 ^ 32 := h.header.fits
  rw [gap]
  omega

/-- The context of a hunk stands behind a line number, so it leaves room for one line more. -/
theorem oldCount_lt_of_quotes (hquotes : h.quotesContext contextLine covered = true) :
    h.header.oldCount.toNat + 1 < 2 ^ 32 := by
  have hgap := gap_lt covered h
  simp only [quotesContext, Bool.and_eq_true, decide_eq_true_eq] at hquotes
  omega

theorem countP_kind_le {ls : List (LineKind × List Char)} {p : LineKind → Bool} (hk : p k = true) :
    ls.countP (·.1 = k) ≤ ls.countP (p ·.1) := by
  refine List.countP_mono_left fun l _ hl => ?_
  rw [decide_eq_true_eq] at hl
  rw [hl, hk]

theorem Balanced.fits (hb : h.Balanced) (k : LineKind) : h.body.countP (·.1 = k) < 2 ^ 32 := by
  have hold := h.header.oldCount.toNat_lt
  have hnew := h.header.newCount.toNat_lt
  rcases (by cases k <;> decide : k.inOld = true ∨ k.inNew = true) with hk | hk
  · exact Nat.lt_of_le_of_lt (countP_kind_le hk) (hb.old ▸ hold)
  · exact Nat.lt_of_le_of_lt (countP_kind_le hk) (hb.new ▸ hnew)

theorem Balanced.fits_context (hb : h.Balanced)
    (hquotes : h.quotesContext contextLine covered = true) (k : LineKind) :
    ((LineKind.unmodified, h.header.context) :: h.body).countP (·.1 = k) < 2 ^ 32 := by
  by_cases hk : LineKind.unmodified = k
  · subst hk
    have hroom := oldCount_lt_of_quotes hquotes
    have hle : h.body.countP (·.1 = .unmodified) ≤ h.body.countP (·.1.inOld) := countP_kind_le rfl
    have hold := hb.old
    rw [List.countP_cons_of_pos (by simp)]
    omega
  · rw [List.countP_cons_of_neg (by simpa using hk)]
    exact hb.fits k

theorem kinds_gapRuns (hn : n < 2 ^ 32) : Run.kinds (gapRuns n) = List.replicate n .gap := by
  rw [gapRuns]
  split
  next hzero => rw [hzero]; rfl
  next => simp [Run.kinds, Run.ofGap, UInt32.toNat_ofNat_of_lt' hn]

theorem lines_gapRuns (hn : n < 2 ^ 32) :
    (gapRuns n).flatMap Run.lines = List.replicate n (.gap, []) := by
  rw [gapRuns]
  split
  next hzero => rw [hzero]; rfl
  next => simp [Run.lines, Run.ofGap, UInt32.toNat_ofNat_of_lt' hn]

theorem counted_gapRuns (hn : n < 2 ^ 32) (hr : r ∈ gapRuns n) : r.Counted := by
  rw [gapRuns] at hr
  split at hr
  next => cases hr
  next hne =>
    rw [List.mem_singleton.mp hr]
    have hcount : (Run.ofGap n).count.toNat = n := UInt32.toNat_ofNat_of_lt' hn
    exact ⟨by omega, by simp [Run.lines, Run.ofGap], fun _ => rfl⟩

theorem kinds_runs (hb : h.Balanced) : Run.kinds (h.runs contextLine covered) =
    (h.gapLines contextLine covered ++ h.body).map Prod.fst := by
  have hgap := gap_lt covered h
  rw [runs, gapLines]
  split
  next hquotes =>
    rw [Run.kinds_append, kinds_gapRuns (by omega), Run.kinds_group (hb.fits_context hquotes)]
    simp
  next =>
    rw [Run.kinds_append, kinds_gapRuns (by omega), Run.kinds_group hb.fits]
    simp

theorem lines_runs (hb : h.Balanced) (hu : h.Unbroken) :
    (h.runs contextLine covered).flatMap Run.lines =
      h.gapLines contextLine covered ++ h.body := by
  have hgap := gap_lt covered h
  rw [runs, gapLines]
  split
  next =>
    rw [List.flatMap_append, lines_gapRuns (by omega), Run.lines_group, List.append_assoc]
    · rfl
    · exact List.forall_mem_cons.mpr ⟨LineKind.noConfusion, hb.quoted⟩
    · exact List.forall_mem_cons.mpr ⟨hu.context, hu.body⟩
  next =>
    rw [List.flatMap_append, lines_gapRuns (by omega), Run.lines_group hb.quoted hu.body]

theorem map_quoted_gapLines : ((h.gapLines contextLine covered).map Prod.fst).map LineKind.quoted =
    List.replicate (h.gap covered) .unmodified := by
  rw [gapLines]
  split
  next hquotes =>
    simp only [quotesContext, Bool.and_eq_true, decide_eq_true_eq] at hquotes
    obtain ⟨n, hn⟩ := Nat.exists_eq_succ_of_ne_zero (Nat.ne_of_gt hquotes.2)
    rw [List.map_append, List.map_append, List.map_replicate, List.map_replicate, hn,
      List.replicate_succ']
    rfl
  next =>
    rw [List.map_replicate, List.map_replicate]
    rfl

theorem kinds_allRuns (hb : ∀ h ∈ hs, h.Balanced) :
    Run.kinds (allRuns contextLine covered hs) =
      (allLines contextLine covered hs).map Prod.fst := by
  induction hs generalizing covered with
  | nil => rfl
  | cons h hs ih =>
    obtain ⟨hh, hhs⟩ := List.forall_mem_cons.mp hb
    rw [allRuns, allLines, Run.kinds_append, kinds_runs hh, ih hhs, ← List.map_append]

/-- The runs of hunks hold the lines of the hunks. -/
theorem lines_allRuns (hb : ∀ h ∈ hs, h.Balanced) (hu : ∀ h ∈ hs, h.Unbroken) :
    (allRuns contextLine covered hs).flatMap Run.lines = allLines contextLine covered hs := by
  induction hs generalizing covered with
  | nil => rfl
  | cons h hs ih =>
    obtain ⟨hh, hhs⟩ := List.forall_mem_cons.mp hb
    obtain ⟨huh, huhs⟩ := List.forall_mem_cons.mp hu
    rw [allRuns, allLines, List.flatMap_append, lines_runs hh huh, ih hhs huhs]

end Hunk

end Diff

end SourceDelta
