import SourceDelta.Proofs.HunkGrammar

/-!
# Line accounting

When the hunks of a section come in file order, the runs of each of them end at
the last old line of the hunk: the gap before it is what lies behind the hunk
before it, and a context takes its place in the gap. So the runs cover the old
file up to the last hunk, and the new side differs by what the headers say.
-/

set_option autoImplicit false

namespace SourceDelta

namespace Run

end Run

namespace Diff

namespace Hunk

/-- The hunks come in file order behind `covered` old lines: each starts behind the last old line
of the one before it. -/
def InOrder : Nat → List Hunk → Prop
  | _, [] => True
  | covered, h :: hs => covered < h.header.bodyStart ∧ InOrder h.header.oldEnd hs

def lastEnd (covered : Nat) (hs : List Hunk) : Nat :=
  (hs.getLast?.map (·.header.oldEnd)).getD covered

variable {contextLine : Bool} {covered : Nat} {h : Hunk} {hs pre post : List Hunk}

theorem countP_gapLines {side : LineKind → Bool} (hside : ∀ k, side k.quoted = side k)
    (hcontext : side .unmodified = true) :
    (h.gapLines contextLine covered).countP (side ·.1) = h.gap covered := by
  have hquoted : (h.gapLines contextLine covered).countP (side ·.1) =
      (((h.gapLines contextLine covered).map Prod.fst).map LineKind.quoted).countP side := by
    rw [LineKind.countP_quoted hside, List.countP_map]
    rfl
  rw [hquoted, map_quoted_gapLines, List.countP_replicate, if_pos hcontext]

theorem gap_add_oldCount (hstart : covered < h.header.bodyStart) :
    covered + (h.gap covered + h.header.oldCount.toNat) = h.header.oldEnd := by
  rw [gap, HunkHeader.oldEnd]
  omega

theorem lastEnd_cons (covered : Nat) (h : Hunk) (hs : List Hunk) :
    lastEnd covered (h :: hs) = lastEnd h.header.oldEnd hs := by
  rw [lastEnd, lastEnd]
  cases hs with
  | nil => rfl
  | cons h' hs =>
    rw [List.getLast?_cons_cons]
    cases hlast : (h' :: hs).getLast? with
    | none => simp at hlast
    | some l => rfl

theorem countP_old_allLines (hb : ∀ h ∈ hs, h.Balanced) (ho : InOrder covered hs) :
    covered + (allLines contextLine covered hs).countP (·.1.inOld) = lastEnd covered hs := by
  induction hs generalizing covered with
  | nil => rfl
  | cons h hs ih =>
    obtain ⟨hh, hhs⟩ := List.forall_mem_cons.mp hb
    obtain ⟨hstart, hrest⟩ := ho
    have hend := gap_add_oldCount hstart
    have hmax : max covered h.header.oldEnd = h.header.oldEnd := Nat.max_eq_right (by omega)
    rw [allLines, List.countP_append, List.countP_append,
      countP_gapLines LineKind.quoted_inOld rfl, hh.old, hmax,
      lastEnd_cons, ← ih hhs hrest, ← Nat.add_assoc, hend]

theorem total_allRuns (hb : ∀ h ∈ hs, h.Balanced) (side : LineKind → Bool) :
    Run.total side (allRuns contextLine covered hs) =
      (allLines contextLine covered hs).countP (side ·.1) := by
  rw [← Run.countP_kinds, kinds_allRuns hb, List.countP_map]
  rfl

theorem oldEnd_lt (h : Hunk) : h.header.oldEnd < 2 ^ 32 := by
  have hfits : h.header.bodyStart + h.header.oldCount.toNat < 2 ^ 32 := h.header.fits
  rw [HunkHeader.oldEnd]
  omega

end Hunk

open Hunk

end Diff

end SourceDelta
