import SourceDelta.Proofs.LineByLine
import SourceDelta.Proofs.Skipping

/-!
# Sums that do not fit

A walk has no answer when the number of the line does not fit a word, and when one
of the files has more lines than a word can count up to the end of the run that
holds the line: it adds whole runs before it looks for the line in them. Headers
bound the old lines of hunks that come in order, but not the new ones.
-/

set_option autoImplicit false

namespace SourceDelta

namespace Run

variable {d : Direction} {side : LineKind → Bool} {r : Run} {rs pre post : List Run} {i m n : Nat}

theorem total_new_le (rs : List Run) :
    total LineKind.inNew rs ≤ total LineKind.inOld rs + total LineKind.changed rs := by
  rw [← countP_kinds, ← countP_kinds, ← countP_kinds]
  induction kinds rs with
  | nil => exact Nat.le_refl _
  | cons k ks ih =>
    rw [List.countP_cons, List.countP_cons, List.countP_cons]
    cases k <;> simp [LineKind.inOld, LineKind.inNew, LineKind.changed] <;> omega

theorem total_lt_iff (side : LineKind → Bool) (rs : List Run) :
    (total? side rs).isSome = true ↔ total side rs < 2 ^ 32 := by
  rw [Option.isSome_iff_exists, ← exists_word_iff]
  exact exists_congr fun w => total?_eq_some.trans eq_comm

end Run

open Run

variable {d : Direction} {rs : List Run} {line : UInt32}

/-- The number of a line in the other file does not fit a word. -/
def OutOfRange (d : Direction) (rs : List Run) (line : UInt32) : Prop :=
  line ≠ 0 ∧ 2 ^ 32 ≤ exactNumber d rs line.toNat

theorem locate?_eq_none : locate? d rs line = none ↔
    line ≠ 0 ∧ (2 ^ 32 ≤ exactNumber d rs line.toNat ∨
      ¬ Fits rs (place d.inSource rs line.toNat)) := by
  by_cases hne : line = 0
  · subst hne
    simp [locate?]
  rw [and_iff_right hne, Option.eq_none_iff_forall_ne_some]
  simp only [ne_eq, locate?_eq_some hne]
  constructor
  · intro h
    by_contra hfits
    rw [not_or, Nat.not_le, not_not] at hfits
    obtain ⟨n, hn⟩ := exists_word_iff.mpr hfits.1
    exact h _ ⟨hfits.2, n, hn, rfl⟩
  · rintro (hlarge | hlong) p ⟨hfits, n, hn, -⟩
    · exact absurd n.toNat_lt (Nat.not_lt.mpr (hn ▸ hlarge))
    · exact hlong hfits

theorem locate?_eq_none_of_fits (h : ∀ i, Fits rs i) :
    locate? d rs line = none ↔ OutOfRange d rs line := by
  rw [locate?_eq_none, or_iff_left (not_not_intro (h _)), OutOfRange]

namespace Diff
open SourceDelta.Text

variable {contextLine : Bool} {text path : String} {set : DiffSet} {c : FileChange}

theorem locate?_modification (hget : set.get? path = some c) (hkind : c.kind = .modification)
    (d : Direction) (line : UInt32) :
    set.locate? d path line = .ok none ↔ SourceDelta.locate? d c.runs line = none := by
  rw [DiffSet.locate?, hget]
  dsimp only
  rw [hkind]
  exact ⟨fun h => Except.ok.inj h, congrArg Except.ok⟩

/-- A modified file of an accepted document has no answer for a line when its number in the other
file does not fit a word, or when a word cannot count the lines of one file up to the end of the run
that holds it. The second cannot be for the old lines of a section whose hunks come in order, and
not at all when words can count the lines of both files, so when the old lines and the lines of the
document are not too many together. -/
theorem overflow_iff (hparse : parse contextLine text = .ok set) (hget : set.get? path = some c)
    (hkind : c.kind = .modification) (d : Direction) (line : UInt32) :
    (set.locate? d path line = .ok none ↔ line ≠ 0 ∧ (2 ^ 32 ≤ exactNumber d c.runs line.toNat ∨
      ¬ Fits c.runs (place d.inSource c.runs line.toNat))) ∧
    (FromSection contextLine text c → (set.locate? d path line = .ok none ↔
      line ≠ 0 ∧ (2 ^ 32 ≤ exactNumber d c.runs line.toNat ∨
        2 ^ 32 ≤ total LineKind.inNew (through c.runs (place d.inSource c.runs line.toNat))))) ∧
    (c.oldLines?.isSome = true → c.newLines?.isSome = true →
      (set.locate? d path line = .ok none ↔ OutOfRange d c.runs line)) ∧
    ∀ n, c.oldLines? = some n → n.toNat + (lines text.toList).length < 2 ^ 32 →
      (set.locate? d path line = .ok none ↔ OutOfRange d c.runs line) := by
  rw [locate?_modification hget hkind]
  refine ⟨locate?_eq_none, fun hsection => ?_, fun hold hnew => ?_, fun n hn hlines => ?_⟩
  · rw [locate?_eq_none, fits_iff_new hsection.total_lt, Nat.not_lt]
  · exact locate?_eq_none_of_fits
      (fits_of_total .oldToNew ((total_lt_iff _ _).mp hold) ((total_lt_iff _ _).mp hnew))
  · have hold := Run.total?_eq_some.mp hn
    have hnew := total_new_le c.runs
    have hchanged := total_changed_parse hparse (mem_of_get? hget).1
    exact locate?_eq_none_of_fits (fits_of_total .oldToNew
      (Nat.lt_of_le_of_lt hold.le n.toNat_lt) (hnew.trans_lt (by omega)))

/-- Four lines come first, so the new file has as many lines as a word can count and more. The last
hunk starts at the last number. -/
def longText : String :=
  "diff --git a/f b/f\n@@ -0,0 +1,4 @@\n+a\n+b\n+c\n+d\n" ++
    "@@ -4294967291,4 +4294967295,3 @@\n x\n y\n-z\n w\n"

def longRuns : List Run :=
  [⟨.added, 4, "a\nb\nc\nd"⟩, .ofGap 4294967290, ⟨.unmodified, 2, "x\ny"⟩, ⟨.deleted, 1, "z"⟩,
    ⟨.unmodified, 1, "w"⟩]

/-- The first line of the last hunk has a number in the new file, but the walk adds the line behind
it too. -/
theorem overflow_iff_of_long : ∃ set c, parse true longText = .ok set ∧ set.get? "f" = some c ∧
    c.kind = .modification ∧ exactNumber .oldToNew c.runs 4294967291 = 4294967295 ∧
    set.locate? .oldToNew "f" 4294967291 = .ok none := by
  obtain ⟨c, hc, hfields⟩ := Option.map_eq_some_iff.mp
    (show ((parse true longText).toOption.bind (·.get? "f")).map (fun c => (c.kind, c.runs)) =
      some (.modification, longRuns) by decide +kernel)
  obtain ⟨set, hset, hget⟩ := Option.bind_eq_some_iff.mp hc
  obtain ⟨hkind, hruns⟩ := Prod.mk.inj hfields
  have hparse : parse true longText = .ok set := toOption_eq_some.mp hset
  -- The line is the first one of the run behind the gap.
  have hcut : longRuns = longRuns.take 2 ++ ⟨.unmodified, 2, "x\ny"⟩ :: longRuns.drop 3 := rfl
  have hline : (4294967291 : UInt32).toNat = total LineKind.inOld (longRuns.take 2) + 0 + 1 := rfl
  have hnumber : exactNumber .oldToNew c.runs (4294967291 : UInt32).toNat = 4294967295 := by
    rw [hruns, hline, hcut]
    exact exactNumber_in_run (longRuns.take 2) (longRuns.drop 3) rfl Nat.zero_lt_two
  have hlong : ¬ Fits c.runs (place LineKind.inOld c.runs (4294967291 : UInt32).toNat) := by
    rw [hruns, hline, hcut]
    intro hfits
    exact absurd ((fits_in_run _ _ rfl Nat.zero_lt_two).mp hfits).2 (by decide)
  have hnone := (overflow_iff hparse hget hkind .oldToNew 4294967291).1
  exact ⟨set, c, hparse, hget, hkind, hnumber, hnone.mpr ⟨by decide, .inr hlong⟩⟩

end Diff

end SourceDelta
