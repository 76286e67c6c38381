import Mathlib.Data.Nat.Nth
import SourceDelta.Position
import SourceDelta.Proofs.Expansion

/-!
# Places of lines

Written out, runs are a sequence of lines without end: behind the last run all
lines stay. A line of one file has a place in this sequence, and the lines before
that place give its number in the other file.
-/

set_option autoImplicit false

namespace SourceDelta

namespace Direction

@[simp] theorem inSource_unmodified (d : Direction) : d.inSource .unmodified = true := by
  cases d <;> rfl

@[simp] theorem inTarget_unmodified (d : Direction) : d.inTarget .unmodified = true := by
  cases d <;> rfl

theorem both_of_unchanged (d : Direction) {k : LineKind} (h : k.changed = false) :
    d.inSource k = true ∧ d.inTarget k = true := by
  cases k with
  | added => cases h
  | deleted => cases h
  | unmodified => exact ⟨d.inSource_unmodified, d.inTarget_unmodified⟩
  | gap => cases d <;> exact ⟨rfl, rfl⟩

end Direction

namespace Run

/-- The kind of line `i`, counted from zero, of the lines that runs stand for and those behind. -/
def kindAt (rs : List Run) (i : Nat) : LineKind := (kinds rs).getD i .unmodified

def before (side : LineKind → Bool) (rs : List Run) (i : Nat) : Nat :=
  Nat.count (fun j => side (kindAt rs j) = true) i

/-- The place of the `n`th line of a side. -/
noncomputable def place (side : LineKind → Bool) (rs : List Run) (n : Nat) : Nat :=
  Nat.nth (fun j => side (kindAt rs j) = true) (n - 1)

/-- The number in the target of line `n` of the source, or of the line after it if the target lacks
it. No word bounds it. -/
noncomputable def exactNumber (d : Direction) (rs : List Run) (n : Nat) : Nat :=
  before d.inTarget rs (place d.inSource rs n) + 1

/-- The runs up to the end of the one with line `i`. -/
def through : List Run → Nat → List Run
  | [], _ => []
  | r :: rs, i => if i < r.count.toNat then [r] else r :: through rs (i - r.count.toNat)

/-- Either file can number its lines up to the end of the run with line `i`. -/
def Fits (rs : List Run) (i : Nat) : Prop :=
  total LineKind.inOld (through rs i) < 2 ^ 32 ∧ total LineKind.inNew (through rs i) < 2 ^ 32

variable {d : Direction} {side : LineKind → Bool} {r : Run} {rs rs' : List Run} {i j m n : Nat}

theorem kinds_cons (r : Run) (rs : List Run) :
    kinds (r :: rs) = List.replicate r.count.toNat r.kind ++ kinds rs := List.flatMap_cons

theorem kinds_singleton (r : Run) : kinds [r] = List.replicate r.count.toNat r.kind :=
  List.flatMap_singleton ..

theorem total_append (side : LineKind → Bool) (rs rs' : List Run) :
    total side (rs ++ rs') = total side rs + total side rs' := by
  rw [← countP_kinds, kinds_append, List.countP_append, countP_kinds, countP_kinds]

theorem total_cons (side : LineKind → Bool) (r : Run) (rs : List Run) :
    total side (r :: rs) = total side [r] + total side rs := total_append side [r] rs

theorem total_singleton (side : LineKind → Bool) (r : Run) :
    total side [r] = if side r.kind then r.count.toNat else 0 := by
  rw [← countP_kinds, kinds_singleton, List.countP_replicate]

theorem kindAt_nil (i : Nat) : kindAt [] i = .unmodified := rfl

theorem kindAt_append_left (h : i < (kinds rs).length) : kindAt (rs ++ rs') i = kindAt rs i := by
  rw [kindAt, kinds_append, List.getD_append _ _ _ _ h, kindAt]

theorem kindAt_append_right (rs rs' : List Run) (i : Nat) :
    kindAt (rs ++ rs') ((kinds rs).length + i) = kindAt rs' i := by
  rw [kindAt, kinds_append, List.getD_append_right _ _ _ _ (Nat.le_add_right _ _),
    Nat.add_sub_cancel_left, kindAt]

theorem kindAt_within (rs : List Run) (h : i < r.count.toNat) : kindAt (r :: rs) i = r.kind := by
  have hlength : i < (List.replicate r.count.toNat r.kind).length := by rwa [List.length_replicate]
  rw [kindAt, kinds_cons, List.getD_append _ _ _ _ hlength, List.getD_replicate _ h]

theorem kindAt_behind (r : Run) (rs : List Run) (i : Nat) :
    kindAt (r :: rs) (r.count.toNat + i) = kindAt rs i := by
  have hlength : (kinds [r]).length = r.count.toNat := by
    rw [kinds_singleton, List.length_replicate]
  rw [← hlength]
  exact kindAt_append_right [r] rs i

theorem exists_run_at (post : List Run) (h : i < (kinds rs).length) :
    ∃ r ∈ rs, kindAt (rs ++ post) i = r.kind := by
  have hmem : kindAt rs i ∈ kinds rs := by
    rw [kindAt, List.getD_eq_getElem _ _ h]
    exact List.getElem_mem h
  obtain ⟨r, hr, hk⟩ := List.mem_flatMap.mp hmem
  exact ⟨r, hr, by rw [kindAt_append_left h, List.eq_of_mem_replicate hk]⟩

theorem before_of_forall (h : ∀ j < i, side (kindAt rs j) = true) : before side rs i = i :=
  Nat.count_of_forall h

theorem before_nil (h : side .unmodified = true) (i : Nat) : before side [] i = i :=
  before_of_forall fun _ _ => h

theorem before_within (rs : List Run) (h : i ≤ r.count.toNat) :
    before side (r :: rs) i = if side r.kind then i else 0 := by
  have hkind : ∀ j < i, kindAt (r :: rs) j = r.kind :=
    fun j hj => kindAt_within rs (Nat.lt_of_lt_of_le hj h)
  split
  next hside => exact before_of_forall fun j hj => by rw [hkind j hj, hside]
  next hside => exact Nat.count_of_forall_not fun j hj => by rwa [hkind j hj]

theorem before_behind (side : LineKind → Bool) (r : Run) (rs : List Run) (i : Nat) :
    before side (r :: rs) (r.count.toNat + i) = total side [r] + before side rs i := by
  rw [before, Nat.count_add, ← before, before_within rs (Nat.le_refl _), total_singleton]
  simp only [kindAt_behind, before]

theorem before_append (side : LineKind → Bool) (rs rs' : List Run) (i : Nat) :
    before side (rs ++ rs') ((kinds rs).length + i) = total side rs + before side rs' i := by
  induction rs with
  | nil => simp [kinds, total]
  | cons r rs ih =>
    rw [kinds_cons, List.length_append, List.length_replicate, Nat.add_assoc, List.cons_append,
      before_behind, ih, total_cons side r rs, Nat.add_assoc]

theorem before_end (side : LineKind → Bool) (rs rs' : List Run) :
    before side (rs ++ rs') (kinds rs).length = total side rs := before_append side rs rs' 0

theorem before_unchanged (d : Direction) (h : ∀ j < i, (kindAt rs j).changed = false) :
    before d.inSource rs i = i ∧ before d.inTarget rs i = i :=
  ⟨before_of_forall fun j hj => (d.both_of_unchanged (h j hj)).1,
    before_of_forall fun j hj => (d.both_of_unchanged (h j hj)).2⟩

theorem before_mono (h : i ≤ j) : before side rs i ≤ before side rs j := Nat.count_monotone _ h

theorem before_lt (hi : side (kindAt rs i) = true) (h : i < j) :
    before side rs i < before side rs j := Nat.count_strict_mono hi h

theorem place_before (h : side (kindAt rs i) = true) : place side rs (before side rs i + 1) = i :=
  Nat.nth_count (p := fun j => side (kindAt rs j) = true) h

theorem lt_total_iff {pre post : List Run} (hrs : rs = pre ++ post)
    (hi : side (kindAt rs i) = true) :
    before side rs i < total side pre ↔ i < (kinds pre).length := by
  subst hrs
  rw [← before_end side pre post]
  exact ⟨fun h => Nat.lt_of_not_ge fun hge => absurd (before_mono hge) (Nat.not_le.mpr h),
    before_lt hi⟩

theorem exactNumber_before (h : d.inSource (kindAt rs i) = true) :
    exactNumber d rs (before d.inSource rs i + 1) = before d.inTarget rs i + 1 := by
  rw [exactNumber, place_before h]

theorem infinite_side (h : side .unmodified = true) (rs : List Run) :
    {j | side (kindAt rs j) = true}.Infinite := by
  refine Set.infinite_of_forall_exists_gt fun i => ⟨(kinds rs).length + (i + 1), ?_, by omega⟩
  have hbehind := kindAt_append_right rs [] (i + 1)
  rw [List.append_nil, kindAt_nil] at hbehind
  rw [Set.mem_ofPred_eq, hbehind, h]

theorem kindAt_place (h : side .unmodified = true) (rs : List Run) (n : Nat) :
    side (kindAt rs (place side rs n)) = true := Nat.nth_mem_of_infinite (infinite_side h rs) _

theorem before_place (h : side .unmodified = true) (rs : List Run) (hn : n ≠ 0) :
    before side rs (place side rs n) + 1 = n := by
  rw [before, place, Nat.count_nth_of_infinite (infinite_side h rs)]
  omega

theorem place_lt (h : side .unmodified = true) (rs : List Run) {m n : Nat} (hm : m ≠ 0)
    (hmn : m < n) : place side rs m < place side rs n :=
  Nat.nth_strictMono (infinite_side h rs) (by omega)

theorem through_within (rs : List Run) (h : i < r.count.toNat) : through (r :: rs) i = [r] := by
  rw [through, if_pos h]

theorem through_behind (r : Run) (rs : List Run) (i : Nat) :
    through (r :: rs) (r.count.toNat + i) = r :: through rs i := by
  rw [through, if_neg (by omega), Nat.add_sub_cancel_left]

theorem fits_iff (d : Direction) (rs : List Run) (i : Nat) : Fits rs i ↔
    total d.inSource (through rs i) < 2 ^ 32 ∧ total d.inTarget (through rs i) < 2 ^ 32 := by
  cases d with
  | oldToNew => exact Iff.rfl
  | newToOld => exact and_comm

theorem through_append (pre post : List Run) (i : Nat) :
    through (pre ++ post) ((kinds pre).length + i) = pre ++ through post i := by
  induction pre with
  | nil =>
    rw [kinds, List.flatMap_nil, List.length_nil, Nat.zero_add, List.nil_append, List.nil_append]
  | cons r pre ih =>
    rw [kinds_cons, List.length_append, List.length_replicate, Nat.add_assoc, List.cons_append,
      through_behind, ih, List.cons_append]

theorem exists_through (rs : List Run) (i : Nat) : ∃ post, rs = through rs i ++ post := by
  induction rs generalizing i with
  | nil => exact ⟨[], rfl⟩
  | cons r rs ih =>
    rw [through]
    split
    next => exact ⟨rs, rfl⟩
    next =>
      obtain ⟨post, hpost⟩ := ih (i - r.count.toNat)
      exact ⟨post, by rw [List.cons_append, ← hpost]⟩

theorem total_through_le (side : LineKind → Bool) (rs : List Run) (i : Nat) :
    total side (through rs i) ≤ total side rs := by
  obtain ⟨post, hpost⟩ := exists_through rs i
  conv_rhs => rw [hpost]
  rw [total_append]
  exact Nat.le_add_right _ _

theorem fits_of_total (d : Direction) (hsource : total d.inSource rs < 2 ^ 32)
    (htarget : total d.inTarget rs < 2 ^ 32) (i : Nat) : Fits rs i :=
  (fits_iff d rs i).mpr ⟨(total_through_le _ rs i).trans_lt hsource,
    (total_through_le _ rs i).trans_lt htarget⟩

theorem fits_iff_new (hold : total LineKind.inOld rs < 2 ^ 32) :
    Fits rs i ↔ total LineKind.inNew (through rs i) < 2 ^ 32 :=
  and_iff_right ((total_through_le _ rs i).trans_lt hold)

theorem place_in_run (pre post : List Run) (hside : side r.kind = true) (hm : m < r.count.toNat) :
    place side (pre ++ r :: post) (total side pre + m + 1) = (kinds pre).length + m := by
  have hbefore := before_append side pre (r :: post) m
  rw [before_within post hm.le, if_pos hside] at hbefore
  rw [← hbefore, place_before]
  rw [kindAt_append_right, kindAt_within post hm, hside]

theorem exactNumber_in_run (pre post : List Run) (hsource : d.inSource r.kind = true)
    (hm : m < r.count.toNat) : exactNumber d (pre ++ r :: post) (total d.inSource pre + m + 1) =
      total d.inTarget pre + (if d.inTarget r.kind then m else 0) + 1 := by
  rw [exactNumber, place_in_run pre post hsource hm, before_append, before_within post hm.le]

theorem fits_in_run (pre post : List Run) (hside : side r.kind = true) (hm : m < r.count.toNat) :
    Fits (pre ++ r :: post) (place side (pre ++ r :: post) (total side pre + m + 1)) ↔
      total LineKind.inOld (pre ++ [r]) < 2 ^ 32 ∧ total LineKind.inNew (pre ++ [r]) < 2 ^ 32 := by
  rw [place_in_run pre post hside hm, Fits, through_append, through_within post hm]

end Run

end SourceDelta
