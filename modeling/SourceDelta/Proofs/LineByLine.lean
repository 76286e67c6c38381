import SourceDelta.Proofs.LinePlaces

/-!
# The walk line by line

A walk adds up whole runs and steps back when it has gone too far. It comes to the
place that the line has among the lines one by one, and it has an answer when this
is a number and either file can number its lines up to the end of the run there.
-/

set_option autoImplicit false

namespace SourceDelta

namespace Position

def ofTarget (present : Bool) (n : UInt32) : Position := if present then .kept n else .dropped n

@[simp] theorem line_ofTarget (present : Bool) (n : UInt32) : (ofTarget present n).line = n := by
  cases present <;> rfl

@[simp] theorem ofTarget_eq_kept {present : Bool} {m n : UInt32} :
    ofTarget present m = .kept n ↔ present = true ∧ m = n := by
  cases present <;> simp [ofTarget]

@[simp] theorem ofTarget_eq_dropped {present : Bool} {m n : UInt32} :
    ofTarget present m = .dropped n ↔ present = false ∧ m = n := by
  cases present <;> simp [ofTarget]

end Position

open Run

variable {d : Direction} {r : Run} {rs : List Run} {i m : Nat} {p : Position}
  {line source target n count : UInt32}

theorem exists_word_iff : (∃ w : UInt32, w.toNat = m) ↔ m < 2 ^ 32 :=
  ⟨fun ⟨w, hw⟩ => hw ▸ w.toNat_lt, fun h => ⟨_, UInt32.toNat_ofNat_of_lt' h⟩⟩

theorem advance?_eq_some_iff {present : Bool} : advance? present n count = some source ↔
    source.toNat = n.toNat + if present then count.toNat else 0 := by
  cases present with
  | true => exact add?_eq_some.trans eq_comm
  | false => simp [advance?, ← UInt32.toNat_inj, eq_comm]

theorem add?_moved_iff (hline : line.toNat = source.toNat + m + 1) :
    add? (line - source) target = some n ↔ n.toNat = target.toNat + m + 1 := by
  have hle : source ≤ line := UInt32.le_iff_toNat_le.mpr (by omega)
  rw [add?_eq_some, UInt32.toNat_sub_of_le _ _ hle]
  omega

theorem walk?_cons : walk? d line source target (r :: rs) = some p ↔ ∃ s t : UInt32,
    s.toNat = source.toNat + total d.inSource [r] ∧ t.toNat = target.toNat + total d.inTarget [r] ∧
    (if line ≤ s then
      if d.inTarget r.kind then (add? (line - source) target).map .kept
      else (add? target 1).map .dropped
    else walk? d line s t rs) = some p := by
  simp only [walk?, Option.bind_eq_bind, Option.bind_eq_some_iff, advance?_eq_some_iff,
    total_singleton]
  constructor
  · rintro ⟨s, hs, t, ht, h⟩
    exact ⟨s, t, hs, ht, h⟩
  · rintro ⟨s, t, hs, ht, h⟩
    exact ⟨s, hs, t, ht, h⟩

theorem stop_eq_some (hline : line.toNat = source.toNat + m + 1) :
    (if d.inTarget r.kind then (add? (line - source) target).map Position.kept
      else (add? target 1).map .dropped) = some p ↔
    ∃ n : UInt32, n.toNat = target.toNat + (if d.inTarget r.kind then m else 0) + 1 ∧
      p = .ofTarget (d.inTarget r.kind) n := by
  cases d.inTarget r.kind with
  | true =>
    rw [if_pos rfl, Option.map_eq_some_iff]
    exact exists_congr fun n => and_congr (add?_moved_iff hline) eq_comm
  | false =>
    rw [if_neg Bool.false_ne_true, Option.map_eq_some_iff]
    exact exists_congr fun n => and_congr (add?_eq_some.trans eq_comm) eq_comm

theorem walk?_within (h : i < r.count.toNat) (hi : d.inSource r.kind = true)
    (hline : line.toNat = source.toNat + i + 1) :
    walk? d line source target (r :: rs) = some p ↔
      source.toNat + total d.inSource [r] < 2 ^ 32 ∧
      target.toNat + total d.inTarget [r] < 2 ^ 32 ∧
      ∃ n : UInt32, n.toNat = target.toNat + (if d.inTarget r.kind then i else 0) + 1 ∧
        p = .ofTarget (d.inTarget r.kind) n := by
  have hreach : ∀ s : UInt32, s.toNat = source.toNat + total d.inSource [r] → line ≤ s := by
    intro s hs
    rw [total_singleton, if_pos hi] at hs
    rw [UInt32.le_iff_toNat_le]
    omega
  rw [walk?_cons]
  constructor
  · rintro ⟨s, t, hs, ht, hstop⟩
    rw [if_pos (hreach s hs)] at hstop
    exact ⟨hs ▸ s.toNat_lt, ht ▸ t.toNat_lt, (stop_eq_some hline).mp hstop⟩
  · rintro ⟨hsource, htarget, hp⟩
    obtain ⟨s, hs⟩ := exists_word_iff.mpr hsource
    obtain ⟨t, ht⟩ := exists_word_iff.mpr htarget
    exact ⟨s, t, hs, ht, by rw [if_pos (hreach s hs)]; exact (stop_eq_some hline).mpr hp⟩

theorem walk?_behind (h : source.toNat + total d.inSource [r] < line.toNat) :
    walk? d line source target (r :: rs) = some p ↔ ∃ s t : UInt32,
      s.toNat = source.toNat + total d.inSource [r] ∧
      t.toNat = target.toNat + total d.inTarget [r] ∧ walk? d line s t rs = some p := by
  rw [walk?_cons]
  refine exists_congr fun s => exists_congr fun t => and_congr_right fun hs => ?_
  have hpast : ¬ line ≤ s := by
    rw [UInt32.le_iff_toNat_le]
    omega
  rw [if_neg hpast]

/-- A walk that has come to `source` lines of the one side and `target` of the other, for the line
at place `i` of the runs that are left. -/
theorem walk?_eq_some (hi : d.inSource (kindAt rs i) = true)
    (hline : line.toNat = source.toNat + before d.inSource rs i + 1) :
    walk? d line source target rs = some p ↔
      source.toNat + total d.inSource (through rs i) < 2 ^ 32 ∧
      target.toNat + total d.inTarget (through rs i) < 2 ^ 32 ∧
      ∃ n : UInt32, n.toNat = target.toNat + before d.inTarget rs i + 1 ∧
        p = .ofTarget (d.inTarget (kindAt rs i)) n := by
  -- The runs that the walk goes over are those that `through` keeps.
  induction rs generalizing i source target with
  | nil =>
    rw [before_nil d.inSource_unmodified] at hline
    rw [before_nil d.inTarget_unmodified, walk?, Option.map_eq_some_iff]
    have hsource : source.toNat + total d.inSource (through [] i) < 2 ^ 32 := source.toNat_lt
    have htarget : target.toNat + total d.inTarget (through [] i) < 2 ^ 32 := target.toNat_lt
    rw [and_iff_right hsource, and_iff_right htarget, kindAt_nil, d.inTarget_unmodified]
    exact exists_congr fun n => and_congr (add?_moved_iff hline) eq_comm
  | cons r rs ih =>
    rcases Nat.lt_or_ge i r.count.toNat with h | h
    · rw [kindAt_within rs h] at hi ⊢
      rw [before_within rs h.le, if_pos hi] at hline
      rw [before_within rs h.le, through_within rs h]
      exact walk?_within h hi hline
    · obtain ⟨k, rfl⟩ := Nat.exists_eq_add_of_le h
      rw [kindAt_behind] at hi ⊢
      rw [before_behind] at hline
      rw [before_behind, through_behind, total_cons d.inSource r (through rs k),
        total_cons d.inTarget r (through rs k), ← Nat.add_assoc, ← Nat.add_assoc, ← Nat.add_assoc,
        walk?_behind (by omega)]
      constructor
      · rintro ⟨s, t, hs, ht, hwalk⟩
        rw [← hs, ← ht]
        exact (ih hi (by omega)).mp hwalk
      · rintro ⟨hsource, htarget, hp⟩
        obtain ⟨s, hs⟩ := exists_word_iff.mpr (Nat.lt_of_le_of_lt (Nat.le_add_right _ _) hsource)
        obtain ⟨t, ht⟩ := exists_word_iff.mpr (Nat.lt_of_le_of_lt (Nat.le_add_right _ _) htarget)
        rw [← hs] at hsource
        rw [← ht] at htarget hp
        exact ⟨s, t, hs, ht, (ih hi (by omega)).mpr ⟨hsource, htarget, hp⟩⟩

theorem locate?_zero : locate? d rs 0 = some p ↔ p = .kept 0 := by
  rw [locate?, if_pos rfl, Option.some_inj, eq_comm]

theorem toNat_ne_zero (hne : line ≠ 0) : line.toNat ≠ 0 :=
  fun hz => hne (UInt32.toNat_inj.mp hz)

theorem locate?_eq_some (hne : line ≠ 0) : locate? d rs line = some p ↔
    Fits rs (place d.inSource rs line.toNat) ∧
      ∃ n : UInt32, n.toNat = exactNumber d rs line.toNat ∧
        p = .ofTarget (d.inTarget (kindAt rs (place d.inSource rs line.toNat))) n := by
  have hplace := kindAt_place d.inSource_unmodified rs line.toNat
  have hline := before_place d.inSource_unmodified rs (toNat_ne_zero hne)
  have hstart : line.toNat = (0 : UInt32).toNat + before d.inSource rs (place d.inSource rs
      line.toNat) + 1 := by
    rw [UInt32.toNat_zero, Nat.zero_add, hline]
  have hwalk := @walk?_eq_some d rs _ p line 0 0 hplace hstart
  simp only [UInt32.toNat_zero, Nat.zero_add] at hwalk
  rw [locate?, if_neg hne, hwalk, fits_iff d, and_assoc, exactNumber]

/-- The answer for a line is what the written out lines tell. -/
structure LineByLine (d : Direction) (rs : List Run) (line : UInt32) (p : Position) : Prop where
  kept : ∀ j : UInt32, p = .kept j ↔
    d.inTarget (kindAt rs (place d.inSource rs line.toNat)) = true ∧
      j.toNat = before d.inTarget rs (place d.inSource rs line.toNat) + 1
  dropped : ∀ n : UInt32, p = .dropped n ↔
    d.inTarget (kindAt rs (place d.inSource rs line.toNat)) = false ∧
      n.toNat = before d.inTarget rs (place d.inSource rs line.toNat) + 1
  /-- A line before the first run of added or deleted lines stays where it is. -/
  unmoved : ∀ pre post, rs = pre ++ post → (∀ r ∈ pre, r.kind.changed = false) →
    line.toNat ≤ total d.inSource pre → p = .kept line
  /-- A line behind the last run moves by the difference of the two sides. -/
  moved : total d.inSource rs < line.toNat → ∃ j : UInt32, p = .kept j ∧
    (j.toNat : Int) = line.toNat + (total d.inTarget rs - total d.inSource rs : Int)

/-- Whatever the runs, a walk that has an answer for a line gives that of the written out lines:
kept under its number when the target has it, or dropped with the number that comes next. -/
theorem located_line_by_line (hne : line ≠ 0) (h : locate? d rs line = some p) :
    LineByLine d rs line p := by
  obtain ⟨-, n, hn, rfl⟩ := (locate?_eq_some hne).mp h
  rw [exactNumber] at hn
  have hplace := kindAt_place d.inSource_unmodified rs line.toNat
  have hline := before_place d.inSource_unmodified rs (toNat_ne_zero hne)
  refine ⟨fun j => ?_, fun m => ?_, ?_, ?_⟩
  · rw [Position.ofTarget_eq_kept, ← hn, ← UInt32.toNat_inj, eq_comm (a := n.toNat)]
  · rw [Position.ofTarget_eq_dropped, ← hn, ← UInt32.toNat_inj, eq_comm (a := n.toNat)]
  · rintro pre post rfl hunchanged hle
    have hlt := (lt_total_iff rfl hplace).mp (by omega)
    have hkind : ∀ j < (kinds pre).length, (kindAt (pre ++ post) j).changed = false := by
      intro j hj
      obtain ⟨r, hr, hk⟩ := exists_run_at post hj
      exact hk ▸ hunchanged r hr
    obtain ⟨hsource, htarget⟩ := before_unchanged d fun j hj => hkind j (hj.trans hlt)
    rw [Position.ofTarget_eq_kept, ← UInt32.toNat_inj]
    exact ⟨(d.both_of_unchanged (hkind _ hlt)).2, by omega⟩
  · intro hpast
    generalize place d.inSource rs line.toNat = i at *
    obtain ⟨k, rfl⟩ : ∃ k, i = (kinds rs).length + k := by
      refine Nat.exists_eq_add_of_le (Nat.not_lt.mp fun hlt => ?_)
      have hwithin := (lt_total_iff (List.append_nil rs).symm hplace).mpr hlt
      omega
    have hsource := before_append d.inSource rs [] k
    have htarget := before_append d.inTarget rs [] k
    have hkind := kindAt_append_right rs [] k
    rw [List.append_nil] at hsource htarget hkind
    rw [before_nil d.inSource_unmodified] at hsource
    rw [before_nil d.inTarget_unmodified] at htarget
    refine ⟨n, ?_, by omega⟩
    rw [hkind, kindAt_nil, d.inTarget_unmodified]
    rfl

def replacedRuns : List Run :=
  [.ofGap 6, ⟨.deleted, 1, "a"⟩, ⟨.added, 1, "b"⟩, .ofGap 4, ⟨.added, 2, "c\nd"⟩, .ofGap 0,
    ⟨.unmodified, 1, "e"⟩]

theorem located_line_by_line_of_replaced :
    (locate? .oldToNew replacedRuns 7 = some (.dropped 7) ∧
      LineByLine .oldToNew replacedRuns 7 (.dropped 7)) ∧
    locate? .newToOld replacedRuns 14 = some (.kept 12) ∧
      LineByLine .newToOld replacedRuns 14 (.kept 12) :=
  ⟨⟨by decide, located_line_by_line (by decide) (by decide)⟩, by decide,
    located_line_by_line (by decide) (by decide)⟩

end SourceDelta
