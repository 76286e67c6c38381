import Mathlib.Data.List.Induction
import SourceDelta.Proofs.Coverage
import SourceDelta.Proofs.LineByLine

/-!
# Walking over the runs of an edit

On runs that cover an edit every line of either file is found: kept under its
number in the other file when it stays, dropped with the number of the line after
it when the other file lacks it. No sum on the way leaves the 32-bit words.
-/

set_option autoImplicit false

namespace SourceDelta

variable {d : Direction} {e : LineEdit} {runs : List Run} {edits before after : List LineEdit}
  {line n : UInt32}

def answer (d : Direction) (e : LineEdit) (n : UInt32) : Position :=
  if e.inTarget d then .kept n else .dropped n

theorem countP_of_forall {has : LineEdit → Bool} {b : Bool} (h : ∀ e ∈ edits, b = has e) :
    edits.countP has = if b then edits.length else 0 := by
  cases b with
  | true => exact List.countP_eq_length.mpr fun e he => (h e he).symm
  | false =>
    refine List.countP_eq_zero.mpr fun e he => ?_
    rw [← h e he]
    exact Bool.false_ne_true

theorem Covers.shows {i : Nat} (h : Covers runs edits) (hi : edits[i]? = some e) :
    (Run.kindAt runs i).Shows e := by
  induction h generalizing i with
  | rest h => exact (h e (List.mem_of_getElem? hi)).shows rfl
  | @run r rs shown edits hcount hkind h ih =>
    rcases Nat.lt_or_ge i shown.length with hlt | hge
    · rw [List.getElem?_append_left hlt] at hi
      rw [Run.kindAt_within rs (hcount ▸ hlt)]
      exact hkind e (List.mem_of_getElem? hi)
    · obtain ⟨k, rfl⟩ := Nat.exists_eq_add_of_le hge
      rw [List.getElem?_append_right hge, Nat.add_sub_cancel_left] at hi
      rw [← hcount, Run.kindAt_behind]
      exact ih hi

theorem Covers.before_eq {side : LineKind → Bool} {has : LineEdit → Bool}
    (hside : ∀ {k e}, k.Shows e → side k = has e) (h : Covers runs (before ++ after)) :
    Run.before side runs before.length = before.countP has := by
  induction before using List.reverseRecOn generalizing after with
  | nil => rfl
  | append_singleton before e ih =>
    rw [List.append_assoc] at h
    have hshow : (Run.kindAt runs before.length).Shows e := h.shows (by simp)
    rw [List.length_append, List.length_singleton, Run.before, Nat.count_succ, ← Run.before, ih h,
      List.countP_append, List.countP_singleton, hside hshow]

theorem Covers.total_le {side : LineKind → Bool} {has : LineEdit → Bool}
    (hside : ∀ {k e}, k.Shows e → side k = has e) (h : Covers runs edits) :
    Run.total side runs ≤ edits.countP has := by
  induction h with
  | rest => exact Nat.zero_le _
  | @run r rs shown edits hcount hkind h ih =>
    rw [Run.total_cons, Run.total_singleton, List.countP_append,
      countP_of_forall fun e he => hside (hkind e he), hcount]
    exact Nat.add_le_add_left ih _

/-- On runs that cover an edit a line is located where the edit has it. -/
theorem Covers.locate? (h : Covers runs edits) (hplace : edits = before ++ e :: after)
    (he : e.inSource d = true) (hsource : edits.countP (LineEdit.inSource d) < 2 ^ 32)
    (htarget : edits.countP (LineEdit.inTarget d) < 2 ^ 32)
    (hline : line.toNat = before.countP (LineEdit.inSource d) + 1)
    (hn : n.toNat = before.countP (LineEdit.inTarget d) + 1) :
    SourceDelta.locate? d runs line = some (answer d e n) := by
  have hne : line ≠ 0 := by
    rintro rfl
    exact absurd hline (Nat.succ_ne_zero _).symm
  have hfits := Run.fits_of_total d ((h.total_le LineKind.Shows.inSource).trans_lt hsource)
    ((h.total_le LineKind.Shows.inTarget).trans_lt htarget)
  subst hplace
  have hshow : (Run.kindAt runs before.length).Shows e := h.shows (by simp)
  rw [← h.before_eq LineKind.Shows.inSource] at hline
  rw [← h.before_eq LineKind.Shows.inTarget] at hn
  have hfrom : d.inSource (Run.kindAt runs before.length) = true := hshow.inSource.trans he
  rw [locate?_eq_some hne, hline, Run.exactNumber_before hfrom, Run.place_before hfrom,
    hshow.inTarget]
  exact ⟨hfits _, n, hn, rfl⟩

theorem Covers.located (h : Covers runs edits)
    (hsource : edits.countP (LineEdit.inSource d) < 2 ^ 32 - 1)
    (htarget : edits.countP (LineEdit.inTarget d) < 2 ^ 32 - 1) (hpos : 0 < line.toNat)
    (hline : line.toNat ≤ edits.countP (LineEdit.inSource d)) :
    ∃ before e after n, edits = before ++ e :: after ∧ e.inSource d = true ∧
      line.toNat = before.countP (LineEdit.inSource d) + 1 ∧
      n.toNat = before.countP (LineEdit.inTarget d) + 1 ∧
      SourceDelta.locate? d runs line = some (answer d e n) := by
  have hlt : line.toNat - 1 < edits.countP (LineEdit.inSource d) := by omega
  obtain ⟨before, e, after, hplace, he, hcount⟩ := exists_place hlt
  have hfrom : line.toNat = before.countP (LineEdit.inSource d) + 1 := by omega
  have hle : before.countP (LineEdit.inTarget d) ≤ edits.countP (LineEdit.inTarget d) := by
    rw [hplace, List.countP_append]
    exact Nat.le_add_right _ _
  have hword : before.countP (LineEdit.inTarget d) + 1 < 2 ^ 32 := by omega
  have hto := UInt32.toNat_ofNat_of_lt' hword
  exact ⟨before, e, after, _, hplace, he, hfrom, hto,
    h.locate? hplace he (by omega) (by omega) hfrom hto⟩

def Drops (d : Direction) (edits : List LineEdit) (i : Nat) : Prop :=
  ∃ before e after, edits = before ++ e :: after ∧ e.inSource d = true ∧ e.inTarget d = false ∧
    i = before.countP (LineEdit.inSource d) + 1

def Pairs (d : Direction) (edits : List LineEdit) (i j : Nat) : Prop :=
  ∃ before e after, edits = before ++ e :: after ∧ e.inSource d = true ∧ e.inTarget d = true ∧
    i = before.countP (LineEdit.inSource d) + 1 ∧ j = before.countP (LineEdit.inTarget d) + 1

theorem drops_oldToNew {i : Nat} : Drops .oldToNew edits i ↔ Deletes edits i := by
  constructor
  · rintro ⟨before, e, after, hplace, hold, hnew, rfl⟩
    cases e with
    | keep t => cases hnew
    | delete t => exact ⟨before, t, after, hplace, by rw [length_oldFile]; rfl⟩
    | add t => cases hold
  · rintro ⟨before, t, after, hplace, rfl⟩
    exact ⟨before, .delete t, after, hplace, rfl, rfl, by rw [length_oldFile]; rfl⟩

theorem drops_newToOld {j : Nat} : Drops .newToOld edits j ↔ Adds edits j := by
  constructor
  · rintro ⟨before, e, after, hplace, hnew, hold, rfl⟩
    cases e with
    | keep t => cases hold
    | delete t => cases hnew
    | add t => exact ⟨before, t, after, hplace, by rw [length_newFile]; rfl⟩
  · rintro ⟨before, t, after, hplace, rfl⟩
    exact ⟨before, .add t, after, hplace, rfl, rfl, by rw [length_newFile]; rfl⟩

theorem Pairs.exists_keep {i j : Nat} (h : Pairs d edits i j) :
    ∃ before t after, edits = before ++ .keep t :: after ∧
      i = before.countP (LineEdit.inSource d) + 1 ∧
      j = before.countP (LineEdit.inTarget d) + 1 := by
  obtain ⟨before, e, after, hplace, hsource, htarget, hi, hj⟩ := h
  cases e with
  | keep t => exact ⟨before, t, after, hplace, hi, hj⟩
  | delete t => cases d <;> contradiction
  | add t => cases d <;> contradiction

theorem keeps_of_oldToNew {i j : Nat} (h : Pairs .oldToNew edits i j) : Keeps edits i j := by
  obtain ⟨before, t, after, hplace, hi, hj⟩ := h.exists_keep
  exact ⟨before, t, after, hplace, hi.trans (by rw [length_oldFile]; rfl),
    hj.trans (by rw [length_newFile]; rfl)⟩

theorem keeps_of_newToOld {i j : Nat} (h : Pairs .newToOld edits j i) : Keeps edits i j := by
  obtain ⟨before, t, after, hplace, hj, hi⟩ := h.exists_keep
  exact ⟨before, t, after, hplace, hi.trans (by rw [length_oldFile]; rfl),
    hj.trans (by rw [length_newFile]; rfl)⟩

theorem Pairs.not_drops {i j : Nat} (h : Pairs d edits i j) : ¬ Drops d edits i := by
  rintro ⟨before', e', after', hplace', hsource', htarget', hi'⟩
  obtain ⟨before, e, after, hplace, hsource, htarget, hi, -⟩ := h
  obtain ⟨-, rfl⟩ := place_unique (hplace.symm.trans hplace') hsource hsource' (by omega)
  exact Bool.false_ne_true (htarget'.symm.trans htarget)

/-- A line of the source is dropped or found again, as the edit has it. -/
theorem Covers.found (h : Covers runs edits)
    (hsource : edits.countP (LineEdit.inSource d) < 2 ^ 32 - 1)
    (htarget : edits.countP (LineEdit.inTarget d) < 2 ^ 32 - 1) (hpos : 0 < line.toNat)
    (hline : line.toNat ≤ edits.countP (LineEdit.inSource d)) :
    (Drops d edits line.toNat ∧ ∃ n, SourceDelta.locate? d runs line = some (.dropped n)) ∨
      ∃ n, Pairs d edits line.toNat n.toNat ∧
        SourceDelta.locate? d runs line = some (.kept n) := by
  obtain ⟨before, e, after, n, hplace, he, hfrom, hto, hlocate⟩ :=
    h.located hsource htarget hpos hline
  cases htarget : e.inTarget d with
  | true =>
    refine .inr ⟨n, ⟨before, e, after, hplace, he, htarget, hfrom, hto⟩, ?_⟩
    rw [hlocate, answer, if_pos htarget]
  | false =>
    refine .inl ⟨⟨before, e, after, hplace, he, htarget, hfrom⟩, n, ?_⟩
    rw [hlocate, answer, htarget, if_neg Bool.false_ne_true]

theorem Covers.dropped_iff (h : Covers runs edits)
    (hsource : edits.countP (LineEdit.inSource d) < 2 ^ 32 - 1)
    (htarget : edits.countP (LineEdit.inTarget d) < 2 ^ 32 - 1) (hpos : 0 < line.toNat)
    (hline : line.toNat ≤ edits.countP (LineEdit.inSource d)) :
    (∃ n, SourceDelta.locate? d runs line = some (.dropped n)) ↔ Drops d edits line.toNat := by
  rcases h.found hsource htarget hpos hline with ⟨hdrops, hdropped⟩ | ⟨j, hpairs, hlocate⟩
  · exact iff_of_true hdropped hdrops
  · refine iff_of_false ?_ hpairs.not_drops
    rintro ⟨n, hn⟩
    cases hlocate.symm.trans hn

/-- The runs translate the line numbers of an edit exactly. -/
structure Exact (edits : List LineEdit) (runs : List Run) : Prop where
  dropped_old : ∀ i : UInt32, 0 < i.toNat → i.toNat ≤ (oldFile edits).length →
    ((∃ n, locate? .oldToNew runs i = some (.dropped n)) ↔ Deletes edits i.toNat)
  kept_old : ∀ i : UInt32, 0 < i.toNat → i.toNat ≤ (oldFile edits).length →
    ¬ Deletes edits i.toNat → ∃ j, locate? .oldToNew runs i = some (.kept j) ∧
      0 < j.toNat ∧ j.toNat ≤ (newFile edits).length ∧ Keeps edits i.toNat j.toNat ∧
      (newFile edits)[j.toNat - 1]? = (oldFile edits)[i.toNat - 1]?
  dropped_new : ∀ j : UInt32, 0 < j.toNat → j.toNat ≤ (newFile edits).length →
    ((∃ n, locate? .newToOld runs j = some (.dropped n)) ↔ Adds edits j.toNat)
  kept_new : ∀ j : UInt32, 0 < j.toNat → j.toNat ≤ (newFile edits).length →
    ¬ Adds edits j.toNat → ∃ i, locate? .newToOld runs j = some (.kept i) ∧
      0 < i.toNat ∧ i.toNat ≤ (oldFile edits).length ∧ Keeps edits i.toNat j.toNat ∧
      (newFile edits)[j.toNat - 1]? = (oldFile edits)[i.toNat - 1]?

theorem Covers.exact (h : Covers runs edits) (hold : (oldFile edits).length < 2 ^ 32 - 1)
    (hnew : (newFile edits).length < 2 ^ 32 - 1) : Exact edits runs := by
  rw [length_oldFile] at hold
  rw [length_newFile] at hnew
  refine ⟨fun i hpos hi => ?_, fun i hpos hi hkept => ?_, fun j hpos hj => ?_,
    fun j hpos hj hkept => ?_⟩
  · rw [length_oldFile] at hi
    exact (h.dropped_iff (d := .oldToNew) hold hnew hpos hi).trans drops_oldToNew
  · rw [length_oldFile] at hi
    rcases h.found (d := .oldToNew) hold hnew hpos hi with ⟨hdrops, -⟩ | ⟨j, hpairs, hlocate⟩
    · exact absurd (drops_oldToNew.mp hdrops) hkept
    · have hkeeps := keeps_of_oldToNew hpairs
      exact ⟨j, hlocate, hkeeps.new_pos, hkeeps.new_le, hkeeps, hkeeps.same_text⟩
  · rw [length_newFile] at hj
    exact (h.dropped_iff (d := .newToOld) hnew hold hpos hj).trans drops_newToOld
  · rw [length_newFile] at hj
    rcases h.found (d := .newToOld) hnew hold hpos hj with ⟨hdrops, -⟩ | ⟨i, hpairs, hlocate⟩
    · exact absurd (drops_newToOld.mp hdrops) hkept
    · have hkeeps := keeps_of_newToOld hpairs
      exact ⟨i, hlocate, hkeeps.old_pos, hkeeps.old_le, hkeeps, hkeeps.same_text⟩

end SourceDelta
