import Mathlib.Data.List.Forall2
import SourceDelta.Proofs.Edits

/-!
# Runs that cover an edit

Runs cover an edit when they stand, one after the other, for its lines up to a
rest of lines that stay. Gap lines and unmodified lines both stand for lines that
stay, so one edit is covered by many lists of runs.
-/

set_option autoImplicit false

namespace SourceDelta

def LineKind.Shows (k : LineKind) (e : LineEdit) : Prop := k.inOld = e.inOld ∧ k.inNew = e.inNew

def LineEdit.Stays (e : LineEdit) : Prop := e.inOld = true ∧ e.inNew = true

inductive Covers : List Run → List LineEdit → Prop
  | rest {edits : List LineEdit} (h : ∀ e ∈ edits, e.Stays) : Covers [] edits
  | run {r : Run} {rs : List Run} {shown edits : List LineEdit}
      (hcount : r.count.toNat = shown.length) (hkind : ∀ e ∈ shown, r.kind.Shows e)
      (h : Covers rs edits) : Covers (r :: rs) (shown ++ edits)

variable {d : Direction} {k : LineKind} {e : LineEdit} {rs : List Run}
  {body : List (LineKind × List Char)} {edits shown : List LineEdit}

theorem LineKind.Shows.inSource (h : k.Shows e) : d.inSource k = e.inSource d := by
  cases d
  · exact h.1
  · exact h.2

theorem LineKind.Shows.inTarget (h : k.Shows e) : d.inTarget k = e.inTarget d := by
  cases d
  · exact h.2
  · exact h.1

theorem LineEdit.Stays.shows (h : e.Stays) (hk : k.changed = false) : k.Shows e := by
  cases k with
  | added => cases hk
  | deleted => cases hk
  | unmodified => exact ⟨h.1.symm, h.2.symm⟩
  | gap => exact ⟨h.1.symm, h.2.symm⟩

theorem exists_of_forall₂ {α β : Type} {R : α → β → Prop} {as : List α} {bs : List β} {a : α}
    (h : List.Forall₂ R as bs) (ha : a ∈ as) : ∃ b ∈ bs, R a b := by
  induction h with
  | nil => cases ha
  | cons hab _ ih =>
    rcases List.mem_cons.mp ha with rfl | ha
    · exact ⟨_, List.mem_cons_self, hab⟩
    · obtain ⟨b, hb, hR⟩ := ih ha
      exact ⟨b, List.mem_cons_of_mem _ hb, hR⟩

theorem forall₂_append_right {α β : Type} {R : α → β → Prop} {as : List α} {bs bs' : List β}
    (h : List.Forall₂ R as (bs ++ bs')) :
    ∃ us vs, as = us ++ vs ∧ List.Forall₂ R us bs ∧ List.Forall₂ R vs bs' :=
  ⟨_, _, (List.take_append_drop bs.length as).symm, List.forall₂_take_append as bs bs' h,
    List.forall₂_drop_append as bs bs' h⟩

theorem forall₂_append_left {α β : Type} {R : α → β → Prop} {as as' : List α} {bs : List β}
    (h : List.Forall₂ R (as ++ as') bs) :
    ∃ us vs, bs = us ++ vs ∧ List.Forall₂ R as us ∧ List.Forall₂ R as' vs := by
  obtain ⟨us, vs, hbs, hus, hvs⟩ := forall₂_append_right h.flip
  exact ⟨us, vs, hbs, hus.flip, hvs.flip⟩

/-- A line of a hunk that stands for a line of an edit. -/
def ShowsLine (e : LineEdit) (b : LineKind × List Char) : Prop := b.1.Shows e

theorem clusters_flatMap (ls : List (LineKind × List Char)) :
    (Run.clusters ls).flatMap (fun c => c.2.map fun t => (c.1, t)) = ls := by
  induction ls with
  | nil => rfl
  | cons l ls ih =>
    rw [Run.clusters]
    split
    next h =>
      rw [h] at ih
      rw [← ih]
      rfl
    next h =>
      rw [h] at ih
      rw [← ih]
      split
      next hk =>
        subst hk
        rfl
      next => rfl

theorem length_lt_of_shows {m : Nat} (hkind : ∀ e ∈ shown, k.Shows e)
    (hold : shown.countP LineEdit.inOld < m) (hnew : shown.countP LineEdit.inNew < m) :
    shown.length < m := by
  have hside : k.inOld = true ∨ k.inNew = true := by
    cases k <;> simp [LineKind.inOld, LineKind.inNew]
  rcases hside with hk | hk
  · rwa [List.countP_eq_length.mpr fun e he => (hkind e he).1.symm.trans hk] at hold
  · rwa [List.countP_eq_length.mpr fun e he => (hkind e he).2.symm.trans hk] at hnew

/-- Maximal runs of lines that show lines of an edit cover these. -/
theorem Covers.clusters {cs : List (LineKind × List (List Char))} (h : Covers rs edits)
    (hshow : List.Forall₂ ShowsLine shown (cs.flatMap fun c => c.2.map fun t => (c.1, t)))
    (hold : shown.countP LineEdit.inOld < 2 ^ 32) (hnew : shown.countP LineEdit.inNew < 2 ^ 32) :
    Covers ((cs.map fun c => Run.ofLines c.1 c.2) ++ rs) (shown ++ edits) := by
  induction cs generalizing shown with
  | nil =>
    cases hshow
    exact h
  | cons c cs ih =>
    rw [List.flatMap_cons] at hshow
    obtain ⟨first, more, rfl, hfirst, hmore⟩ := forall₂_append_right hshow
    rw [List.countP_append] at hold hnew
    have hkind : ∀ e ∈ first, c.1.Shows e := by
      intro e he
      rw [List.forall₂_map_right_iff] at hfirst
      obtain ⟨t, -, ht⟩ := exists_of_forall₂ hfirst he
      exact ht
    have hlength : first.length = c.2.length := by rw [hfirst.length_eq, List.length_map]
    have hword : c.2.length < 2 ^ 32 :=
      hlength ▸ length_lt_of_shows hkind (Nat.lt_of_le_of_lt (Nat.le_add_right _ _) hold)
        (Nat.lt_of_le_of_lt (Nat.le_add_right _ _) hnew)
    have hcount : (Run.ofLines c.1 c.2).count.toNat = first.length := by
      rw [Run.ofLines, UInt32.toNat_ofNat_of_lt' hword, hlength]
    rw [List.map_cons, List.cons_append, List.append_assoc]
    exact .run hcount hkind (ih hmore (by omega) (by omega))

theorem Covers.group (h : Covers rs edits) (hshow : List.Forall₂ ShowsLine shown body)
    (hold : shown.countP LineEdit.inOld < 2 ^ 32) (hnew : shown.countP LineEdit.inNew < 2 ^ 32) :
    Covers (Run.group body ++ rs) (shown ++ edits) :=
  h.clusters ((clusters_flatMap body).symm ▸ hshow) hold hnew

end SourceDelta
