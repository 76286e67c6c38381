import Mathlib.Algebra.Group.Nat.Defs
import Mathlib.Data.List.Basic
import SourceDelta.Position

/-!
# Edits

An edit goes through two files at once and says of every line whether it stays
or which of the two files lacks it. A line of either file stands at one place of
the edit, and the lines before that place give its number and the number that it
has in the other file.
-/

set_option autoImplicit false

namespace SourceDelta

/-- What an edit does with a line. -/
inductive LineEdit
  | keep (text : List Char)
  | delete (text : List Char)
  | add (text : List Char)

namespace LineEdit

def text : LineEdit → List Char
  | keep t => t
  | delete t => t
  | add t => t

def inOld : LineEdit → Bool
  | add _ => false
  | _ => true

def inNew : LineEdit → Bool
  | delete _ => false
  | _ => true

def inSource : Direction → LineEdit → Bool
  | .oldToNew => inOld
  | .newToOld => inNew

def inTarget : Direction → LineEdit → Bool
  | .oldToNew => inNew
  | .newToOld => inOld

theorem inOld_or_inNew (e : LineEdit) : e.inOld = true ∨ e.inNew = true := by
  cases e <;> simp [inOld, inNew]

end LineEdit

/-- The lines that a file has of an edit, given what it has. -/
def fileOf (has : LineEdit → Bool) (edits : List LineEdit) : List (List Char) :=
  (edits.filter has).map LineEdit.text

def oldFile (edits : List LineEdit) : List (List Char) := fileOf LineEdit.inOld edits

def newFile (edits : List LineEdit) : List (List Char) := fileOf LineEdit.inNew edits

def Deletes (edits : List LineEdit) (i : Nat) : Prop :=
  ∃ before text after, edits = before ++ .delete text :: after ∧ i = (oldFile before).length + 1

def Adds (edits : List LineEdit) (j : Nat) : Prop :=
  ∃ before text after, edits = before ++ .add text :: after ∧ j = (newFile before).length + 1

/-- The old line `i` stays, as the new line `j`. -/
def Keeps (edits : List LineEdit) (i j : Nat) : Prop :=
  ∃ before text after, edits = before ++ .keep text :: after ∧
    i = (oldFile before).length + 1 ∧ j = (newFile before).length + 1

variable {edits before after before' after' : List LineEdit} {e e' : LineEdit} {i j : Nat}
  {has : LineEdit → Bool}

theorem length_fileOf : (fileOf has edits).length = edits.countP has := by
  rw [fileOf, List.length_map, List.countP_eq_length_filter]

theorem length_oldFile : (oldFile edits).length = edits.countP LineEdit.inOld := length_fileOf

theorem length_newFile : (newFile edits).length = edits.countP LineEdit.inNew := length_fileOf

theorem getElem?_fileOf (he : has e = true) :
    (fileOf has (before ++ e :: after))[before.countP has]? = some e.text := by
  have hlen : (fileOf has before).length = before.countP has := length_fileOf
  rw [← hlen, fileOf, List.filter_append, List.map_append, List.filter_cons_of_pos he,
    List.map_cons, ← fileOf, List.getElem?_append_right (Nat.le_refl _), Nat.sub_self,
    List.getElem?_cons_zero]

theorem exists_place (h : i < edits.countP has) :
    ∃ before e after, edits = before ++ e :: after ∧ has e = true ∧ before.countP has = i := by
  induction edits generalizing i with
  | nil => exact absurd h (Nat.not_lt_zero i)
  | cons e edits ih =>
    rw [List.countP_cons] at h
    by_cases he : has e = true
    · cases i with
      | zero => exact ⟨[], e, edits, rfl, he, rfl⟩
      | succ i =>
        rw [if_pos he] at h
        obtain ⟨before, e', after, rfl, he', hi⟩ := ih (Nat.lt_of_succ_lt_succ h)
        exact ⟨e :: before, e', after, rfl, he', by rw [List.countP_cons_of_pos he, hi]⟩
    · rw [if_neg he] at h
      obtain ⟨before, e', after, rfl, he', hi⟩ := ih h
      exact ⟨e :: before, e', after, rfl, he', by rw [List.countP_cons_of_neg he, hi]⟩

/-- Two places with as many lines of a file before them, which both hold a line of it, are one. -/
theorem place_unique (h : before ++ e :: after = before' ++ e' :: after') (he : has e = true)
    (he' : has e' = true) (hp : before.countP has = before'.countP has) :
    before = before' ∧ e = e' := by
  induction before generalizing before' with
  | nil =>
    cases before' with
    | nil => exact ⟨rfl, (List.cons.inj h).1⟩
    | cons b bs =>
      rw [← (List.cons.inj h).1, List.countP_cons_of_pos he] at hp
      exact absurd hp (Nat.succ_ne_zero _).symm
  | cons b bs ih =>
    cases before' with
    | nil =>
      rw [(List.cons.inj h).1, List.countP_cons_of_pos he'] at hp
      exact absurd hp (Nat.succ_ne_zero _)
    | cons c cs =>
      obtain ⟨rfl, htail⟩ := List.cons.inj h
      rw [List.countP_cons, List.countP_cons, Nat.add_right_cancel_iff] at hp
      obtain ⟨rfl, rfl⟩ := ih htail hp
      exact ⟨rfl, rfl⟩

theorem Keeps.old_pos (h : Keeps edits i j) : 0 < i := by
  obtain ⟨before, t, after, -, rfl, -⟩ := h
  exact Nat.succ_pos _

theorem Keeps.new_pos (h : Keeps edits i j) : 0 < j := by
  obtain ⟨before, t, after, -, -, rfl⟩ := h
  exact Nat.succ_pos _

theorem Keeps.old_le (h : Keeps edits i j) : i ≤ (oldFile edits).length := by
  obtain ⟨before, t, after, rfl, rfl, -⟩ := h
  rw [length_oldFile, length_oldFile, List.countP_append, List.countP_cons_of_pos rfl]
  omega

theorem Keeps.new_le (h : Keeps edits i j) : j ≤ (newFile edits).length := by
  obtain ⟨before, t, after, rfl, -, rfl⟩ := h
  rw [length_newFile, length_newFile, List.countP_append, List.countP_cons_of_pos rfl]
  omega

theorem Keeps.same_text (h : Keeps edits i j) :
    (newFile edits)[j - 1]? = (oldFile edits)[i - 1]? := by
  obtain ⟨before, t, after, rfl, rfl, rfl⟩ := h
  have hold : (oldFile (before ++ .keep t :: after))[before.countP LineEdit.inOld]? = some t :=
    getElem?_fileOf rfl
  have hnew : (newFile (before ++ .keep t :: after))[before.countP LineEdit.inNew]? = some t :=
    getElem?_fileOf rfl
  rw [length_oldFile, length_newFile, Nat.add_sub_cancel, Nat.add_sub_cancel, hold, hnew]

end SourceDelta
