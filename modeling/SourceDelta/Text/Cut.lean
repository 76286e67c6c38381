/-!
# Cutting a text at a mark

What follows a mark at the start of a text, what precedes one at its end, and
the cut at the last place where a mark stands.
-/

set_option autoImplicit false

namespace SourceDelta.Text

def after? : List Char → List Char → Option (List Char)
  | [], cs => some cs
  | _ :: _, [] => none
  | m :: ms, c :: cs => if m = c then after? ms cs else none

def startsWith (mark cs : List Char) : Bool := (after? mark cs).isSome

def before? (mark cs : List Char) : Option (List Char) :=
  (after? mark.reverse cs.reverse).map List.reverse

/-- Cuts before the last place where the mark stands. -/
def cutLast? (mark : List Char) : List Char → Option (List Char × List Char)
  | [] => if mark = [] then some ([], []) else none
  | c :: cs =>
    match cutLast? mark cs with
    | some (a, b) => some (c :: a, b)
    | none => if startsWith mark (c :: cs) then some ([], c :: cs) else none

def lastPart (sep : Char) (cs : List Char) : List Char :=
  (cs.reverse.takeWhile (· ≠ sep)).reverse

def forward (cs : List Char) : List Char := cs.map fun c => if c = '\\' then '/' else c

theorem after?_eq_some {mark cs rest : List Char} :
    after? mark cs = some rest ↔ cs = mark ++ rest := by
  fun_induction after? mark cs with
  | case1 cs => simp [eq_comm]
  | case2 m ms => simp
  | case3 m ms cs ih => simp [ih]
  | case4 m ms c cs h => simp [Ne.symm h]

theorem startsWith_iff {mark cs : List Char} :
    startsWith mark cs = true ↔ ∃ rest, cs = mark ++ rest := by
  simp [startsWith, Option.isSome_iff_exists, after?_eq_some]

theorem before?_eq_some {mark cs front : List Char} :
    before? mark cs = some front ↔ cs = front ++ mark := by
  rw [before?, Option.map_eq_some_iff]
  constructor
  · rintro ⟨r, hr, rfl⟩
    have hrev := congrArg List.reverse (after?_eq_some.mp hr)
    simpa using hrev
  · rintro rfl
    exact ⟨front.reverse, after?_eq_some.mpr (by simp), by simp⟩

end SourceDelta.Text
