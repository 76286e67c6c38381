/-!
# Lines of a text

A text is cut into pieces at a separator, and into lines at line feeds. A line
that a feed ends loses one carriage return before it; the rest after the last
feed is a line only when something stands there, and keeps its return.
-/

set_option autoImplicit false

namespace SourceDelta.Text

def pieces (sep : Char) : List Char → List (List Char)
  | [] => [[]]
  | c :: cs =>
    if c = sep then [] :: pieces sep cs
    else match pieces sep cs with
      | [] => [[c]]
      | p :: ps => (c :: p) :: ps

def join (sep : Char) : List (List Char) → List Char
  | [] => []
  | [p] => p
  | p :: ps => p ++ sep :: join sep ps

def dropReturn (line : List Char) : List Char :=
  match line.reverse with
  | '\r' :: rest => rest.reverse
  | _ => line

def ofPieces : List (List Char) → List (List Char)
  | [] => []
  | [[]] => []
  | [p] => [p]
  | p :: ps => dropReturn p :: ofPieces ps

def lines (cs : List Char) : List (List Char) := ofPieces (pieces '\n' cs)

theorem pieces_ne_nil (sep : Char) (cs : List Char) : pieces sep cs ≠ [] := by
  cases cs with
  | nil => simp [pieces]
  | cons c cs =>
    simp only [pieces]
    split
    · simp
    · split <;> simp

theorem join_pieces (sep : Char) (cs : List Char) : join sep (pieces sep cs) = cs := by
  induction cs with
  | nil => rfl
  | cons c cs ih =>
    simp only [pieces]
    split
    next h =>
      cases hp : pieces sep cs with
      | nil => exact absurd hp (pieces_ne_nil sep cs)
      | cons p ps => rw [hp] at ih; simp [join, h, ih]
    next h =>
      cases hp : pieces sep cs with
      | nil => exact absurd hp (pieces_ne_nil sep cs)
      | cons p ps =>
        rw [hp] at ih
        cases ps with
        | nil => simpa [join] using ih
        | cons q qs => simpa [join] using ih

/-- A line of a document under its number, counted from one. -/
structure Line where
  number : Nat
  text : List Char
  deriving DecidableEq

def number : Nat → List (List Char) → List Line
  | _, [] => []
  | n, t :: ts => ⟨n, t⟩ :: number (n + 1) ts

end SourceDelta.Text
