import SourceDelta.Proofs.HunkGrammar

/-!
# Sections behind other lines

Where a section stands in a document shows in nothing but the line numbers of its
faults: behind `n` more lines it is read as before, and what is wrong with it is
found `n` lines further on.
-/

set_option autoImplicit false

namespace SourceDelta

namespace Text

def Line.behind (n : Nat) (l : Line) : Line := ⟨l.number + n, l.text⟩

@[simp] theorem Line.number_behind (n : Nat) (l : Line) : (l.behind n).number = l.number + n := rfl

@[simp] theorem Line.text_behind (n : Nat) (l : Line) : (l.behind n).text = l.text := rfl

theorem number_append (n : Nat) (xs ys : List (List Char)) :
    number n (xs ++ ys) = number n xs ++ number (n + xs.length) ys := by
  induction xs generalizing n with
  | nil => rfl
  | cons x xs ih =>
    rw [List.cons_append, number, ih, number, List.cons_append, List.length_cons]
    congr 3
    omega

theorem number_behind (n k : Nat) (xs : List (List Char)) :
    number (n + k) xs = (number n xs).map (Line.behind k) := by
  induction xs generalizing n with
  | nil => rfl
  | cons x xs ih =>
    rw [number, number, List.map_cons, ← ih]
    congr 2
    omega

end Text

namespace Diff
open SourceDelta.Text

/-- A fault names the line of its section when that ends too early. -/
def Fault.behind (n : Nat) : Fault → Fault
  | .truncated old new (some line) => .truncated old new (some (line + n))
  | f => f

def Malformed.behind (n : Nat) (m : Malformed) : Malformed := ⟨m.line + n, m.fault.behind n⟩

def Block.behind (n : Nat) (b : Block) : Block := ⟨b.line.behind n, b.rest.map (Line.behind n)⟩

def Section.behind (n : Nat) (s : Section) : Section :=
  ⟨s.line + n, s.names, s.body.map (Line.behind n)⟩

variable {n : Nat} {l : Line} {ls : List Line} {b : Block} {bs : List Block} {s : Section}
  {contextLine : Bool}

theorem mapError_bind {ε α β : Type} (g : ε → ε) (x : Except ε α) (f : α → Except ε β) :
    (x >>= f).mapError g = x.mapError g >>= fun a => (f a).mapError g := by
  cases x <;> rfl

theorem mapError_ok {ε α : Type} {g : ε → ε} {x : Except ε α} {a : α} :
    x.mapError g = .ok a ↔ x = .ok a := by
  cases x <;> simp [Except.mapError]

theorem mapError_error {ε α : Type} {g : ε → ε} {x : Except ε α} {e : ε} :
    x.mapError g = .error e ↔ ∃ e', x = .error e' ∧ e = g e' := by
  cases x <;> simp [Except.mapError, eq_comm]

theorem blocks_behind (n : Nat) (ls : List Line) :
    blocks (ls.map (Line.behind n)) =
      ((blocks ls).1.map (Line.behind n), (blocks ls).2.map (Block.behind n)) := by
  induction ls with
  | nil => rfl
  | cons l ls ih =>
    rw [List.map_cons, blocks, ih, blocks]
    cases hfirst : startsWith "@@".toList l.text <;>
      simp only [Line.text_behind, hfirst, if_true, Bool.false_eq_true, if_false] <;> rfl

theorem readHeader_behind (oldPath : String) (c : FileChange) (n : Nat) (ls : List Line) :
    readHeader oldPath c (ls.map (Line.behind n)) = readHeader oldPath c ls := by
  induction ls generalizing c with
  | nil => rfl
  | cons l ls ih =>
    rw [List.map_cons, readHeader, readHeader]
    simp only [Line.text_behind]
    split <;> first | rfl | exact ih _

theorem readBody_behind {t t' : Nat → Nat → Malformed} (ht : ∀ old new, t' old new =
    (t old new).behind n) (old new : Nat) (ls : List Line) :
    readBody t' old new (ls.map (Line.behind n)) =
      (readBody t old new ls).mapError (Malformed.behind n) := by
  induction ls generalizing old new with
  | nil =>
    rw [List.map_nil, readBody, readBody, ht]
    split <;> rfl
  | cons l ls ih =>
    rw [List.map_cons, readBody, readBody]
    by_cases hnote : startsWith ['\\'] l.text = true
    · rw [if_pos (by exact hnote), if_pos hnote, ih, mapError_bind]
      rfl
    rw [if_neg (by exact hnote), if_neg hnote]
    by_cases hdone : old = 0 ∧ new = 0
    · rw [if_pos hdone, if_pos hdone]
      exact ih 0 0
    rw [if_neg hdone, if_neg hdone, Line.text_behind]
    cases bodyLine? l.text with
    | none => rfl
    | some line =>
      obtain ⟨k, text⟩ := line
      dsimp only
      by_cases hlong : ((k.inOld && old == 0) || (k.inNew && new == 0)) = true
      · rw [if_pos hlong, if_pos hlong]
        rfl
      · rw [if_neg hlong, if_neg hlong, ih, mapError_bind]
        rfl

theorem ofBlock_behind (n : Nat) (inSection : Option Nat) (b : Block) :
    Hunk.ofBlock (inSection.map (· + n)) (b.behind n) =
      (Hunk.ofBlock inSection b).mapError (Malformed.behind n) := by
  rw [Hunk.ofBlock, Hunk.ofBlock]
  dsimp only [Block.behind, Line.behind]
  split
  · rfl
  · rw [readBody_behind (n := n), mapError_bind]
    · rfl
    · intro old new
      cases inSection <;> rfl

theorem ofBlocks_behind (line n : Nat) (bs : List Block) :
    Hunk.ofBlocks (line + n) (bs.map (Block.behind n)) =
      (Hunk.ofBlocks line bs).mapError (Malformed.behind n) := by
  induction bs with
  | nil => rfl
  | cons b bs ih =>
    cases bs with
    | nil =>
      rw [List.map_cons, List.map_nil, Hunk.ofBlocks, Hunk.ofBlocks, mapError_bind,
        ← ofBlock_behind]
      rfl
    | cons b' bs =>
      have hcons : ∀ {line : Nat} {b b' : Block} {bs : List Block},
          Hunk.ofBlocks line (b :: b' :: bs) = (do
            let h ← Hunk.ofBlock none b
            let hs ← Hunk.ofBlocks line (b' :: bs)
            .ok (h :: hs)) := fun {_ _ _ _} => rfl
      rw [List.map_cons] at ih
      rw [List.map_cons, List.map_cons, hcons, hcons, ih, mapError_bind, ← ofBlock_behind]
      simp only [mapError_bind]
      rfl

/-- A section behind more lines is read as before, and its faults are found so many lines on. -/
theorem read_behind (contextLine : Bool) (n : Nat) (s : Section) :
    (s.behind n).read contextLine = (s.read contextLine).mapError (Malformed.behind n) := by
  have hpaths : (s.behind n).paths = s.paths.mapError (Malformed.behind n) := by
    rw [Section.paths, Section.paths]
    dsimp only [Section.behind]
    cases paths? s.names <;> rfl
  rw [Section.read, Section.read, hpaths, mapError_bind]
  congr 1
  funext p
  obtain ⟨old, new⟩ := p
  dsimp only [Section.behind]
  rw [blocks_behind, readHeader_behind]
  dsimp only
  split
  · rfl
  · rw [ofBlocks_behind, mapError_bind]
    rfl

theorem sections_behind (n : Nat) (ls : List Line) :
    sections (ls.map (Line.behind n)) =
      ((sections ls).1.map (Line.behind n), (sections ls).2.map (Section.behind n)) := by
  induction ls with
  | nil => rfl
  | cons l ls ih =>
    rw [List.map_cons, sections, ih, sections]
    simp only [Line.text_behind]
    split <;> rfl

end Diff

end SourceDelta
