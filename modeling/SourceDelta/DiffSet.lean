import SourceDelta.FileChange

/-!
# Sets of file changes

The changes of a diff in order of first appearance, one for each path.
-/

set_option autoImplicit false

namespace SourceDelta

structure DiffSet where
  entries : List FileChange
  distinct : (entries.map FileChange.path).Nodup
  deriving DecidableEq

namespace DiffSet

def empty : DiffSet := ⟨[], by simp⟩

def size (s : DiffSet) : Nat := s.entries.length

def paths (s : DiffSet) : List String := s.entries.map FileChange.path

def get? (s : DiffSet) (path : String) : Option FileChange :=
  s.entries.find? (·.path == path)

def contains (s : DiffSet) (path : String) : Bool := s.entries.any (·.path == path)

theorem contains_eq_false {s : DiffSet} {path : String} :
    s.contains path = false ↔ path ∉ s.paths := by
  simp [contains, paths]

def push (s : DiffSet) (c : FileChange) (fresh : s.contains c.path = false) : DiffSet :=
  ⟨s.entries ++ [c], by
    have h := contains_eq_false.mp fresh
    rw [List.map_append, List.nodup_append]
    refine ⟨s.distinct, by simp, ?_⟩
    intro a ha b hb
    rw [List.map_singleton, List.mem_singleton] at hb
    subst hb
    exact fun he => h (he ▸ ha)⟩

def mapEntries (s : DiffSet) (f : FileChange → FileChange)
    (keeps : ∀ c, (f c).path = c.path) : DiffSet :=
  ⟨s.entries.map f, by
    have h : (s.entries.map f).map FileChange.path = s.entries.map FileChange.path := by
      simp [List.map_map, Function.comp_def, keeps]
    rw [h]
    exact s.distinct⟩

def replace (s : DiffSet) (c : FileChange) : DiffSet :=
  s.mapEntries (fun old => if old.path = c.path then c else old) (by
    intro old
    split
    next h => exact h.symm
    next => rfl)

def insert (s : DiffSet) (c : FileChange) : DiffSet :=
  if h : s.contains c.path = false then s.push c h else s.replace c

/-- Later changes replace earlier ones of the same path and take their place. -/
def ofList (cs : List FileChange) : DiffSet := cs.foldl insert empty

/-- The set of a list without repeated paths; otherwise the first path that repeats. -/
def ofDistinct : List FileChange → Except String DiffSet := go empty
where
  go (s : DiffSet) : List FileChange → Except String DiffSet
    | [] => .ok s
    | c :: cs => if h : s.contains c.path = false then go (s.push c h) cs else .error c.path

/-- Adds a change read from a diff. It joins the last one when that deleted the file it adds; any
other second change of a path is refused. -/
def absorb? (s : DiffSet) (c : FileChange) : Option DiffSet :=
  match s.entries.getLast? with
  | some last =>
    if last.path = c.path ∧ last.kind = .deletion ∧ c.kind = .addition then
      some (s.replace (last.coalesce c))
    else if h : s.contains c.path = false then some (s.push c h) else none
  | none => if h : s.contains c.path = false then some (s.push c h) else none

end DiffSet

end SourceDelta
