import SourceDelta.Proofs.CheckedHunks
import SourceDelta.Proofs.CheckedNames

/-!
# Documents without traps

A document is read line by line, with every cut at a byte, every byte asked for and
every sum and difference of words checked on the way. Whatever the text, no check
fails: reading it so comes to reading it without the checks, and ends in a set of
changes or in a fault of the text.
-/

set_option autoImplicit false

namespace SourceDelta.Diff
open SourceDelta.Text SourceDelta.Checked

namespace Checked

def headerLine (t : List Char) : Checked Malformed HeaderLine :=
  if startsWith "new file mode".toList t then do .ok (.newFile (← optional (trailingMode t)))
  else if startsWith "deleted file mode".toList t then do
    .ok (.deletedFile (← optional (trailingMode t)))
  else if startsWith "old mode".toList t then do .ok (.oldMode (← optional (trailingMode t)))
  else if startsWith "new mode".toList t then do .ok (.newMode (← optional (trailingMode t)))
  else if startsWith "index ".toList t then do .ok (.index (← optional (trailingMode t)))
  else if startsWith "GIT binary patch".toList t || startsWith "Binary files ".toList t then
    .ok .binary
  else .ok .other

/-- Reads up to the first hunk, and returns the lines that are left. Nothing is left behind the
binary mark. -/
def readLead (oldPath : String) :
    FileChange → List Line → Checked Malformed (FileChange × List Line)
  | c, [] => .ok (c, [])
  | c, l :: ls =>
    if startsWith "@@".toList l.text then .ok (c, l :: ls)
    else do
      match ← headerLine l.text with
      | .newFile mode => readLead oldPath { c with kind := .addition, permissions := mode } ls
      | .deletedFile mode =>
        readLead oldPath { c with kind := .deletion, path := oldPath, permissions := mode } ls
      | .oldMode mode => readLead oldPath { c with oldPermissions := mode } ls
      | .newMode mode => readLead oldPath { c with permissions := mode } ls
      | .index mode => readLead oldPath { c with permissions := c.permissions.or mode } ls
      | .binary => .ok ({ c with binary := true }, [])
      | .other => readLead oldPath c ls

structure Opened where
  line : Nat
  old : String
  new : String
  body : List Line

namespace Opened

def ofMarker (line : Nat) (names : List Char) : Checked Malformed Opened := do
  let (old, new) ← orFault ⟨line, .paths (String.ofList names)⟩ (paths names)
  .ok ⟨line, String.ofList old, String.ofList new, []⟩

def read (contextLine : Bool) (s : Opened) : Checked Malformed FileChange := do
  let (c, ls) ← readLead s.old (.plain s.new .modification) s.body
  if c.binary then .ok c
  else do
    let (runs, unended) ← Walker.walk contextLine s.line .start ls
    .ok { c with runs, noTrailingNewline := unended }

end Opened

/-- Entries, and where the entry of a path stands. -/
structure Table where
  entries : List FileChange
  places : List (String × Nat)

namespace Table

/-- Puts the entry in the place of the one with its path, or adds it. -/
def upsert (t : Table) (c : FileChange) : Checked Malformed Table :=
  match t.places.lookup c.path with
  | some i =>
    if i < t.entries.length then .ok { t with entries := t.entries.set i c } else trap .index
  | none => .ok ⟨t.entries ++ [c], (c.path, t.entries.length) :: t.places⟩

def add (line : Nat) (c : FileChange) (t : Table) : Checked Malformed Table :=
  if (t.places.lookup c.path).isSome then .error (.fault ⟨line, .duplicate c.path⟩)
  else t.upsert c

def merge (line : Nat) (c : FileChange) (t : Table) : Checked Malformed Table :=
  match t.entries.getLast? with
  | some last =>
    if last.path = c.path ∧ last.kind = .deletion ∧ c.kind = .addition then
      .ok { t with entries := t.entries.dropLast ++ [last.coalesce c] }
    else t.add line c
  | none => t.add line c

end Table

structure Progress where
  table : Table
  opened : Option Opened

namespace Progress

def close (contextLine : Bool) (r : Progress) : Checked Malformed Table :=
  match r.opened with
  | some s => do
    let c ← s.read contextLine
    r.table.merge s.line c
  | none => .ok r.table

def feed (contextLine : Bool) (r : Progress) (l : Line) : Checked Malformed Progress :=
  match after? marker l.text with
  | some names => do
    let table ← r.close contextLine
    let s ← Opened.ofMarker l.number names
    .ok ⟨table, some s⟩
  | none => .ok { r with opened := r.opened.map fun s => { s with body := s.body ++ [l] } }

end Progress

/-- Reads a document with every cut, index and sum checked. -/
def parse (contextLine : Bool) (text : String) : Checked Malformed Table :=
  (number 1 (lines text.toList)).foldlM (Progress.feed contextLine) ⟨⟨[], []⟩, none⟩ >>=
    Progress.close contextLine

variable {contextLine : Bool} {c : FileChange} {l : Line} {ls : List Line} {oldPath : String}

theorem headerLine_eq (t : List Char) : headerLine t = .ok (HeaderLine.ofText t) := by
  rw [headerLine, HeaderLine.ofText, trailingMode_eq, optional_ofOption]
  simp only [ok_bind]
  split_ifs <;> rfl

theorem readLead_eq (oldPath : String) (c : FileChange) (ls : List Line) :
    ∃ rest, readLead oldPath c ls = .ok (readHeader oldPath c (blocks ls).1, rest) ∧
      ((readHeader oldPath c (blocks ls).1).binary = true ∨
        blocks rest = ([], (blocks ls).2)) := by
  induction ls generalizing c with
  | nil => exact ⟨[], rfl, .inr rfl⟩
  | cons l ls ih =>
    rw [readLead]
    by_cases hl : startsWith "@@".toList l.text = true
    · rw [if_pos hl, Walker.blocks_header hl]
      exact ⟨l :: ls, rfl, .inr (Walker.blocks_header hl ls)⟩
    · rw [if_neg hl, Walker.blocks_line hl, headerLine_eq, ok_bind, readHeader]
      cases HeaderLine.ofText l.text with
      | binary => exact ⟨[], rfl, .inl rfl⟩
      | newFile mode => exact ih _
      | deletedFile mode => exact ih _
      | oldMode mode => exact ih _
      | newMode mode => exact ih _
      | index mode => exact ih _
      | other => exact ih _

theorem walk_blocks {sectionLine : Nat} {bs : List Block} (h : blocks ls = ([], bs)) :
    Walker.walk contextLine sectionLine .start ls =
      ofFaults ((Hunk.ofBlocks sectionLine bs).map fun hs =>
        (Hunk.allRuns contextLine 0 hs, hs.any (·.unended))) := by
  rw [Walker.walk_eq contextLine sectionLine ls Walker.tidy_start, Walker.ahead, h]
  cases Hunk.ofBlocks sectionLine bs <;> rfl

structure Opened.For (o : Opened) (s : Section) : Prop where
  line : o.line = s.line
  body : o.body = s.body
  paths : s.paths = .ok (o.old, o.new)

theorem Opened.For.read {o : Opened} {s : Section} (h : o.For s) (contextLine : Bool) :
    o.read contextLine = ofFaults (s.read contextLine) := by
  obtain ⟨rest, hlead, hrest⟩ := readLead_eq o.old (.plain o.new .modification) s.body
  rw [Opened.read, Section.read, h.paths, h.body, h.line, hlead, ok_bind]
  change (if _ then _ else _) = ofFaults (if _ then _ else _)
  split
  next => rfl
  next hbinary =>
    rw [walk_blocks (hrest.resolve_left hbinary)]
    cases Hunk.ofBlocks s.line (blocks s.body).2 <;> rfl

theorem ofMarker_eq (line : Nat) (names : List Char) :
    (∃ o : Opened, Opened.ofMarker line names = .ok o ∧ o.For ⟨line, names, []⟩) ∨
      ∃ m, Opened.ofMarker line names = .error (.fault m) ∧
        Section.paths ⟨line, names, []⟩ = .error m := by
  rw [Opened.ofMarker, paths_eq]
  cases hnames : paths? names with
  | none => exact .inr ⟨_, rfl, by rw [Section.paths, hnames]⟩
  | some p => exact .inl ⟨_, rfl, rfl, rfl, by rw [Section.paths, hnames]⟩

structure Table.For (t : Table) (set : DiffSet) : Prop where
  entries : t.entries = set.entries
  places : ∀ p, (t.places.lookup p).isSome = set.contains p

theorem Table.For.empty : Table.For ⟨[], []⟩ .empty := ⟨rfl, fun _ => rfl⟩

inductive Table.Same : Checked Malformed Table → Except Malformed DiffSet → Prop
  | ok {t : Table} {set : DiffSet} (h : Table.For t set) : Same (.ok t) (.ok set)
  | fault (m : Malformed) : Same (.error (.fault m)) (.error m)

/-- Only a path without a place is added, so no entry is ever put in the place of another. -/
theorem Table.For.add {t : Table} {set : DiffSet} (h : t.For set) (line : Nat) (c : FileChange) :
    Table.Same (t.add line c) (if hnew : set.contains c.path = false then .ok (set.push c hnew)
      else .error ⟨line, .duplicate c.path⟩) := by
  rw [Table.add, h.places]
  split
  next hold =>
    rw [dif_neg (Bool.eq_false_iff.not.mpr (not_not.mpr hold))]
    exact .fault _
  next hnew =>
    rw [Bool.not_eq_true] at hnew
    have hlookup : t.places.lookup c.path = none := by
      rw [← Option.isNone_iff_eq_none, ← Option.isSome_eq_false_iff, h.places, hnew]
    rw [dif_pos hnew, Table.upsert, hlookup]
    refine .ok ⟨congrArg (· ++ [c]) h.entries, fun p => ?_⟩
    have hpush : (set.push c hnew).contains p = (set.contains p || c.path == p) := by
      rw [DiffSet.contains, DiffSet.push, List.any_append, DiffSet.contains, List.any_cons,
        List.any_nil, Bool.or_false]
    rw [hpush, List.lookup_cons, Bool.beq_comm, ← h.places]
    cases c.path == p with
    | true => exact (Bool.or_true _).symm
    | false => exact (Bool.or_false _).symm

theorem Table.For.merge {t : Table} {set : DiffSet} (h : t.For set) (line : Nat) (c : FileChange) :
    Table.Same (t.merge line c) (match set.absorb? c with
      | some set' => .ok set'
      | none => .error ⟨line, .duplicate c.path⟩) := by
  have hadd := h.add line c
  have hsplit : (if hnew : set.contains c.path = false then .ok (set.push c hnew)
        else .error ⟨line, .duplicate c.path⟩ : Except Malformed DiffSet) =
      match (if hnew : set.contains c.path = false then some (set.push c hnew) else none) with
      | some set' => .ok set'
      | none => .error ⟨line, .duplicate c.path⟩ := by
    split <;> rfl
  rw [Table.merge, DiffSet.absorb?, h.entries]
  cases hlast : set.entries.getLast? with
  | none => exact hsplit ▸ hadd
  | some last =>
    dsimp only
    split
    next hpair =>
      obtain ⟨es, hes⟩ := List.getLast?_eq_some_iff.mp hlast
      have hreplace := DiffSet.entries_replace (c := last.coalesce c) hes rfl
      refine .ok ⟨by rw [hreplace, hes, List.dropLast_concat], fun p => ?_⟩
      rw [h.places, DiffSet.contains, DiffSet.contains, hreplace, hes, List.any_append,
        List.any_append]
      rfl
    next => exact hsplit ▸ hadd

inductive Progress.For : Progress → Scan → Prop
  | closed {t : Table} {set : DiffSet} (ht : t.For set) : For ⟨t, none⟩ ⟨set, none⟩
  | opened {t : Table} {set : DiffSet} (ht : t.For set) {o : Opened} {s : Section} (h : o.For s) :
      For ⟨t, some o⟩ ⟨set, some s⟩

theorem Progress.For.close {p : Progress} {r : Scan} (h : p.For r) (contextLine : Bool) :
    Table.Same (p.close contextLine) (r.close contextLine) := by
  cases h with
  | closed ht => exact .ok ht
  | @opened t set ht o s h =>
    rw [Progress.close, Scan.close]
    dsimp only
    rw [absorb, h.read, h.line]
    cases s.read contextLine with
    | error m => exact .fault m
    | ok c => exact ht.merge s.line c

/-- A line leads to the same, with checks and without. -/
theorem Progress.For.feed {p : Progress} {r : Scan} (h : p.For r) (contextLine : Bool) (l : Line) :
    (∃ p' r', p.feed contextLine l = .ok p' ∧ r.feed contextLine l = .ok r' ∧ p'.For r') ∨
      ∃ m, p.feed contextLine l = .error (.fault m) ∧ r.feed contextLine l = .error m := by
  rw [Progress.feed, Scan.feed]
  cases after? marker l.text with
  | none =>
    refine .inl ⟨_, _, rfl, rfl, ?_⟩
    cases h with
    | closed ht => exact .closed ht
    | opened ht h => exact .opened ht ⟨h.line, congrArg (· ++ [l]) h.body, h.paths⟩
  | some names =>
    dsimp only
    have hclose := h.close contextLine
    generalize p.close contextLine = x at hclose ⊢
    generalize r.close contextLine = y at hclose ⊢
    cases hclose with
    | fault m => exact .inr ⟨m, rfl, rfl⟩
    | @ok t set ht =>
      rcases ofMarker_eq l.number names with ⟨o, ho, hfor⟩ | ⟨m, ho, hpaths⟩
      · rw [ok_bind, ho]
        refine .inl ⟨_, ⟨set, some ⟨l.number, names, []⟩⟩, rfl, ?_, .opened ht hfor⟩
        change Section.paths _ >>= _ = _
        rw [hfor.paths]
        rfl
      · rw [ok_bind, ho]
        refine .inr ⟨m, rfl, ?_⟩
        change Section.paths _ >>= _ = _
        rw [hpaths]
        rfl

theorem Progress.For.run {p : Progress} {r : Scan} (h : p.For r) (contextLine : Bool)
    (ls : List Line) : Table.Same
      (ls.foldlM (Progress.feed contextLine) p >>= Progress.close contextLine)
      (r.run contextLine ls) := by
  induction ls generalizing p r with
  | nil => exact h.close contextLine
  | cons l ls ih =>
    rw [Scan.run, List.foldlM_cons, List.foldlM_cons]
    rcases h.feed contextLine l with ⟨p', r', hp, hr, hfor⟩ | ⟨m, hp, hr⟩
    · rw [hp, hr]
      exact ih hfor
    · rw [hp, hr]
      exact .fault m

/-- Whatever the text, no cut, index, sum or difference is out of range: a document read with all of
them checked has the entries or the fault that it has without the checks. -/
theorem no_trap (contextLine : Bool) (text : String) :
    (parse contextLine text).map Table.entries =
        ofFaults ((Diff.parse contextLine text).map DiffSet.entries) ∧
      ∀ t, parse contextLine text ≠ .error (.trap t) := by
  have hread : Table.Same (parse contextLine text) (Diff.parse contextLine text) := by
    rw [← Scan.run_eq_parse]
    exact (Progress.For.closed .empty).run contextLine _
  generalize parse contextLine text = x at hread ⊢
  generalize Diff.parse contextLine text = y at hread ⊢
  cases hread with
  | ok h => exact ⟨congrArg Except.ok h.entries, nofun⟩
  | fault m => exact ⟨rfl, nofun⟩

end Checked

end SourceDelta.Diff
