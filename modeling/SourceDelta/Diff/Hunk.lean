import SourceDelta.Diff.Fault
import SourceDelta.Diff.HunkHeader
import SourceDelta.LineRun

/-!
# Hunks

A hunk is a header and the lines after it, up to the counts that the header
declares. The runs of a file are those of its hunks in order, each after a gap
of the old lines that lie between it and the hunks before it.
-/

set_option autoImplicit false

namespace SourceDelta.Diff
open SourceDelta.Text

structure Hunk where
  header : HunkHeader
  body : List (LineKind × List Char)
  unended : Bool
  deriving DecidableEq

/-- The line a header stands on and the lines up to the next header. -/
structure Block where
  line : Line
  rest : List Line

/-- The kind and text of a line inside a hunk. An empty line is an unmodified one whose mark some
editor has dropped. -/
def bodyLine? : List Char → Option (LineKind × List Char)
  | [] => some (.unmodified, [])
  | c :: cs =>
    if c = '+' then some (.added, cs)
    else if c = '-' then some (.deleted, cs)
    else if c = ' ' then some (.unmodified, cs)
    else none

def blocks : List Line → List Line × List Block
  | [] => ([], [])
  | l :: ls =>
    let (lead, bs) := blocks ls
    if startsWith "@@".toList l.text then ([], ⟨l, lead⟩ :: bs) else (l :: lead, bs)

/-- Reads lines while `old` and `new` lines are missing, and skips what follows them. Lines that
start with a backslash count nowhere; the flag tells whether there is one. -/
def readBody (truncated : Nat → Nat → Malformed) :
    Nat → Nat → List Line → Except Malformed (List (LineKind × List Char) × Bool)
  | old, new, [] => if old = 0 ∧ new = 0 then .ok ([], false) else .error (truncated old new)
  | old, new, l :: ls =>
    if startsWith ['\\'] l.text then do
      let (body, _) ← readBody truncated old new ls
      .ok (body, true)
    else if old = 0 ∧ new = 0 then readBody truncated 0 0 ls
    else
      match bodyLine? l.text with
      | none => .error ⟨l.number, .stray (String.ofList l.text)⟩
      | some (k, t) =>
        if (k.inOld && old == 0) || (k.inNew && new == 0) then .error ⟨l.number, .overlong⟩
        else do
          let (body, unended) ← readBody truncated
            (if k.inOld then old - 1 else old) (if k.inNew then new - 1 else new) ls
          .ok ((k, t) :: body, unended)

namespace Hunk

def ofBlock (inSection : Option Nat) (b : Block) : Except Malformed Hunk :=
  match HunkHeader.ofLine? b.line.text with
  | none => .error ⟨b.line.number, .header (String.ofList b.line.text)⟩
  | some h => do
    let (body, unended) ← readBody
      (fun old new => ⟨b.line.number, .truncated old new inSection⟩)
      h.oldCount.toNat h.newCount.toNat b.rest
    .ok ⟨h, body, unended⟩

/-- Reads the hunks of the section that starts at a line. Only its last hunk can end with it. -/
def ofBlocks (sectionLine : Nat) : List Block → Except Malformed (List Hunk)
  | [] => .ok []
  | [b] => do .ok [← ofBlock (some sectionLine) b]
  | b :: bs => do
    let h ← ofBlock none b
    let hs ← ofBlocks sectionLine bs
    .ok (h :: hs)

/-- The old lines between the hunk and the last old line that the hunks before it cover. -/
def gap (covered : Nat) (h : Hunk) : Nat := h.header.bodyStart - 1 - covered

/-- With `contextLine` the text after the header stands for the last line of the gap. -/
def quotesContext (contextLine : Bool) (covered : Nat) (h : Hunk) : Bool :=
  contextLine && h.header.context ≠ [] && 0 < h.gap covered

def gapRuns (n : Nat) : List Run := if n = 0 then [] else [Run.ofGap n]

def runs (contextLine : Bool) (covered : Nat) (h : Hunk) : List Run :=
  if h.quotesContext contextLine covered then
    gapRuns (h.gap covered - 1) ++ Run.group ((.unmodified, h.header.context) :: h.body)
  else gapRuns (h.gap covered) ++ Run.group h.body

/-- The runs of the hunks, `covered` being the last old line of the hunks before them. -/
def allRuns (contextLine : Bool) : Nat → List Hunk → List Run
  | _, [] => []
  | covered, h :: hs =>
    h.runs contextLine covered ++ allRuns contextLine (max covered h.header.oldEnd) hs

end Hunk

end SourceDelta.Diff
