import SourceDelta.Text.Cut
import SourceDelta.Text.Digits

/-!
# Hunk headers

`@@ -START,COUNT +START,COUNT @@ CONTEXT`, where a count of one may be left out.
A header is read only when the old lines of its hunk have numbers that fit a
word, so that no later computation on it can overflow.
-/

set_option autoImplicit false

namespace SourceDelta.Diff
open SourceDelta.Text

/-- The number of the first old line of a hunk. A range without lines names the line before it. -/
def bodyStartOf (start count : UInt32) : Nat :=
  if count = 0 then start.toNat + 1 else start.toNat

structure HunkHeader where
  oldStart : UInt32
  oldCount : UInt32
  newStart : UInt32
  newCount : UInt32
  /-- What follows the closing mark, without the space between them. -/
  context : List Char
  fits : bodyStartOf oldStart oldCount + oldCount.toNat < UInt32.size
  deriving DecidableEq

namespace HunkHeader

def bodyStart (h : HunkHeader) : Nat := bodyStartOf h.oldStart h.oldCount

/-- The number of the last old line of the hunk, or of the line before a hunk without old lines. -/
def oldEnd (h : HunkHeader) : Nat := h.bodyStart + h.oldCount.toNat - 1

def range? (cs : List Char) : Option (UInt32 × UInt32 × List Char) := do
  let start ← word? (cs.takeWhile isDigit)
  match cs.dropWhile isDigit with
  | ',' :: rest =>
    let count ← word? (rest.takeWhile isDigit)
    some (start, count, rest.dropWhile isDigit)
  | rest => some (start, 1, rest)

def ofLine? (line : List Char) : Option HunkHeader := do
  let cs ← after? "@@ -".toList line
  let (oldStart, oldCount, cs) ← range? cs
  let cs ← after? " +".toList cs
  let (newStart, newCount, cs) ← range? cs
  let cs ← after? " @@".toList cs
  let context := (after? [' '] cs).getD cs
  if fits : bodyStartOf oldStart oldCount + oldCount.toNat < UInt32.size then
    some ⟨oldStart, oldCount, newStart, newCount, context, fits⟩
  else none

end HunkHeader

end SourceDelta.Diff
