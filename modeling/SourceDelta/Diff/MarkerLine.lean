import SourceDelta.Text.Blank
import SourceDelta.Text.Cut
import SourceDelta.Text.Digits
import SourceDelta.Text.Utf8

/-!
# The paths of a marker line

A file section of a diff starts with `diff --git a/OLD b/NEW`. A side that holds
special characters is written between double quotes with escapes; a side that
does not is written as it is, spaces included. When both sides name one file the
line is cut at its middle; otherwise it is cut at the last place where the new
side can start.
-/

set_option autoImplicit false

namespace SourceDelta.Diff
open SourceDelta.Text

def marker : List Char := "diff --git ".toList

def escape? : Char → Option UInt8
  | 'n' => some 0x0A
  | 't' => some 0x09
  | 'r' => some 0x0D
  | 'a' => some 0x07
  | 'b' => some 0x08
  | 'f' => some 0x0C
  | 'v' => some 0x0B
  | '"' => some 0x22
  | '\\' => some 0x5C
  | _ => none

def octalByte? (a b c : Char) : Option UInt8 :=
  if isOctal a && isOctal b && isOctal c then
    let v := valueIn 8 [a, b, c]
    if v < 256 then some (UInt8.ofNat v) else none
  else none

def quotedBytes? : List Char → Option (Bytes × List Char)
  | [] => none
  | c :: cs =>
    if c = '"' then some ([], cs)
    else if c = '\\' then
      match cs with
      | [] => none
      | e :: rest =>
        if isOctal e then
          match rest with
          | b :: d :: rest => do
            let byte ← octalByte? e b d
            let (bs, tail) ← quotedBytes? rest
            some (byte :: bs, tail)
          | _ => none
        else do
          let byte ← escape? e
          let (bs, tail) ← quotedBytes? rest
          some (byte :: bs, tail)
    else do
      let (bs, tail) ← quotedBytes? cs
      some (String.utf8EncodeChar c ++ bs, tail)

/-- Reads a quoted text and returns what follows it. The bytes it names must be UTF-8. -/
def quoted? : List Char → Option (List Char × List Char)
  | '"' :: cs => do
    let (bs, tail) ← quotedBytes? cs
    let s ← Utf8.decode? bs
    some (s.toList, tail)
  | _ => none

def quotedSides? (cs : List Char) : Option (List Char × List Char) := do
  let (a, rest) ←
    if startsWith ['"'] cs then do
      let (a, rest) ← quoted? cs
      let rest ← after? [' '] rest
      some (a, rest)
    else do
      let (a, rest) ← cutLast? " \"b/".toList cs
      some (a, rest.drop 1)
  if startsWith ['"'] rest then do
    let (b, tail) ← quoted? rest
    if tail = [] then some (a, b) else none
  else some (a, rest)

/-- The path of a line that names it twice, `a/P b/P`. -/
def samePath? (cs : List Char) : Option (List Char) :=
  if cs.length % 2 = 1 then
    let half := cs.length / 2
    match after? "a/".toList (cs.take half), after? " b/".toList (cs.drop half) with
    | some p, some q => if p = q then some p else none
    | _, _ => none
  else none

/-- The two sides, each still with `a/` or `b/` before its path. -/
def sides? (cs : List Char) : Option (List Char × List Char) :=
  if startsWith ['"'] cs || (before? ['"'] cs).isSome then quotedSides? cs
  else (cutLast? " b/".toList cs).map fun (a, rest) => (a, rest.drop 1)

def paths? (line : List Char) : Option (List Char × List Char) := do
  let cs := trimEnd line
  let quoted := startsWith ['"'] cs || (before? ['"'] cs).isSome
  match if quoted then none else samePath? cs with
  | some p => some (forward p, forward p)
  | none =>
    let (a, b) ← sides? cs
    let old ← after? "a/".toList a
    let new ← after? "b/".toList b
    some (forward old, forward new)

end SourceDelta.Diff
