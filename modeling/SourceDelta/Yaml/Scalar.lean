import SourceDelta.Yaml.Cell

/-!
# Scalars

The text of a scalar is written plain, in quotes, or as a block of lines. Plain
and quoted scalars fold: white space with a break in it is a space, or the
breaks after the first. Blocks keep their breaks, or fold those between lines
that start at the indentation.
-/

set_option autoImplicit false

namespace SourceDelta.Yaml

inductive Style
  | plain | quoted | literal | folded
  deriving DecidableEq

def fold (space : List Char) : List Char :=
  match space.filter isBreak with
  | [] => space
  | [b] => if b = '\n' then [' '] else [b]
  | b :: more => if b = '\n' then more else b :: more

/-- Reads a plain scalar up to its end, with the white space before the next character, last
first. Tells whether a break stands behind it. -/
def plainTail (flow : Bool) (indent : Nat) :
    List Char → List Cell → Option (List Char × Bool × List Cell)
  | space, [] => some ([], space.any isBreak, [])
  | space, c :: cs =>
    if isGap c.char || isBreak c.char then
      if c.char = '\t' && space.any isBreak && c.column < indent then none
      else plainTail flow indent (c.char :: space) cs
    else if !space.isEmpty &&
        (isDocumentMark (c :: cs) || c.char = '#' || (!flow && c.column < indent)) then
      some ([], space.any isBreak, c :: cs)
    else if flow && c.char = ':' && startsWithAny [',', '?', '[', ']', '\x7b', '\x7d'] cs then none
    else if (c.char = ':' && endsHere cs) ||
        (flow && [',', '[', ']', '\x7b', '\x7d'].contains c.char) then
      some ([], space.any isBreak, c :: cs)
    else
      match plainTail flow indent [] cs with
      | none => none
      | some (text, broken, rest) => some (fold space.reverse ++ c.char :: text, broken, rest)

def plain? (flow : Bool) (indent : Nat) (cs : List Cell) :
    Option (List Char × Bool × List Cell) :=
  plainTail flow indent [] cs

def singleTail : List Char → List Cell → Option (List Char × List Cell)
  | _, [] => none
  | space, c :: cs =>
    if isDocumentMark (c :: cs) then none
    else if isGap c.char || isBreak c.char then singleTail (c.char :: space) cs
    else
      let before := fold space.reverse
      if c.char = '\'' then
        match cs with
        | d :: ds =>
          if d.char = '\'' then
            match singleTail [] ds with
            | none => none
            | some (text, rest) => some (before ++ '\'' :: text, rest)
          else some (before, d :: ds)
        | [] => some (before, [])
      else
        match singleTail [] cs with
        | none => none
        | some (text, rest) => some (before ++ c.char :: text, rest)

def hexValue? (c : Char) : Option Nat :=
  if '0' ≤ c && c ≤ '9' then some (c.toNat - '0'.toNat)
  else if 'a' ≤ c && c ≤ 'f' then some (c.toNat - 'a'.toNat + 10)
  else if 'A' ≤ c && c ≤ 'F' then some (c.toNat - 'A'.toNat + 10)
  else none

def unescape? : Char → Option Char
  | '0' => some '\x00'
  | 'a' => some '\x07'
  | 'b' => some '\x08'
  | 't' | '\t' => some '\t'
  | 'n' => some '\n'
  | 'v' => some '\x0b'
  | 'f' => some '\x0c'
  | 'r' => some '\r'
  | 'e' => some '\x1b'
  | ' ' => some ' '
  | '"' => some '"'
  | '/' => some '/'
  | '\\' => some '\\'
  | 'N' => some '\u0085'
  | '_' => some '\u00a0'
  | 'L' => some '\u2028'
  | 'P' => some '\u2029'
  | _ => none

def codeLength? : Char → Option Nat
  | 'x' => some 2
  | 'u' => some 4
  | 'U' => some 8
  | _ => none

def charOfCode? (n : Nat) : Option Char :=
  if n ≤ 0x10FFFF && !(0xD800 ≤ n && n ≤ 0xDFFF) then some (Char.ofNat n) else none

def code? : Nat → Nat → List Cell → Option (Nat × List Cell)
  | 0, v, cs => some (v, cs)
  | _ + 1, _, [] => none
  | n + 1, v, c :: cs => do code? n (v * 16 + (← hexValue? c.char)) cs

def escape? : List Cell → Option (Char × List Cell)
  | [] => none
  | c :: cs =>
    match codeLength? c.char with
    | none => (unescape? c.char).map (·, cs)
    | some n => do
      let (v, rest) ← code? n 0 cs
      some (← charOfCode? v, rest)

/-- Reads a scalar in double quotes after the first one; `joined` after an escaped break, which
hides the gap behind it. A text has fewer steps than cells. -/
def doubleTail : Nat → Bool → List Char → List Cell → Option (List Char × List Cell)
  | 0, _, _, _ => none
  | _, _, _, [] => none
  | n + 1, joined, space, c :: cs =>
    if isDocumentMark (c :: cs) then none
    else if isGap c.char || isBreak c.char then doubleTail n joined (c.char :: space) cs
    else
      let before := if joined then space.reverse.filter isBreak else fold space.reverse
      if c.char = '"' then some (before, cs)
      else if c.char = '\\' && startsWithAny ['\n', '\u2028', '\u2029'] cs then
        (doubleTail n true [] (cs.drop 1)).map fun (text, rest) => (before ++ text, rest)
      else if c.char = '\\' then do
        let (d, cs) ← escape? cs
        let (text, rest) ← doubleTail n false [] cs
        some (before ++ d :: text, rest)
      else
        (doubleTail n false [] cs).map fun (text, rest) => (before ++ c.char :: text, rest)

def quoted? (double : Bool) (cs : List Cell) : Option (List Char × List Cell) :=
  if double then doubleTail (cs.length + 1) false [] cs else singleTail [] cs

inductive Chomping
  | strip | clip | keep
  deriving DecidableEq

def chomping? (c : Char) : Option Chomping :=
  if c = '+' then some .keep else if c = '-' then some .strip else none

def isIndent (c : Char) : Bool := '1' ≤ c && c ≤ '9'

def blockMarks : List Cell → Chomping × Nat × List Cell
  | [] => (.clip, 0, [])
  | c :: cs =>
    match chomping? c.char, cs with
    | some k, d :: ds =>
      if isIndent d.char then (k, d.char.toNat - 48, ds) else (k, 0, d :: ds)
    | some k, [] => (k, 0, [])
    | none, cs =>
      if isIndent c.char then
        match cs with
        | [] => (.clip, c.char.toNat - 48, [])
        | d :: ds =>
          match chomping? d.char with
          | some k => (k, c.char.toNat - 48, ds)
          | none => (.clip, c.char.toNat - 48, d :: ds)
      else (.clip, 0, c :: cs)

def blankLine? (comment : Bool) : List Cell → Option (List Cell)
  | [] => some []
  | c :: cs =>
    if isBreak c.char then some cs
    else if comment || isGap c.char then blankLine? comment cs
    else if c.char = '#' then blankLine? true cs
    else none

/-- Skips indentation and empty lines; `indent` is zero while it is open. The breaks, the farthest
column, and the rest. -/
def emptyLines? (indent : Nat) : List Cell → Option (List Char × Nat × List Cell)
  | [] => some ([], 0, [])
  | c :: cs =>
    let inside := indent = 0 || c.column < indent
    if c.char = ' ' && inside then emptyLines? indent cs
    else if c.char = '\t' && inside then none
    else if isBreak c.char then do
      let (breaks, far, rest) ← emptyLines? indent cs
      some (c.char :: breaks, max c.column far, rest)
    else some ([], c.column, c :: cs)

/-- The lines of a block: what is read of it, the break of its last line and those after it.
`lead` and `empty` are the breaks before the next line, and `loose` tells that the last line
starts with a gap. A block has fewer lines than cells. -/
def blockLines (folded : Bool) (indent : Nat) :
    Nat → Bool → List Char → List Char → List Cell →
      Option (List Char × List Char × List Char × List Cell)
  | 0, _, _, _, _ => none
  | _, _, lead, empty, [] => some ([], lead, empty, [])
  | n + 1, loose, lead, empty, c :: cs =>
    if c.column ≠ indent then some ([], lead, empty, c :: cs)
    else
      let gap := isGap c.char
      let before :=
        if folded && lead.head? = some '\n' && !loose && !gap then
          (if empty.isEmpty then [' '] else empty)
        else lead ++ empty
      let line := (c :: cs).takeWhile fun d => !isBreak d.char
      let rest := (c :: cs).dropWhile fun d => !isBreak d.char
      do
        let (breaks, _, after) ← emptyLines? indent (rest.drop 1)
        let (text, lead, empty, after) ←
          blockLines folded indent n gap ((rest.take 1).map Cell.char) breaks after
        some (before ++ line.map Cell.char ++ text, lead, empty, after)

def block? (folded : Bool) (parent : Option Nat) (cs : List Cell) :
    Option (List Char × List Cell) := do
  let (chomping, offset, cs) := blockMarks cs
  let cs ← blankLine? false cs
  let known := if offset = 0 then 0 else parent.getD 0 + offset
  let (breaks, far, rest) ← emptyLines? known cs
  let least := match parent with
    | some p => p + 1
    | none => 1
  let indent := if known = 0 then max far least else known
  let (text, lead, empty, rest) ← blockLines folded indent (rest.length + 1) false [] breaks rest
  some (text ++ (if chomping = .strip then [] else lead) ++
    (if chomping = .keep then empty else []), rest)

end SourceDelta.Yaml
