/-!
# Characters in their places

YAML gives meaning to where a character stands. A text is read as a list of
cells, each a character with its line, its column and the bytes before it on
that line, in which every line break is one cell.
-/

set_option autoImplicit false

namespace SourceDelta.Yaml

structure Cell where
  char : Char
  line : Nat
  column : Nat
  /-- The bytes of the line before the character. -/
  offset : Nat
  deriving DecidableEq

def isBreak (c : Char) : Bool := c = '\n' || c = '\u2028' || c = '\u2029'

def isGap (c : Char) : Bool := c = ' ' || c = '\t'

def isForbidden (c : Char) : Bool :=
  let n := c.toNat
  (n < 0x20 && n != 0x09 && n != 0x0A && n != 0x0D) || n == 0x7F ||
    (0x80 ≤ n && n < 0xA0 && n != 0x85) || n == 0xFFFE || n == 0xFFFF

/-- The cells of a text that starts at a line, column and offset. A carriage return before a line
feed belongs to it; alone it is a line feed, as is U+0085. -/
def cellsFrom (line column offset : Nat) : List Char → List Cell
  | [] => []
  | '\r' :: '\n' :: cs => ⟨'\n', line, column, offset⟩ :: cellsFrom (line + 1) 0 0 cs
  | c :: cs =>
    if c = '\r' || c = '\u0085' then ⟨'\n', line, column, offset⟩ :: cellsFrom (line + 1) 0 0 cs
    else if isBreak c then ⟨c, line, column, offset⟩ :: cellsFrom (line + 1) 0 0 cs
    else ⟨c, line, column, offset⟩ :: cellsFrom line (column + 1) (offset + c.utf8Size) cs

def cells? (text : List Char) : Option (List Cell) :=
  if text.any isForbidden then none else some (cellsFrom 0 0 0 text)

/-- A byte order mark at the start of a line, which takes a column there. -/
def Cell.isByteOrderMark (c : Cell) : Bool := c.column = 0 && c.char = '\uFEFF'

def endsHere : List Cell → Bool
  | [] => true
  | c :: _ => isGap c.char || isBreak c.char

def startsWithAny (chars : List Char) : List Cell → Bool
  | [] => false
  | c :: _ => chars.contains c.char

def isMarkOf (mark : Char) : List Cell → Bool
  | a :: b :: c :: rest =>
    a.column = 0 && a.char = mark && b.char = mark && c.char = mark && endsHere rest
  | _ => false

def isDocumentMark (cs : List Cell) : Bool := isMarkOf '-' cs || isMarkOf '.' cs

end SourceDelta.Yaml
