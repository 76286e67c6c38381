import SourceDelta.Text.Utf8
import SourceDelta.Yaml.Scalar

/-!
# Tokens of YAML

The tokens of a document, found from left to right. Collections that
indentation opens and closes have tokens of their own. A mapping is recognised
only at the colon after its first key: until then the place before the key is
kept as a candidate, which has to be followed by its colon on the same line.
-/

set_option autoImplicit false

namespace SourceDelta.Yaml

inductive Token
  | version (major minor : Nat)
  | handle (name : List Char) (meaning : Bytes)
  | documentStart
  | documentEnd
  | sequenceStart
  | mappingStart
  | collectionEnd
  | flowSequenceStart
  | flowSequenceEnd
  | flowMappingStart
  | flowMappingEnd
  | entry
  | flowEntry
  | key
  | value
  | alias (name : List Char)
  | anchor (name : List Char)
  /-- A tag after a handle; without a handle it is the tag itself. -/
  | tag (handle : List Char) (rest : Bytes)
  | scalar (style : Style) (text : List Char)
  deriving DecidableEq

def isNameChar (c : Char) : Bool :=
  ('0' ≤ c && c ≤ '9') || ('A' ≤ c && c ≤ 'Z') || ('a' ≤ c && c ≤ 'z') || c = '_' || c = '-'

def nameOf (cs : List Cell) : List Char × List Cell :=
  ((cs.takeWhile (isNameChar ·.char)).map Cell.char, cs.dropWhile (isNameChar ·.char))

def skipGaps (cs : List Cell) : List Cell := cs.dropWhile (isGap ·.char)

def expect? (c : Char) : List Cell → Option (List Cell)
  | [] => none
  | d :: cs => if d.char = c then some cs else none

def anchorName? (cs : List Cell) : Option (List Char × List Cell) :=
  let (name, rest) := nameOf cs
  if !name.isEmpty &&
      (endsHere rest || startsWithAny ['?', ':', ',', ']', '\x7d', '%', '@', '\x60'] rest) then
    some (name, rest)
  else none

def isUriChar (verbatim : Bool) (c : Char) : Bool :=
  isNameChar c ||
    [';', '/', '?', ':', '@', '&', '=', '+', '$', '.', '!', '~', '*', '\'', '(', ')'].contains c ||
    (verbatim && [',', '[', ']'].contains c)

def following? (b : UInt8) : Option Nat :=
  if b < 0x80 then some 0
  else if b < 0xC0 then none
  else if b < 0xE0 then some 1
  else if b < 0xF0 then some 2
  else if b < 0xF8 then some 3
  else none

/-- Reads the characters of a tag. Percent signs stand before the digits of a byte; `open` bytes of
a character are still to come. -/
def uriTail (verbatim : Bool) : Nat → List Cell → Option (Bytes × List Cell)
  | n, [] => if n = 0 then some ([], []) else none
  | n, c :: cs =>
    if c.char = '%' then
      match cs with
      | x :: y :: ds => do
        let b := UInt8.ofNat ((← hexValue? x.char) * 16 + (← hexValue? y.char))
        let n ←
          if n = 0 then following? b
          else if 0x80 ≤ b && b < 0xC0 then some (n - 1)
          else none
        let (bytes, rest) ← uriTail verbatim n ds
        some (b :: bytes, rest)
      | _ => none
    else if n ≠ 0 then none
    else if isUriChar verbatim c.char then do
      let (bytes, rest) ← uriTail verbatim 0 cs
      some (UInt8.ofNat c.char.toNat :: bytes, rest)
    else some ([], c :: cs)

def uri? (verbatim : Bool) (cs : List Cell) : Option (Bytes × List Cell) := do
  let (bytes, rest) ← uriTail verbatim 0 cs
  if bytes.isEmpty then none else some (bytes, rest)

def asciiBytes (cs : List Char) : Bytes := cs.map fun c => UInt8.ofNat c.toNat

def tagParts? (cs : List Cell) : Option (Token × List Cell) :=
  match expect? '<' cs with
  | some cs => do
    let (bytes, rest) ← uri? true cs
    some (.tag [] bytes, ← expect? '>' rest)
  | none =>
    let (name, rest) := nameOf cs
    match expect? '!' rest with
    | some rest => do
      let (bytes, rest) ← uri? false rest
      some (.tag ('!' :: name ++ ['!']) bytes, rest)
    | none => do
      let (bytes, rest) ← uriTail false 0 rest
      let bytes := asciiBytes name ++ bytes
      some (if bytes.isEmpty then .tag [] (asciiBytes ['!']) else .tag ['!'] bytes, rest)

def tag? (flow : Bool) (cs : List Cell) : Option (Token × List Cell) := do
  let (t, rest) ← tagParts? cs
  if endsHere rest || (flow && startsWithAny [','] rest) then some (t, rest) else none

def versionNumber? (cs : List Cell) : Option (Nat × List Cell) :=
  let ds := cs.takeWhile fun c => '0' ≤ c.char && c.char ≤ '9'
  if ds.isEmpty || 9 < ds.length then none
  else
    some (ds.foldl (fun n c => n * 10 + (c.char.toNat - '0'.toNat)) 0, cs.drop ds.length)

def version? (cs : List Cell) : Option (Token × List Cell) := do
  let (major, rest) ← versionNumber? (skipGaps cs)
  let (minor, rest) ← versionNumber? (← expect? '.' rest)
  some (.version major minor, rest)

def handle? (cs : List Cell) : Option (Token × List Cell) := do
  let (name, rest) := nameOf (← expect? '!' (skipGaps cs))
  let (ending, rest) ←
    match expect? '!' rest with
    | some rest => some (['!'], rest)
    | none => if name.isEmpty then some ([], rest) else none
  if startsWithAny [' ', '\t'] rest then
    let (bytes, rest) ← uri? true (skipGaps rest)
    if endsHere rest then some (.handle ('!' :: name ++ ending) bytes, rest) else none
  else none

def directive? (cs : List Cell) : Option (Token × List Cell) := do
  let (name, rest) := nameOf cs
  if endsHere rest then
    let (t, rest) ←
      if name = "YAML".toList then version? rest
      else if name = "TAG".toList then handle? rest
      else none
    some (t, ← blankLine? false rest)
  else none

/-- A place where a key may have started, with the number of tokens before it. -/
structure Candidate where
  line : Nat
  column : Nat
  offset : Nat
  position : Nat
  /-- Nothing but a key can stand there. -/
  required : Bool
  deriving DecidableEq

structure Found where
  tokens : List Token
  count : Nat
  count_eq : count = tokens.length

namespace Found

def empty : Found where
  tokens := []
  count := 0
  count_eq := rfl

def add (f : Found) (t : Token) : Found where
  tokens := t :: f.tokens
  count := f.count + 1
  count_eq := by simp [f.count_eq]

def addMany (f : Found) (n : Nat) (t : Token) : Found where
  tokens := List.replicate n t ++ f.tokens
  count := n + f.count
  count_eq := by simp [f.count_eq]

def addAt (f : Found) (position : Nat) (t : Token) : Found where
  tokens := f.tokens.take (f.count - position) ++ t :: f.tokens.drop (f.count - position)
  count := f.count + 1
  count_eq := by
    have h := congrArg List.length (List.take_append_drop (f.count - position) f.tokens)
    rw [List.length_append] at h
    rw [List.length_append, List.length_cons, f.count_eq]
    rw [f.count_eq] at h
    omega

end Found

structure Scan where
  found : Found
  columns : List Nat
  candidate : Option Candidate
  outer : List (Option Candidate)
  /-- A key may start here. -/
  keyAllowed : Bool

namespace Scan

def start : Scan := ⟨.empty, [], none, [], true⟩

def flow (s : Scan) : Bool := !s.outer.isEmpty

def add (s : Scan) (t : Token) : Scan := { s with found := s.found.add t }

def allow (s : Scan) (allowed : Bool) : Scan := { s with keyAllowed := allowed }

def dropCandidate (s : Scan) : Option Scan :=
  match s.candidate with
  | some c => if c.required then none else some { s with candidate := none }
  | none => some s

/-- A candidate may be followed by its colon at this cell: on its line, and not more than 1024
bytes after it. -/
def isFresh (here : Cell) (c : Candidate) : Bool :=
  c.line = here.line && here.offset ≤ c.offset + 1024

/-- Gives up a candidate that is too far back. The candidates around open brackets wait until
their bracket is closed. -/
def dropStale (s : Scan) (here : Cell) : Option Scan :=
  if s.candidate.all (isFresh here) then some s else s.dropCandidate

def propose (s : Scan) (here : Cell) : Option Scan :=
  if s.keyAllowed then do
    let s ← s.dropCandidate
    some { s with candidate := some ⟨here.line, here.column, here.offset, s.found.count,
      !s.flow && s.columns.head? = some here.column⟩ }
  else some s

def close (s : Scan) (n : Nat) : Scan :=
  { s with found := s.found.addMany n .collectionEnd, columns := s.columns.drop n }

def unroll (s : Scan) (column : Nat) : Scan :=
  if s.flow then s else s.close (s.columns.takeWhile (column < ·)).length

def unrollAll (s : Scan) : Scan := if s.flow then s else s.close s.columns.length

def roll (s : Scan) (column position : Nat) (t : Token) : Scan :=
  let inner := match s.columns with
    | [] => true
    | c :: _ => c < column
  if !s.flow && inner then
    { s with found := s.found.addAt position t, columns := column :: s.columns }
  else s

def mark (s : Scan) (t : Token) : Option Scan := do
  let s ← s.unrollAll.dropCandidate
  some ((s.allow false).add t)

def openFlow (s : Scan) (here : Cell) (t : Token) : Option Scan := do
  let s ← s.propose here
  some ({ s with candidate := none, outer := s.candidate :: s.outer, keyAllowed := true }.add t)

def closeFlow (s : Scan) (t : Token) : Option Scan := do
  let s ← s.dropCandidate
  let s := match s.outer with
    | [] => s
    | c :: cs => { s with candidate := c, outer := cs }
  some ((s.allow false).add t)

def addFlowEntry (s : Scan) : Option Scan := do
  let s ← s.dropCandidate
  some ((s.allow true).add .flowEntry)

def indented (s : Scan) (here : Cell) (t : Token) : Option Scan :=
  if s.flow then some s
  else if s.keyAllowed then some (s.roll here.column s.found.count t)
  else none

def addEntry (s : Scan) (here : Cell) : Option Scan := do
  let s ← (← s.indented here .sequenceStart).dropCandidate
  some ((s.allow true).add .entry)

def addKey (s : Scan) (here : Cell) : Option Scan := do
  let s ← (← s.indented here .mappingStart).dropCandidate
  some ((s.allow !s.flow).add .key)

def addValue (s : Scan) (here : Cell) : Option Scan :=
  match s.candidate with
  | some c =>
    let s := { s with found := s.found.addAt c.position .key }
    let s := s.roll c.column c.position .mappingStart
    some ({ s with candidate := none, keyAllowed := false }.add .value)
  | none => do
    let s ← s.indented here .mappingStart
    some ((s.allow !s.flow).add .value)

def addNode (s : Scan) (here : Cell) (t : Token) : Option Scan := do
  let s ← s.propose here
  some ((s.allow false).add t)

end Scan

/-- The characters that start no plain scalar, or only before a character that is no gap. -/
def indicators : List Char :=
  ['-', '?', ':', ',', '[', ']', '\x7b', '\x7d', '#', '&', '*', '!', '|', '>', '\'', '"', '%', '@',
    '\x60']

def startsPlain (flow : Bool) (c : Char) (after : List Cell) : Bool :=
  !(isGap c || indicators.contains c) ||
    (c = '-' && !startsWithAny [' ', '\t'] after) ||
    (!flow && (c = '?' || c = ':') && !endsHere after)

def Scan.next (s : Scan) (c : Cell) (cs : List Cell) : Option (Scan × List Cell) :=
  let single (t : Option Scan) : Option (Scan × List Cell) := t.map (·, cs)
  if c.column = 0 && c.char = '%' then do
    let (t, rest) ← directive? cs
    some (← s.mark t, rest)
  else if isMarkOf '-' (c :: cs) then (s.mark .documentStart).map (·, cs.drop 2)
  else if isMarkOf '.' (c :: cs) then (s.mark .documentEnd).map (·, cs.drop 2)
  else if c.char = '[' then single (s.openFlow c .flowSequenceStart)
  else if c.char = '\x7b' then single (s.openFlow c .flowMappingStart)
  else if c.char = ']' then single (s.closeFlow .flowSequenceEnd)
  else if c.char = '\x7d' then single (s.closeFlow .flowMappingEnd)
  else if c.char = ',' then single s.addFlowEntry
  else if c.char = '-' && endsHere cs then single (s.addEntry c)
  else if c.char = '?' && (s.flow || endsHere cs) then single (s.addKey c)
  else if c.char = ':' && (s.flow || endsHere cs) then single (s.addValue c)
  else if c.char = '*' then do
    let (name, rest) ← anchorName? cs
    some (← s.addNode c (.alias name), rest)
  else if c.char = '&' then do
    let (name, rest) ← anchorName? cs
    some (← s.addNode c (.anchor name), rest)
  else if c.char = '!' then do
    let (t, rest) ← tag? s.flow cs
    some (← s.addNode c t, rest)
  else if (c.char = '|' || c.char = '>') && !s.flow then do
    let s ← s.dropCandidate
    let folded := c.char = '>'
    let (text, rest) ← block? folded s.columns.head? cs
    some ((s.allow true).add (.scalar (if folded then .folded else .literal) text), rest)
  else if c.char = '\'' || c.char = '"' then do
    let (text, rest) ← quoted? (c.char = '"') cs
    some (← s.addNode c (.scalar .quoted text), rest)
  else if startsPlain s.flow c.char cs then do
    let indent := match s.columns with
      | [] => 0
      | column :: _ => column + 1
    let (text, broken, rest) ← plain? s.flow indent (c :: cs)
    let s ← s.addNode c (.scalar .plain text)
    some (if broken then s.allow true else s, rest)
  else none

/-- Skips spaces, comments, breaks and byte order marks before a token. Tabs count as spaces where
no key may start, and a break makes a key possible. -/
def skipSpace (flow : Bool) : Bool → Bool → List Cell → Bool × List Cell
  | allowed, _, [] => (allowed, [])
  | allowed, comment, c :: cs =>
    if isBreak c.char then skipSpace flow (allowed || !flow) false cs
    else if comment || c.isByteOrderMark || c.char = ' ' ||
        (c.char = '\t' && (flow || !allowed)) then
      skipSpace flow allowed comment cs
    else if c.char = '#' then skipSpace flow allowed true cs
    else (allowed, c :: cs)

def Scan.run : Nat → Scan → List Cell → Option (List Token)
  | 0, _, _ => none
  | n + 1, s, cs =>
    let (allowed, cs) := skipSpace s.flow s.keyAllowed false cs
    let s := s.allow allowed
    match cs with
    | [] => do
      let s ← s.unrollAll.dropCandidate
      some s.found.tokens.reverse
    | c :: cs => do
      let s ← s.dropStale c
      let (s, rest) ← (s.unroll c.column).next c cs
      s.run n rest

def tokens? (text : List Char) : Option (List Token) := do
  let cs ← cells? text
  Scan.start.run (cs.length + 1) cs

end SourceDelta.Yaml
