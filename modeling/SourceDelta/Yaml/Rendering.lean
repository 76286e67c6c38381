import SourceDelta.Text.Digits
import SourceDelta.Yaml.Cell

/-!
# Writing texts in YAML

A text is written plain when it reads back as a text, else in single quotes,
and in double quotes when it holds characters that need an escape. A text with
line feeds is written as a block. The lines of a block, and those of a quoted
text, are indented by two spaces.
-/

set_option autoImplicit false

namespace SourceDelta.Yaml
open SourceDelta.Text

def nullNames : List String := ["null", "Null", "NULL", "~"]

def trueNames : List String := ["true", "True", "TRUE"]

def falseNames : List String := ["false", "False", "FALSE"]

def specialNumbers : List String :=
  [".inf", ".Inf", ".INF", "+.inf", "+.Inf", "+.INF", "-.inf", "-.Inf", "-.INF", ".nan", ".NaN",
    ".NAN"]

def radixValue? (base : Nat) : Nat → List Char → Option Nat
  | v, [] => some v
  | v, c :: cs =>
    let d :=
      if isDigit c then digitValue c
      else if 'a' ≤ c && c ≤ 'f' then c.toNat - 'a'.toNat + 10
      else if 'A' ≤ c && c ≤ 'F' then c.toNat - 'A'.toNat + 10
      else 16
    if d < base then radixValue? base (v * base + d) cs else none

def radix? : Char → Option Nat
  | 'x' => some 16
  | 'o' => some 8
  | 'b' => some 2
  | _ => none

/-- An integer of 128 bits with a letter for its base. -/
def isRadixInteger (cs : List Char) : Bool :=
  let (negative, cs) := match cs with
    | '-' :: cs => (true, cs)
    | '+' :: cs => (false, cs)
    | cs => (false, cs)
  match cs with
  | '0' :: letter :: d :: ds =>
    match (radix? letter).bind fun base => radixValue? base 0 (d :: ds) with
    | some v => if negative then v ≤ (1 <<< 127) else v < (1 <<< 128)
    | none => false
  | _ => false

def unsigned : List Char → List Char
  | '+' :: cs => cs
  | '-' :: cs => cs
  | cs => cs

def isZeroLed (cs : List Char) : Bool :=
  match unsigned cs with
  | '0' :: d :: ds => (d :: ds).all isDigit
  | _ => false

def exponent? : List Char → Option Int
  | [] => some 0
  | e :: cs =>
    if e = 'e' || e = 'E' then
      match cs with
      | '-' :: ds => (natural? ds).map fun n => -(n : Int)
      | '+' :: ds => (natural? ds).map Int.ofNat
      | ds => (natural? ds).map Int.ofNat
    else none

def decimal? (cs : List Char) : Option (List Char × Int) :=
  let whole := cs.takeWhile isDigit
  let rest := cs.dropWhile isDigit
  let (fraction, rest) := match rest with
    | '.' :: rest => (rest.takeWhile isDigit, rest.dropWhile isDigit)
    | rest => ([], rest)
  if whole.isEmpty && fraction.isEmpty then none
  else (exponent? rest).map fun e => (whole ++ fraction, e - fraction.length)

/-- The least number that is rounded to no double, half a unit above the greatest double. -/
def overflowBound : Nat := (1 <<< 1024) - (1 <<< 970)

def isFinite (digits : List Char) (exponent : Int) : Bool :=
  let digits := digits.dropWhile (· = '0')
  let size := (digits.length : Int) + exponent
  if digits.isEmpty || size < 309 then true
  else if 309 < size then false
  else if exponent < 0 then valueIn 10 digits < overflowBound * Nat.pow 10 exponent.natAbs
  else valueIn 10 digits * Nat.pow 10 exponent.natAbs < overflowBound

def isDecimal (cs : List Char) : Bool :=
  match decimal? (unsigned cs) with
  | some (digits, exponent) => isFinite digits exponent
  | none => false

/-- A plain scalar with this text is no text, or not for every reader. -/
def isAmbiguous (cs : List Char) : Bool :=
  let s := String.ofList cs
  s = "" || nullNames.contains s || trueNames.contains s || falseNames.contains s ||
    specialNumbers.contains s || isZeroLed cs || isRadixInteger cs || isDecimal cs

def isPrintable (c : Char) : Bool :=
  let n := c.toNat
  n == 0x0A || (0x20 ≤ n && n ≤ 0x7E) || (0xA0 ≤ n && n < 0xFFFE && n != 0xFEFF) || 0xFFFF < n

def leadIndicators : List Char :=
  ['#', ',', '[', ']', '\x7b', '\x7d', '&', '*', '!', '|', '>', '\'', '"', '%', '@', '\x60']

def breaksOff : List Char → Bool
  | [] => true
  | c :: _ => isGap c || isBreak c

def startsAsMark : List Char → Bool
  | [] => false
  | c :: cs =>
    leadIndicators.contains c || ((c = '?' || c = ':' || c = '-') && breaksOff cs) ||
      ['-', '-', '-'].isPrefixOf (c :: cs) || ['.', '.', '.'].isPrefixOf (c :: cs)

def anyPair (p : Char → List Char → Bool) : List Char → Bool
  | [] => false
  | c :: cs => p c cs || anyPair p cs

def nextIs (p : Char → Bool) : List Char → Bool
  | [] => false
  | c :: _ => p c

def hasMark (cs : List Char) : Bool :=
  anyPair (fun c rest => (c = ':' && breaksOff rest) ||
    ((isGap c || isBreak c) && nextIs (· = '#') rest)) cs

def isSpace (c : Char) : Bool := c = ' '

def isClean (cs : List Char) : Bool :=
  cs.all isPrintable && !anyPair (fun c rest => isSpace c && nextIs isBreak rest) cs

def hasIndentedLine (cs : List Char) : Bool :=
  anyPair (fun c rest => isBreak c && nextIs isSpace rest) cs

def endsIn (p : Char → Bool) (cs : List Char) : Bool := nextIs p cs.reverse

def allowsPlain (cs : List Char) : Bool :=
  isClean cs && !cs.any isBreak && !nextIs isSpace cs && !endsIn isSpace cs &&
    !startsAsMark cs && !hasMark cs

def allowsSingle (cs : List Char) : Bool := isClean cs && !hasIndentedLine cs

def allowsBlock (cs : List Char) : Bool := isClean cs && !endsIn isSpace cs

def indentation : List Char := [' ', ' ']

def singleBody : Bool → List Char → List Char
  | broken, [] => if broken then indentation else []
  | broken, c :: cs =>
    if isBreak c then c :: singleBody true cs
    else
      (if broken then indentation else []) ++ (if c = '\'' then ['\'', '\''] else [c]) ++
        singleBody false cs

def single (cs : List Char) : List Char := '\'' :: singleBody false cs ++ ['\'']

def hexDigits (width n : Nat) : List Char :=
  let ds := (Nat.toDigits 16 n).map Char.toUpper
  List.replicate (width - ds.length) '0' ++ ds

def escapeCode (n : Nat) : List Char :=
  if n ≤ 0xFF then '\\' :: 'x' :: hexDigits 2 n
  else if n ≤ 0xFFFF then '\\' :: 'u' :: hexDigits 4 n
  else '\\' :: 'U' :: hexDigits 8 n

def escapeLetters : List (Char × Char) :=
  [('\x00', '0'), ('\x07', 'a'), ('\x08', 'b'), ('\t', 't'), ('\n', 'n'), ('\x0b', 'v'),
    ('\x0c', 'f'), ('\r', 'r'), ('\x1b', 'e'), ('"', '"'), ('\\', '\\'), ('\u0085', 'N'),
    ('\u2028', 'L'), ('\u2029', 'P')]

def escapeChar (c : Char) : List Char :=
  match escapeLetters.lookup c with
  | some letter => ['\\', letter]
  | none => if isPrintable c then [c] else escapeCode c.toNat

def double (cs : List Char) : List Char := '"' :: cs.flatMap escapeChar ++ ['"']

def blockBody : Bool → List Char → List Char
  | _, [] => []
  | fresh, c :: cs =>
    if isBreak c then c :: blockBody true cs
    else (if fresh then indentation else []) ++ c :: blockBody false cs

/-- What the reader of a block has to know: whether it starts with white space, and what becomes of
the breaks at its end. -/
def blockMark (cs : List Char) : List Char :=
  (if nextIs (fun c => isSpace c || isBreak c) cs then ['2'] else []) ++
    match cs.reverse with
    | a :: rest =>
      if !isBreak a then ['-']
      else if rest.isEmpty || nextIs isBreak rest then ['+']
      else []
    | [] => ['-']

def block (cs : List Char) : List Char := '|' :: blockMark cs ++ '\n' :: blockBody true cs

def renderText (s : String) : List Char :=
  let cs := s.toList
  if cs.contains '\n' && allowsBlock cs then block cs
  else if cs.contains '\n' then double cs
  else if !isAmbiguous cs && allowsPlain cs then cs
  else if allowsSingle cs then single cs
  else double cs

def endLine (cs : List Char) : List Char := if endsIn isBreak cs then cs else cs ++ ['\n']

def renderField (key : String) (value : List Char) : List Char :=
  endLine (key.toList ++ ':' :: ' ' :: value)

def renderList (key : String) : List String → List Char
  | [] => renderField key ['[', ']']
  | items =>
    key.toList ++ ':' :: '\n' :: items.flatMap fun s => endLine ('-' :: ' ' :: renderText s)

end SourceDelta.Yaml
