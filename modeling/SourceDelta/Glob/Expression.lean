import SourceDelta.Glob.Token

/-!
# Regular expressions of globs

Every glob says the same as a regular expression over bytes. How deep the parts
of the expression nest is limited, and a glob beyond the limit is refused.
-/

set_option autoImplicit false

namespace SourceDelta.Glob

def metaChars : List Char :=
  ['\\', '.', '+', '*', '?', '(', ')', '|', '[', ']', '\x7b', '\x7d', '^', '$', '#', '&', '-', '~']

def charExpression (c : Char) : List Char :=
  if c.toNat < 128 then if metaChars.contains c then ['\\', c] else [c]
  else (String.utf8EncodeChar c).flatMap fun b => ['\\', 'x'] ++ Nat.toDigits 16 b.toNat

def rangeExpression (range : Char × Char) : List Char :=
  if range.1 = range.2 then charExpression range.1
  else charExpression range.1 ++ '-' :: charExpression range.2

mutual
def Token.expression : Token → List Char
  | .literal c => charExpression c
  | .any => ['.']
  | .star => ['.', '*']
  | .leading => "(?:/?|.*/)".toList
  | .trailing => "/.*".toList
  | .between => "(?:/|/.*/)".toList
  | .set negated ranges =>
    '[' :: (if negated then ['^'] else []) ++ ranges.flatMap rangeExpression ++ [']']
  | .alternatives options =>
    match optionExpressions options with
    | [] => []
    | es => "(?:".toList ++ ['|'].intercalate es ++ [')']

def sequenceExpression : List Token → List Char
  | [] => []
  | t :: ts => t.expression ++ sequenceExpression ts

def optionExpressions : List (List Token) → List (List Char)
  | [] => []
  | ts :: rest =>
    if void ts then optionExpressions rest
    else sequenceExpression ts :: optionExpressions rest
end

def expression (tokens : List Token) : List Char :=
  "(?-u)^".toList ++
    (match tokens with
      | [.leading] => ['.', '*']
      | ts => sequenceExpression ts) ++
    ['$']

/-- A sequence of parts of this depth is one deeper, unless it has a single part. -/
def sequenceDepth (parts depth : Nat) : Nat := if parts ≤ 1 then depth else depth + 1

def memberCount (ranges : List (Char × Char)) : Nat :=
  (ranges.map fun (a, b) =>
    if a = b then a.utf8Size else a.utf8Size + b.utf8Size - 1).foldl (· + ·) 0

def Token.parts : Token → Nat
  | .literal c => c.utf8Size
  | .trailing => 2
  | .alternatives options => if allVoid options then 0 else 1
  | _ => 1

def partCount (tokens : List Token) : Nat := (tokens.map Token.parts).foldl (· + ·) 0

mutual
def Token.depth : Token → Nat
  | .literal _ => 0
  | .any => 0
  | .star => 1
  | .trailing => 1
  | .leading => 4
  | .between => 4
  | .set _ ranges => sequenceDepth (memberCount ranges) 1
  | .alternatives options =>
    if allVoid options then 0
    else 1 + sequenceDepth (options.countP (!void ·)) (optionsDepth options)

def partsDepth : List Token → Nat
  | [] => 0
  | t :: ts => max t.depth (partsDepth ts)

def optionsDepth : List (List Token) → Nat
  | [] => 0
  | ts :: rest => max (sequenceDepth (partCount ts) (partsDepth ts)) (optionsDepth rest)
end

/-- The depth of the expression of a glob, which is a sequence: its ends are parts of it. -/
def depth (tokens : List Token) : Nat := partsDepth tokens + 1

def maxDepth : Nat := 250

end SourceDelta.Glob
