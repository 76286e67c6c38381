import SourceDelta.Json.Float
import SourceDelta.Json.Value

/-!
# JSON text

The compact text of a value has no spaces. The indented text puts every element
and member on a line of its own, two spaces deeper than the brackets around it;
empty brackets stay together. A string escapes quotes, backslashes and the
control characters below the space, and nothing else.
-/

set_option autoImplicit false

namespace SourceDelta.Json

def Number.text : Number → List Char
  | .integer n => if n < 0 then '-' :: Nat.toDigits 10 n.natAbs else Nat.toDigits 10 n.natAbs
  | .float bits => Double.text bits

def escapeChar (c : Char) : List Char :=
  if c = '"' then ['\\', '"']
  else if c = '\\' then ['\\', '\\']
  else if c = '\n' then ['\\', 'n']
  else if c = '\t' then ['\\', 't']
  else if c = '\r' then ['\\', 'r']
  else if c.toNat = 8 then ['\\', 'b']
  else if c.toNat = 12 then ['\\', 'f']
  else if c.toNat < 32 then
    ['\\', 'u', '0', '0', Nat.digitChar (c.toNat / 16), Nat.digitChar (c.toNat % 16)]
  else [c]

def quote (s : String) : List Char := '"' :: s.toList.flatMap escapeChar ++ ['"']

def literal : Json → List Char
  | .null => "null".toList
  | .bool true => "true".toList
  | .bool false => "false".toList
  | .number n => Number.text n
  | .string s => quote s
  | _ => []

mutual
def compactChars : Json → List Char
  | .array xs => '[' :: compactItems xs ++ [']']
  | .object ms => '\x7b' :: compactMembers ms ++ ['\x7d']
  | j => literal j

def compactItems : List Json → List Char
  | [] => []
  | [x] => compactChars x
  | x :: y :: xs => compactChars x ++ ',' :: compactItems (y :: xs)

def compactMembers : List (String × Json) → List Char
  | [] => []
  | [(k, v)] => quote k ++ ':' :: compactChars v
  | (k, v) :: m :: ms => quote k ++ ':' :: compactChars v ++ ',' :: compactMembers (m :: ms)
end

def newline (depth : Nat) : List Char := '\n' :: List.replicate (2 * depth) ' '

mutual
def indentedChars (depth : Nat) : Json → List Char
  | .array [] => ['[', ']']
  | .array (x :: xs) =>
    '[' :: newline (depth + 1) ++ indentedItems (depth + 1) (x :: xs) ++ newline depth ++ [']']
  | .object [] => ['\x7b', '\x7d']
  | .object (m :: ms) =>
    '\x7b' :: newline (depth + 1) ++ indentedMembers (depth + 1) (m :: ms) ++ newline depth ++
      ['\x7d']
  | j => literal j

def indentedItems (depth : Nat) : List Json → List Char
  | [] => []
  | [x] => indentedChars depth x
  | x :: y :: xs => indentedChars depth x ++ ',' :: newline depth ++ indentedItems depth (y :: xs)

def indentedMembers (depth : Nat) : List (String × Json) → List Char
  | [] => []
  | [(k, v)] => quote k ++ ':' :: ' ' :: indentedChars depth v
  | (k, v) :: m :: ms =>
    quote k ++ ':' :: ' ' :: indentedChars depth v ++ ',' :: newline depth ++
      indentedMembers depth (m :: ms)
end

def compact (j : Json) : String := String.ofList (compactChars j)

def indented (j : Json) : String := String.ofList (indentedChars 0 j)

end SourceDelta.Json
