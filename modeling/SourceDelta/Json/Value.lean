/-!
# JSON values

Values of the JSON data format. An object keeps its members in the order and
number in which they were written; its canonical form has each name once, the
last member of a name winning, in the order of the names.
-/

set_option autoImplicit false

namespace SourceDelta

/-- An integer between -2^63 and 2^64 - 1, or the bits of a double. -/
inductive Number
  | integer (n : Int)
  | float (bits : UInt64)
  deriving DecidableEq, Inhabited

inductive Json
  | null
  | bool (b : Bool)
  | number (n : Number)
  | string (s : String)
  | array (items : List Json)
  | object (members : List (String × Json))
  deriving Inhabited, BEq

namespace Json

def ofNat (n : Nat) : Json := .number (.integer n)

def insertNew (k : String) (v : Json) : List (String × Json) → List (String × Json)
  | [] => [(k, v)]
  | (k', v') :: rest =>
    if k < k' then (k, v) :: (k', v') :: rest
    else if k = k' then (k', v') :: rest
    else (k', v') :: insertNew k v rest

mutual
def canonical : Json → Json
  | .array xs => .array (canonicalItems xs)
  | .object ms => .object (canonicalMembers ms)
  | .null => .null
  | .bool b => .bool b
  | .number n => .number n
  | .string s => .string s

def canonicalItems : List Json → List Json
  | [] => []
  | x :: xs => canonical x :: canonicalItems xs

def canonicalMembers : List (String × Json) → List (String × Json)
  | [] => []
  | (k, v) :: ms => insertNew k (canonical v) (canonicalMembers ms)
end

/-- The member of a name in an object that has it once. -/
def get? (k : String) : Json → Option Json
  | .object ms => ms.lookup k
  | _ => none

def string? : Json → Option String
  | .string s => some s
  | _ => none

def bool? : Json → Option Bool
  | .bool b => some b
  | _ => none

def list? : Json → Option (List Json)
  | .array xs => some xs
  | _ => none

def integer? : Json → Option Int
  | .number (.integer n) => some n
  | _ => none

def word? (j : Json) : Option UInt32 := do
  let n ← j.integer?
  if 0 ≤ n ∧ n < UInt32.size then some (UInt32.ofNat n.toNat) else none

/-- One of a set of names: a string, or an object whose only member has that name and is null. -/
def name? : Json → Option String
  | .string s => some s
  | .object [(s, .null)] => some s
  | _ => none

/-- The fields of a record: the members with these names, each at most once, or an array that
holds the fields in order and may end early. -/
def fields? (names : List String) : Json → Option (List (Option Json))
  | .object ms =>
    names.mapM fun k =>
      match ms.filter (·.1 == k) with
      | [] => some none
      | [m] => some (some m.2)
      | _ => none
  | .array xs =>
    if xs.length ≤ names.length then
      some (xs.map some ++ List.replicate (names.length - xs.length) none)
    else none
  | _ => none

def orElse {α : Type} (default : α) (read : Json → Option α) : Option Json → Option α
  | none => some default
  | some j => read j

def nullable {α : Type} (read : Json → Option α) : Json → Option (Option α)
  | .null => some none
  | j => (read j).map some

end Json

end SourceDelta
