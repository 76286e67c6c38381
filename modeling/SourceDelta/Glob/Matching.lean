import SourceDelta.Glob.Token

/-!
# Matching paths

A path is matched from the end of the glob to its start. Every step says for
each rest of the path whether the tokens so far accept it, so that the work is
the length of the path for every token.
-/

set_option autoImplicit false

namespace SourceDelta.Glob

/-- Which rests of a path are accepted, from the whole path to the empty rest. -/
abbrev Accepted := List Bool

def whole (accepted : Accepted) : Bool := accepted.headD false

def atEnd : Bytes → Accepted
  | [] => [true]
  | _ :: bs => false :: atEnd bs

def afterByte (member : UInt8 → Bool) : Bytes → Accepted → Accepted
  | b :: bs, _ :: rests => (member b && whole rests) :: afterByte member bs rests
  | _, _ => [false]

def afterAny : Accepted → Accepted
  | [] => []
  | a :: rests =>
    let later := afterAny rests
    (a || whole later) :: later

def either (a b : Accepted) : Accepted := List.zipWith or a b

def slash : UInt8 := 0x2F

def afterSlash (path : Bytes) (accepted : Accepted) : Accepted :=
  afterByte (· == slash) path accepted

def afterDirectories (path : Bytes) (accepted : Accepted) : Accepted :=
  either accepted (afterAny (afterSlash path accepted))

/-- A range holds the bytes of its first character but the last one, those from that one to the
first byte of its last character, and the other bytes of the last character. -/
def inRange (range : Char × Char) (b : UInt8) : Bool :=
  let first := String.utf8EncodeChar range.1
  let last := String.utf8EncodeChar range.2
  if range.1 = range.2 then first.contains b
  else first.dropLast.contains b || last.tail.contains b ||
    ((first.getLast?.getD 0) ≤ b && b ≤ (last.head?.getD 0))

mutual
def Token.before (path : Bytes) (accepted : Accepted) : Token → Accepted
  | .literal c =>
    (String.utf8EncodeChar c).foldr (fun b rests => afterByte (· == b) path rests) accepted
  | .any => afterByte (fun _ => true) path accepted
  | .star => afterAny accepted
  | .leading => afterDirectories path accepted
  | .trailing => afterSlash path (afterAny accepted)
  | .between => afterSlash path (afterDirectories path accepted)
  | .set negated ranges => afterByte (fun b => ranges.any (inRange · b) != negated) path accepted
  | .alternatives options =>
    if allVoid options then accepted else anyBefore path accepted options

def allBefore (path : Bytes) (accepted : Accepted) : List Token → Accepted
  | [] => accepted
  | t :: ts => t.before path (allBefore path accepted ts)

def anyBefore (path : Bytes) (accepted : Accepted) : List (List Token) → Accepted
  | [] => accepted.map fun _ => false
  | ts :: rest =>
    if void ts then anyBefore path accepted rest
    else either (allBefore path accepted ts) (anyBefore path accepted rest)
end

/-- The tokens match the whole path. A leading `**` alone matches every path. -/
def tokensMatch (tokens : List Token) (path : Bytes) : Bool :=
  match tokens with
  | [.leading] => true
  | ts => whole (allBefore path (atEnd path) ts)

end SourceDelta.Glob
