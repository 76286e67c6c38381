import SourceDelta.Text.Utf8

/-!
# Tokens of globs

A glob matches a whole path, byte by byte. `?` is one byte and `*` any bytes,
slashes included; brackets hold a set of bytes and braces hold alternatives.
`**` stands for whole directories: in front of a slash at the start, between two
slashes, and after a slash at the end. Anywhere else it is two stars.
-/

set_option autoImplicit false

namespace SourceDelta.Glob

inductive Token
  | literal (c : Char)
  | any
  | star
  | leading
  | trailing
  /-- A slash, or directories between two slashes. -/
  | between
  | set (negated : Bool) (ranges : List (Char × Char))
  | alternatives (options : List (List Token))

inductive Fault
  | unclosedSet
  | range (first last : Char)
  | unopened
  | unclosed
  deriving DecidableEq

def Fault.message : Fault → String
  | unclosedSet => "unclosed character class; missing ']'"
  | range first last => "invalid range; '" ++ first.toString ++ "' > '" ++ last.toString ++ "'"
  | unopened =>
    "unopened alternate group; missing '\x7b' (maybe escape '\x7d' with '[\x7d]'?)"
  | unclosed =>
    "unclosed alternate group; missing '\x7d' (maybe escape '\x7b' with '[\x7b]'?)"

/-- A set of bytes as far as it is read: `opened` before its first member, `ranging` after a dash
that may start a range. Ranges stand last first. -/
structure Members where
  negated : Bool
  ranges : List (Char × Char)
  opened : Bool
  ranging : Bool

def Members.close (m : Members) (c : Char) : Except Fault Members :=
  match m.ranges with
  | (a, _) :: rest =>
    if c < a then .error (.range a c)
    else .ok { m with ranges := (a, c) :: rest, opened := false, ranging := false }
  | [] => .ok m

def Members.add (m : Members) (c : Char) : Except Fault Members :=
  if m.ranging then m.close c
  else if c = '-' && !m.opened then .ok { m with ranging := true }
  else .ok { m with ranges := (c, c) :: m.ranges, opened := false }

def Members.token (m : Members) : Token :=
  .set m.negated (if m.ranging then ('-', '-') :: m.ranges else m.ranges).reverse

/-- The open groups, innermost first: the tokens before each and its finished alternatives. All
lists stand last first. -/
abbrev Groups := List (List Token × List (List Token))

/-- What `**` means after the tokens of the current alternative and the character `prev`, and
whether it takes the next character, a slash, with it. Tokens stand last first. -/
def doubleStar (grouped : Bool) (tokens : List Token) (prev next : Option Char) :
    List Token × Bool :=
  let plain := (.star :: .star :: tokens, false)
  if tokens.isEmpty then
    match next with
    | none => ([.leading], false)
    | some c => if c = '/' then ([.leading], true) else plain
  else if prev ≠ some '/' && !(grouped && (prev = some ',' || prev = some '\x7b')) then plain
  else
    let put (t : Token) : List Token :=
      match tokens with
      | .leading :: rest => .leading :: rest
      | .trailing :: rest => .trailing :: rest
      | _ :: rest => t :: rest
      | [] => [t]
    match next with
    | none => (put .trailing, false)
    | some c =>
      if c = '/' then (put .between, true)
      else if grouped && (c = ',' || c = '\x7d') then (put .trailing, false)
      else plain

def read (members : Option Members) (groups : Groups) (tokens : List Token) (prev : Option Char) :
    List Char → Except Fault (List Token)
  | [] =>
    if members.isSome then .error .unclosedSet
    else if groups.isEmpty then .ok tokens.reverse
    else .error .unclosed
  | c :: cs =>
    match members with
    | some m =>
      if m.opened && m.ranges.isEmpty && !m.negated && (c = '!' || c = '^') && prev = some '[' then
        read (some { m with negated := true }) groups tokens (some c) cs
      else if c = ']' && !m.opened then read none groups (m.token :: tokens) (some c) cs
      else
        match m.add c with
        | .error e => .error e
        | .ok m => read (some m) groups tokens (some c) cs
    | none =>
      if c = '?' then read none groups (.any :: tokens) (some c) cs
      else if c = '[' then read (some ⟨false, [], true, false⟩) groups tokens (some c) cs
      else if c = '\x7b' then read none ((tokens, []) :: groups) [] (some c) cs
      else if c = '\x7d' then
        match groups with
        | [] => .error .unopened
        | (before, done) :: groups =>
          let group := .alternatives (tokens.reverse :: done).reverse
          read none groups (group :: before) (some c) cs
      else if c = ',' then
        match groups with
        | [] => read none [] (.literal c :: tokens) (some c) cs
        | (before, done) :: groups =>
          read none ((before, tokens.reverse :: done) :: groups) [] (some c) cs
      else if c = '*' then
        match cs with
        | '*' :: rest =>
          match doubleStar (!groups.isEmpty) tokens prev rest.head? with
          | (tokens, false) => read none groups tokens (some '*') rest
          | (tokens, true) =>
            match rest with
            | [] => read none groups tokens (some '/') []
            | _ :: rest => read none groups tokens (some '/') rest
        | cs => read none groups (.star :: tokens) (some c) cs
      else read none groups (.literal c :: tokens) (some c) cs

mutual
/-- The token stands for no byte and is no choice: braces without a filled alternative. -/
def Token.isVoid : Token → Bool
  | .alternatives options => allVoid options
  | _ => false

def void : List Token → Bool
  | [] => true
  | t :: ts => t.isVoid && void ts

def allVoid : List (List Token) → Bool
  | [] => true
  | ts :: rest => void ts && allVoid rest
end

end SourceDelta.Glob
