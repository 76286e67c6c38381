import SourceDelta.Glob.Expression
import SourceDelta.Glob.Matching
import SourceDelta.Text.Cut

/-!
# Globs

A glob is looked up in the cheapest way that its form allows: as a text, by the
name of a file, by the extension of a name, or else by its expression alone. The
way matters twice. A path whose last part is `..` has no file name, so nothing
that needs a name or an extension matches it; and only expressions that are
needed have to stay within the limit of depth.
-/

set_option autoImplicit false

namespace SourceDelta

structure Glob where
  tokens : List Glob.Token

namespace Glob

inductive Lookup
  /-- The path, its start or its end is compared with a text. -/
  | text
  /-- The file name, or its extension, is compared with a text. -/
  | name
  /-- Paths with an extension are matched with the expression. -/
  | extension
  | expression
  deriving DecidableEq

def literal? : Token → Option Char
  | .literal c => some c
  | _ => none

def spelled? (tokens : List Token) : Option (List Char) := tokens.mapM literal?

def spells (p : List Char → Bool) (tokens : List Token) : Bool :=
  match spelled? tokens with
  | some cs => !cs.isEmpty && p cs
  | none => false

def isAnyWithExtension : List Token → Bool
  | .star :: .literal '.' :: rest =>
    match spelled? rest with
    | some cs => !cs.contains '.' && !cs.contains '/'
    | none => false
  | _ => false

/-- A file name, or any name with an extension, in any directory; without directories a star holds
for them. -/
def needsName : List Token → Bool
  | .leading :: rest => isAnyWithExtension rest || spells (!·.contains '/') rest
  | ts => isAnyWithExtension ts

def isStart (tokens : List Token) : Bool :=
  match tokens.reverse with
  | .star :: rest => spells (fun _ => true) rest
  | .trailing :: rest => (spelled? rest).isSome
  | _ => false

def isEnding : List Token → Bool
  | .leading :: .star :: rest | .star :: rest => spells (· ≠ ['/']) rest
  | .leading :: rest => spells (fun _ => true) rest
  | _ => false

/-- The tokens, last first, spell an extension at the end: a dot, and no slash after it. -/
def endsInExtension : List Token → Bool
  | .literal c :: rest => c = '.' || (c ≠ '/' && endsInExtension rest)
  | _ => false

def lookup (g : Glob) : Lookup :=
  let ts := g.tokens
  if needsName ts then .name
  else if spells (fun _ => true) ts || isStart ts || isEnding ts then .text
  else if endsInExtension ts.reverse then .extension
  else .expression

def hasFileName (path : String) : Bool := Text.lastPart '/' path.toList ≠ ['.', '.']

def isMatch (g : Glob) (path : String) : Bool :=
  (match g.lookup with
    | .name | .extension => hasFileName path
    | .text | .expression => true) &&
    tokensMatch g.tokens (Utf8.encode path)

def anyMatch (gs : List Glob) (path : String) : Bool := gs.any (·.isMatch path)

def ofPattern (pattern : String) : Except Fault Glob :=
  (read none [] [] none (Text.forward pattern.toList)).map .mk

inductive BadPatterns
  | unreadable (pattern : String) (fault : Fault)
  /-- The expression for paths with an extension nests too deep. -/
  | deepExpression (expression : String)
  /-- Of those that are looked up by their expression alone, the one at this place nests too
  deep. -/
  | deepAt (place : Nat)
  deriving DecidableEq

def isDeep (g : Glob) : Bool := maxDepth < depth g.tokens

/-- The first glob whose expression is needed and nests too deep, those with an extension first. -/
def deep? (gs : List Glob) : Option BadPatterns :=
  match gs.find? fun g => g.lookup = .extension && g.isDeep with
  | some g => some (.deepExpression (String.ofList (expression g.tokens)))
  | none => ((gs.filter fun g => g.lookup = .expression).findIdx? isDeep).map .deepAt

/-- Reads patterns up to the first that is no glob. -/
def ofPatterns (patterns : List String) : Except BadPatterns (List Glob) := do
  let gs ← patterns.mapM fun p => (ofPattern p).mapError (.unreadable p)
  match deep? gs with
  | some bad => .error bad
  | none => .ok gs

end Glob

end SourceDelta
