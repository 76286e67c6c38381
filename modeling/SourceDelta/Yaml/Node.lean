import SourceDelta.Yaml.Token

/-!
# Documents of YAML

A document is a tree of scalars, sequences and mappings. A node may carry an
anchor, and an alias stands for the node of its anchor. An anchor is known by a
number: how many names there were before it; of two nodes with one number the
later one counts. A text holds one document or none.
-/

set_option autoImplicit false

namespace SourceDelta.Yaml

inductive Node
  | scalar (anchor : Option Nat) (tag : Option Bytes) (style : Style) (text : List Char)
  | sequence (anchor : Option Nat) (items : List Node)
  | mapping (anchor : Option Nat) (pairs : List (Node × Node))
  | alias (anchor : Nat)
  deriving Inhabited

namespace Node

def empty : Node := .scalar none none .plain []

def later (a b : Option Node) : Option Node := b.or a

mutual
def find? (id : Nat) : Node → Option Node
  | .scalar a t s x => if a = some id then some (.scalar a t s x) else none
  | .sequence a items =>
    later (if a = some id then some (.sequence a items) else none) (findItem? id items)
  | .mapping a pairs =>
    later (if a = some id then some (.mapping a pairs) else none) (findPair? id pairs)
  | .alias _ => none

def findItem? (id : Nat) : List Node → Option Node
  | [] => none
  | n :: ns => later (find? id n) (findItem? id ns)

def findPair? (id : Nat) : List (Node × Node) → Option Node
  | [] => none
  | (k, v) :: ps => later (later (find? id k) (find? id v)) (findPair? id ps)
end

def resolve? (document : Node) : Node → Option Node
  | .alias id => document.find? id
  | n => some n

end Node

structure Reading where
  tokens : List Token
  handles : List (List Char × Bytes)
  anchors : List (List Char × Nat)

abbrev Reader := StateT Reading Option

namespace Reader

def fail {α : Type} : Reader α := fun _ => none

def peek : Reader (Option Token) := do return (← get).tokens.head?

def skip : Reader Unit := modify fun r => { r with tokens := r.tokens.tail }

def accept (t : Token) : Reader Bool := do
  if (← peek) = some t then
    skip
    return true
  else return false

def nextIn (ts : List Token) : Reader Bool := do
  match ← peek with
  | some t => return ts.contains t
  | none => return false

def bindAnchor (name : List Char) : Reader Nat := do
  let r ← get
  let id := r.anchors.length
  set { r with anchors := (name, id) :: r.anchors.filter (·.1 ≠ name) }
  return id

def aliasOf (name : List Char) : Reader Node := do
  match (← get).anchors.lookup name with
  | some id => return .alias id
  | none => fail

def tagOf (handle : List Char) (rest : Bytes) : Reader Bytes := do
  if handle.isEmpty then return rest
  else
    match (← get).handles.lookup handle with
    | some meaning => return meaning ++ rest
    | none => fail

def properties : Reader (Option Nat × Option Bytes × Bool) := do
  let anchor : Reader (Option Nat) := do
    match ← peek with
    | some (.anchor name) => do
      skip
      return some (← bindAnchor name)
    | _ => return none
  match ← anchor, ← peek with
  | a, some (.tag handle rest) => do
    skip
    let a ← match a with
      | some a => pure (some a)
      | none => anchor
    return (a, some (← tagOf handle rest), true)
  | a, _ => return (a, none, a.isSome)

mutual
/-- Reads a node. Outside brackets it may be a collection opened by indentation, and where
`unindented` holds also a sequence that is not indented. Every node takes a token. -/
def node (block unindented : Bool) : Nat → Reader Node
  | 0 => fail
  | n + 1 => do
    match ← peek with
    | some (.alias name) => do
      skip
      aliasOf name
    | _ =>
      let (anchor, tag, present) ← properties
      match ← peek with
      | some .entry =>
        if unindented then return .sequence anchor (← unindentedItems n)
        else if present then return .scalar anchor tag .plain []
        else fail
      | some (.scalar style text) => do
        skip
        return .scalar anchor tag style text
      | some .flowSequenceStart => do
        skip
        return .sequence anchor (← flowItems n)
      | some .flowMappingStart => do
        skip
        return .mapping anchor (← flowPairs n)
      | some .sequenceStart =>
        if block then do
          skip
          return .sequence anchor (← items n)
        else if present then return .scalar anchor tag .plain []
        else fail
      | some .mappingStart =>
        if block then do
          skip
          return .mapping anchor (← pairs n)
        else if present then return .scalar anchor tag .plain []
        else fail
      | _ => if present then return .scalar anchor tag .plain [] else fail

def nodeUnless (ends : List Token) (block unindented : Bool) : Nat → Reader Node
  | 0 => fail
  | n + 1 => do
    if ← nextIn ends then return .empty else node block unindented n

def items : Nat → Reader (List Node)
  | 0 => fail
  | n + 1 => do
    if ← accept .entry then
      let i ← nodeUnless [.entry, .collectionEnd] true false n
      return i :: (← items n)
    else if ← accept .collectionEnd then return []
    else fail

def unindentedItems : Nat → Reader (List Node)
  | 0 => fail
  | n + 1 => do
    if ← accept .entry then
      let i ← nodeUnless [.entry, .key, .value, .collectionEnd] true false n
      return i :: (← unindentedItems n)
    else return []

def pairValue (ends : List Token) (block : Bool) : Nat → Reader Node
  | 0 => fail
  | n + 1 => do
    if ← accept .value then nodeUnless ends block block n else return .empty

def pairs : Nat → Reader (List (Node × Node))
  | 0 => fail
  | n + 1 => do
    let ends := [Token.key, .value, .collectionEnd]
    if ← accept .key then
      let k ← nodeUnless ends true true n
      let v ← pairValue ends true n
      return (k, v) :: (← pairs n)
    else if ← accept .collectionEnd then return []
    else fail

/-- Reads a pair that stands alone in brackets, after its key mark. Without a key the next token
is passed over. -/
def flowPair : Nat → Reader (Node × Node)
  | 0 => fail
  | n + 1 => do
    let k ←
      if ← nextIn [.value, .flowEntry, .flowSequenceEnd] then do
        skip
        pure Node.empty
      else node false false n
    return (k, ← pairValue [.flowEntry, .flowSequenceEnd] false n)

def flowItem : Nat → Reader Node
  | 0 => fail
  | n + 1 => do
    if ← accept .key then
      return .mapping none [← flowPair n]
    else node false false n

def flowItems : Nat → Reader (List Node)
  | 0 => fail
  | n + 1 => do
    if ← accept .flowSequenceEnd then return []
    else
      let i ← flowItem n
      return i :: (← moreFlowItems n)

def moreFlowItems : Nat → Reader (List Node)
  | 0 => fail
  | n + 1 => do
    if ← accept .flowEntry then flowItems n
    else if ← accept .flowSequenceEnd then return []
    else fail

def flowPairs : Nat → Reader (List (Node × Node))
  | 0 => fail
  | n + 1 => do
    if ← accept .flowMappingEnd then return []
    else
      let ends := [Token.flowEntry, .flowMappingEnd]
      let p ←
        if ← accept .key then do
          let k ← nodeUnless (.value :: ends) false false n
          pure (k, ← pairValue ends false n)
        else do
          let k ← node false false n
          pure (k, Node.empty)
      return p :: (← moreFlowPairs n)

def moreFlowPairs : Nat → Reader (List (Node × Node))
  | 0 => fail
  | n + 1 => do
    if ← accept .flowEntry then flowPairs n
    else if ← accept .flowMappingEnd then return []
    else fail
end

def commonHandles : List (List Char × Bytes) :=
  [("!".toList, asciiBytes "!".toList), ("!!".toList, asciiBytes "tag:yaml.org,2002:".toList)]

/-- Reads the directives; the version is stated at most once and every handle is declared at most
once. -/
def directives (versioned : Bool) : Nat → Reader Unit
  | 0 => fail
  | n + 1 => do
    match ← peek with
    | some (.version major minor) =>
      if versioned || major ≠ 1 || (minor ≠ 1 && minor ≠ 2) then fail
      else do
        skip
        directives true n
    | some (.handle name meaning) => do
      let r ← get
      if (r.handles.lookup name).isSome then fail
      else do
        set { r with handles := (name, meaning) :: r.handles, tokens := r.tokens.tail }
        directives versioned n
    | _ => modify fun r => { r with handles := r.handles ++ commonHandles }

def isDirective : Token → Bool
  | .version _ _ | .handle _ _ => true
  | _ => false

def content (n : Nat) : Reader Node := do
  match ← peek with
  | none | some .documentStart | some .documentEnd => return .empty
  | some t => if isDirective t then return .empty else node true false n

def document (n : Nat) : Reader (Option Node) := do
  match ← peek with
  | none => return none
  | some t =>
    let started := isDirective t || t = .documentStart
    directives false n
    let root ←
      if started then
        if ← accept .documentStart then content n else fail
      else node true false n
    if (← get).tokens.all (· = .documentEnd) then return some root else fail

end Reader

/-- The document of a text: none when the text has no document, a fault when the text is not YAML
or has a second document. -/
def Node.ofText? (text : String) : Option (Option Node) := do
  let ts ← tokens? text.toList
  let (root, _) ← (Reader.document (4 * ts.length + 4)).run ⟨ts, [], []⟩
  some root

end SourceDelta.Yaml
