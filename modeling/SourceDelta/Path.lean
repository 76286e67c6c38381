import SourceDelta.Text.Cut
import SourceDelta.Text.Line

/-!
# Paths as texts

A path is a text whose names are separated by slashes. Joining, the parent and
the last name are read off the text; nothing is looked up, and `..` stays. Empty
names and `.` inside a path count as nothing.
-/

set_option autoImplicit false

namespace SourceDelta.Path
open SourceDelta.Text

/-- The system takes no path, and no argument of a command, with a NUL character. -/
def hasNul (text : String) : Bool := text.toList.contains (Char.ofNat 0)

def isAbsolute (path : String) : Bool := path.toList.head? = some '/'

def join (base path : String) : String :=
  if isAbsolute path || base = "" then path
  else if base.toList.getLast? = some '/' then base ++ path
  else base ++ "/" ++ path

def cutHead (path : String) : List Char × List (List Char) :=
  match path.toList with
  | '/' :: rest => (['/'], pieces '/' rest)
  | ['.'] => (['.'], [[]])
  | '.' :: '/' :: rest => (['.'], pieces '/' ('/' :: rest))
  | cs => ([], pieces '/' cs)

def isEmptyName (name : List Char) : Bool := name = [] || name = ['.']

def dropEmptyNames (names : List (List Char)) : List (List Char) :=
  (names.reverse.dropWhile isEmptyName).reverse

/-- The path without its last name, none for the root and the empty path. -/
def parent? (path : String) : Option String :=
  let (head, names) := cutHead path
  match dropEmptyNames names with
  | [] => if head = ['.'] then some "" else none
  | names => some (String.ofList (head ++ join '/' (dropEmptyNames names.dropLast)))
where
  join := Text.join

def fileName? (path : String) : Option String :=
  match (dropEmptyNames (cutHead path).2).getLast? with
  | none => none
  | some name => if name = ['.', '.'] then none else some (String.ofList name)

/-- The names a lookup of the path passes through, and whether the path ends in a slash. -/
def names (path : String) : List String × Bool :=
  let ps := pieces '/' path.toList
  ((ps.filter (· ≠ [])).map String.ofList, ps.getLast? = some [])

end SourceDelta.Path
