/-!
# Blank characters

A character is blank when it has the White_Space property. Trimming, and the
last word of a text, are cuts at blank characters.
-/

set_option autoImplicit false

namespace SourceDelta.Text

def isBlank (c : Char) : Bool :=
  let n := c.toNat
  (9 ≤ n && n ≤ 13) || n == 0x20 || n == 0x85 || n == 0xA0 || n == 0x1680 ||
    (0x2000 ≤ n && n ≤ 0x200A) || n == 0x2028 || n == 0x2029 || n == 0x202F ||
    n == 0x205F || n == 0x3000

def trimStart (cs : List Char) : List Char := cs.dropWhile isBlank

def trimEnd (cs : List Char) : List Char := (cs.reverse.dropWhile isBlank).reverse

def trim (cs : List Char) : List Char := trimEnd (trimStart cs)

def lastWord? (cs : List Char) : Option (List Char) :=
  match (trimEnd cs).reverse.takeWhile (!isBlank ·) with
  | [] => none
  | w => some w.reverse

def allBlank (cs : List Char) : Bool := cs.all isBlank

end SourceDelta.Text
