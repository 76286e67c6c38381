/-!
# UTF-8

Contents of files are lists of bytes; texts are strings. Strict reading takes
valid UTF-8 only. Lossy reading puts U+FFFD in the place of every longest
stretch of bytes that starts a character and cannot finish it.
-/

set_option autoImplicit false

namespace SourceDelta

abbrev Bytes := List UInt8

namespace Utf8

def encode (s : String) : Bytes := s.toByteArray.data.toList

def decode? (bs : Bytes) : Option String := String.fromUTF8? ⟨bs.toArray⟩

theorem decode?_encode (s : String) : decode? (encode s) = some s := by
  unfold decode? encode String.fromUTF8?
  rw [Array.toArray_toList, dif_pos s.isValidUTF8]
  rfl

theorem encode_of_decode? {bs : Bytes} {s : String} (h : decode? bs = some s) : encode s = bs := by
  unfold decode? String.fromUTF8? at h
  split at h
  · cases h; rfl
  · cases h

/-- What the first byte of a character says: the value of its own bits, and between which bytes
each following byte lies. -/
def lead? (b : UInt8) : Option (Nat × List (UInt8 × UInt8)) :=
  let tail := ((0x80, 0xBF) : UInt8 × UInt8)
  if b < 0x80 then some (b.toNat, [])
  else if b < 0xC2 then none
  else if b < 0xE0 then some (b.toNat - 0xC0, [tail])
  else if b = 0xE0 then some (0, [(0xA0, 0xBF), tail])
  else if b = 0xED then some (0xD, [(0x80, 0x9F), tail])
  else if b < 0xF0 then some (b.toNat - 0xE0, [tail, tail])
  else if b = 0xF0 then some (0, [(0x90, 0xBF), tail, tail])
  else if b < 0xF4 then some (b.toNat - 0xF0, [tail, tail, tail])
  else if b = 0xF4 then some (4, [(0x80, 0x8F), tail, tail])
  else none

def replacement : Char := '\uFFFD'

/-- Reads the bytes while the character with these first bits still expects the given bytes;
an empty list expects the start of a character. -/
def lossyFrom : Nat → List (UInt8 × UInt8) → Bytes → List Char
  | _, [], [] => []
  | _, _ :: _, [] => [replacement]
  | _, [], b :: bs =>
    match lead? b with
    | none => replacement :: lossyFrom 0 [] bs
    | some (v, []) => Char.ofNat v :: lossyFrom 0 [] bs
    | some (v, r :: rs) => lossyFrom v (r :: rs) bs
  | v, (lo, hi) :: rs, b :: bs =>
    if lo ≤ b && b ≤ hi then
      let v := v * 64 + (b.toNat - 0x80)
      match rs with
      | [] => Char.ofNat v :: lossyFrom 0 [] bs
      | r :: rs => lossyFrom v (r :: rs) bs
    else
      match lead? b with
      | none => replacement :: replacement :: lossyFrom 0 [] bs
      | some (v, []) => replacement :: Char.ofNat v :: lossyFrom 0 [] bs
      | some (v, r :: rs) => replacement :: lossyFrom v (r :: rs) bs

def lossy (bs : Bytes) : String := String.ofList (lossyFrom 0 [] bs)

end Utf8

end SourceDelta
