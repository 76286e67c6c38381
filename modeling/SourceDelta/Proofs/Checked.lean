import SourceDelta.Text.Cut
import SourceDelta.Text.Utf8
import SourceDelta.Word

/-!
# Computations that can halt

Cutting a text at a byte, asking for a byte and counting in 32-bit words have no
answer where the byte is out of range or inside a character, or where the result is
no word. A computation that does so halts in a trap; one that only finds its input at
fault says so. The two are kept apart, so that "no trap is met" can be said of a
computation as a whole.

A byte that is no part of a longer character stands at a place where a text can be
cut, which is what the cuts below rest on.
-/

set_option autoImplicit false

namespace SourceDelta
open SourceDelta.Text

/-- What no computation may run into. -/
inductive Trap
  | cut
  | index
  | overflow
  deriving DecidableEq

/-- Why a computation ends without an answer. -/
inductive Halt (ε : Type)
  | trap (t : Trap)
  | fault (e : ε)
  deriving DecidableEq

abbrev Checked (ε α : Type) := Except (Halt ε) α

namespace Checked

variable {ε α : Type}

def trap (t : Trap) : Checked ε α := .error (.trap t)

def ofOption : Option α → Checked Unit α
  | some a => .ok a
  | none => .error (.fault ())

def ofFaults (x : Except ε α) : Checked ε α := x.mapError .fault

/-- Puts the fault in the place of a missing answer; a trap stays one. -/
def orFault (e : ε) : Checked Unit α → Checked ε α
  | .ok a => .ok a
  | .error (.fault ()) => .error (.fault e)
  | .error (.trap t) => .error (.trap t)

def optional : Checked Unit α → Checked ε (Option α)
  | .ok a => .ok (some a)
  | .error (.fault ()) => .ok none
  | .error (.trap t) => .error (.trap t)

def add (a b : UInt32) : Checked ε UInt32 :=
  match add? a b with
  | some c => .ok c
  | none => trap .overflow

def sub (a b : UInt32) : Checked ε UInt32 := if b ≤ a then .ok (a - b) else trap .overflow

def mul (a b : UInt32) : Checked ε UInt32 :=
  if a.toNat * b.toNat < UInt32.size then .ok (a * b) else trap .overflow

def floorSub (a b : UInt32) : UInt32 := if b ≤ a then a - b else 0

/-- So many bytes before an offset. Offsets into a text have no upper bound here. -/
def back (offset n : Nat) : Checked ε Nat :=
  if n ≤ offset then .ok (offset - n) else trap .overflow

def bytes (cs : List Char) : Bytes := cs.flatMap String.utf8EncodeChar

def byteLength (cs : List Char) : Nat := (bytes cs).length

/-- Cuts at a byte, where a character ends. -/
def cutAt? : List Char → Nat → Option (List Char × List Char)
  | cs, 0 => some ([], cs)
  | [], _ + 1 => none
  | c :: cs, n + 1 =>
    if c.utf8Size ≤ n + 1 then
      (cutAt? cs (n + 1 - c.utf8Size)).map fun p => (c :: p.1, p.2)
    else none

def upTo (cs : List Char) (n : Nat) : Checked ε (List Char) :=
  match cutAt? cs n with
  | some p => .ok p.1
  | none => trap .cut

def onFrom (cs : List Char) (n : Nat) : Checked ε (List Char) :=
  match cutAt? cs n with
  | some p => .ok p.2
  | none => trap .cut

def byteAt (cs : List Char) (n : Nat) : Checked ε UInt8 :=
  match (bytes cs)[n]? with
  | some b => .ok b
  | none => trap .index

def slice? (bs : Bytes) (lo hi : Nat) : Option Bytes :=
  if lo ≤ hi ∧ hi ≤ bs.length then some ((bs.take hi).drop lo) else none

def lastOffset? (mark cs : List Char) : Option Nat := (cutLast? mark cs).map (byteLength ·.1)

def letter (b : UInt8) : Char := Char.ofNat b.toNat

variable {β : Type} {a b c : UInt32} {cs u v : List Char} {d : Char} {n : Nat}

@[simp] theorem ok_bind (x : α) (f : α → Checked ε β) :
    ((.ok x : Checked ε α) >>= f) = f x := rfl

@[simp] theorem error_bind (h : Halt ε) (f : α → Checked ε β) :
    ((.error h : Checked ε α) >>= f) = .error h := rfl

@[simp] theorem ofOption_some (x : α) : ofOption (some x) = .ok x := rfl

@[simp] theorem ofOption_none : ofOption (none : Option α) = .error (.fault ()) := rfl

@[simp] theorem ofFaults_ok (x : α) : ofFaults (.ok x : Except ε α) = .ok x := rfl

@[simp] theorem ofFaults_error (e : ε) :
    ofFaults (.error e : Except ε α) = .error (.fault e) := rfl

@[simp] theorem optional_ofOption (x : Option α) :
    (optional (ofOption x) : Checked ε (Option α)) = .ok x := by
  cases x <;> rfl

theorem add_eq_ok (h : a.toNat + b.toNat = c.toNat) : (add a b : Checked ε UInt32) = .ok c := by
  rw [add, add?_eq_some.mpr h]

theorem sub_eq_ok (h : b.toNat + c.toNat = a.toNat) : (sub a b : Checked ε UInt32) = .ok c := by
  have hle : b ≤ a := UInt32.le_iff_toNat_le.mpr (by omega)
  rw [sub, if_pos hle]
  congr 1
  apply UInt32.toNat_inj.mp
  rw [UInt32.toNat_sub_of_le _ _ hle]
  omega

theorem mul_eq_ok (h : a.toNat * b.toNat = c.toNat) : (mul a b : Checked ε UInt32) = .ok c := by
  have hlt : a.toNat * b.toNat < UInt32.size := h ▸ c.toNat_lt
  rw [mul, if_pos hlt]
  congr 1
  apply UInt32.toNat_inj.mp
  rw [UInt32.toNat_mul, Nat.mod_eq_of_lt hlt, h]

theorem floorSub_toNat (a b : UInt32) : (floorSub a b).toNat = a.toNat - b.toNat := by
  rw [floorSub]
  split
  next h => rw [UInt32.toNat_sub_of_le _ _ h]
  next h =>
    rw [UInt32.le_iff_toNat_le] at h
    simp only [UInt32.toNat_zero]
    omega

theorem bytes_append (u v : List Char) : bytes (u ++ v) = bytes u ++ bytes v :=
  List.flatMap_append

theorem bytes_cons (d : Char) (cs : List Char) :
    bytes (d :: cs) = String.utf8EncodeChar d ++ bytes cs := List.flatMap_cons

theorem byteLength_append (u v : List Char) :
    byteLength (u ++ v) = byteLength u + byteLength v := by
  rw [byteLength, bytes_append, List.length_append, byteLength, byteLength]

theorem byteLength_cons (d : Char) (cs : List Char) :
    byteLength (d :: cs) = d.utf8Size + byteLength cs := by
  rw [byteLength, bytes_cons, List.length_append, String.length_utf8EncodeChar, byteLength]

theorem encode_cases (d : Char) :
    (d.toNat < 128 ∧ String.utf8EncodeChar d = [UInt8.ofNat d.toNat]) ∨
      (128 ≤ d.toNat ∧ ∀ b ∈ String.utf8EncodeChar d, 128 ≤ b.toNat) := by
  have hd : d.val.toNat = d.toNat := rfl
  have hmax : d.val.toNat < 0x110000 := by
    rcases d.valid with h | h <;> omega
  rw [String.utf8EncodeChar]
  split
  next hle => exact .inl ⟨by omega, rfl⟩
  next hgt =>
    refine .inr ⟨by omega, fun b hb => ?_⟩
    split at hb
    · simp only [List.mem_cons, List.not_mem_nil, or_false] at hb
      rcases hb with rfl | rfl <;> simp only [UInt8.toNat_ofNat'] <;> omega
    · split at hb <;> simp only [List.mem_cons, List.not_mem_nil, or_false] at hb
      · rcases hb with rfl | rfl | rfl <;> simp only [UInt8.toNat_ofNat'] <;> omega
      · rcases hb with rfl | rfl | rfl | rfl <;> simp only [UInt8.toNat_ofNat'] <;> omega

theorem encode_ascii (h : d.toNat < 128) :
    String.utf8EncodeChar d = [UInt8.ofNat d.toNat] := by
  rcases encode_cases d with ⟨-, he⟩ | ⟨hge, -⟩
  · exact he
  · omega

theorem letter_ascii (h : d.toNat < 128) : letter (UInt8.ofNat d.toNat) = d := by
  rw [letter, UInt8.toNat_ofNat', Nat.mod_eq_of_lt (by omega), Char.ofNat_toNat]

theorem letter_toNat (b : UInt8) : (letter b).toNat = b.toNat := by
  have hb := b.toNat_lt
  rw [letter, Char.ofNat, dif_pos (.inl (by omega))]
  rfl

theorem byteLength_ascii (h : ∀ c ∈ cs, c.toNat < 128) : byteLength cs = cs.length := by
  induction cs with
  | nil => rfl
  | cons c cs ih =>
    rw [byteLength_cons, ← String.length_utf8EncodeChar, encode_ascii (h c List.mem_cons_self),
      ih fun d hd => h d (List.mem_cons_of_mem _ hd), List.length_singleton, List.length_cons,
      Nat.add_comm]

theorem cutAt?_append (u v : List Char) : cutAt? (u ++ v) (byteLength u) = some (u, v) := by
  induction u with
  | nil => rw [List.nil_append]; cases v <;> rfl
  | cons d u ih =>
    obtain ⟨n, hn⟩ := Nat.exists_eq_add_of_lt (Char.utf8Size_pos d)
    have hlength : byteLength (d :: u) = (n + byteLength u) + 1 := by
      rw [byteLength_cons]
      omega
    rw [List.cons_append, hlength, cutAt?, if_pos (by omega),
      show n + byteLength u + 1 - d.utf8Size = byteLength u by omega, ih]
    rfl

theorem upTo_append (u v : List Char) : (upTo (u ++ v) (byteLength u) : Checked ε _) = .ok u := by
  rw [upTo, cutAt?_append]

theorem onFrom_append (u v : List Char) :
    (onFrom (u ++ v) (byteLength u) : Checked ε _) = .ok v := by
  rw [onFrom, cutAt?_append]

theorem byteAt_append (h : d.toNat < 128) (u v : List Char) :
    (byteAt (u ++ d :: v) (byteLength u) : Checked ε _) = .ok (UInt8.ofNat d.toNat) := by
  rw [byteAt, bytes_append, bytes_cons, encode_ascii h, byteLength,
    List.getElem?_append_right (Nat.le_refl _), Nat.sub_self]
  rfl

/-- A byte that can be a character by itself is one: the text can be cut before it. -/
theorem exists_of_byte {b : UInt8} (h : (bytes cs)[n]? = some b) (hb : b.toNat < 128) :
    ∃ u v, cs = u ++ letter b :: v ∧ n = byteLength u := by
  induction cs generalizing n with
  | nil => cases h
  | cons d cs ih =>
    rw [bytes_cons] at h
    by_cases hn : n < (String.utf8EncodeChar d).length
    · rw [List.getElem?_append_left hn] at h
      rcases encode_cases d with ⟨hlt, he⟩ | ⟨-, hge⟩
      · rw [he] at h hn
        obtain rfl : n = 0 := Nat.lt_one_iff.mp hn
        cases h
        exact ⟨[], cs, by rw [letter_ascii hlt]; rfl, rfl⟩
      · have := hge b (List.mem_of_getElem? h)
        omega
    · rw [List.getElem?_append_right (Nat.le_of_not_lt hn)] at h
      obtain ⟨u, v, rfl, hu⟩ := ih h
      refine ⟨d :: u, v, rfl, ?_⟩
      rw [String.length_utf8EncodeChar] at hn hu
      rw [byteLength_cons]
      omega

end Checked

end SourceDelta
