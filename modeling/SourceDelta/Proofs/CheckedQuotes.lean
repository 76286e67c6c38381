import Mathlib.Algebra.Group.Nat.Defs
import SourceDelta.Proofs.Checked
import SourceDelta.Proofs.MarkerLines

/-!
# Quoted texts, byte by byte

A quoted text is read byte after byte up to its closing quote, and cut behind that.
The bytes of a longer character are taken one at a time and none of them is taken for
a quote, a backslash or a digit, so the reader never stands inside a character when it
meets one of these: it reads what is read character by character, and meets no trap.
-/

set_option autoImplicit false

namespace SourceDelta

namespace Diff
open SourceDelta.Text SourceDelta.Checked

namespace Checked

/-- The value of a digit; its byte must not lie below the digits. -/
def digit {ε : Type} (d : UInt8) : Checked ε UInt32 := sub d.toUInt32 0x30

def pushOctal {ε : Type} (v : UInt32) (d : UInt8) : Checked ε UInt32 := do
  let v ← mul v 8
  let d ← digit d
  add v d

def octalValue {ε : Type} (ds : Bytes) : Checked ε UInt32 := ds.foldlM pushOctal 0

def escapeAt (bs : Bytes) (i : Nat) : Checked Unit (UInt8 × Nat) := do
  let e ← ofOption bs[i + 1]?
  if isOctal (letter e) then do
    let first ← back (i + 2) 1
    let ds ← ofOption (slice? bs first (i + 4))
    if ds.all fun d => isOctal (letter d) then do
      let v ← octalValue ds
      if v < 256 then .ok (v.toUInt8, 2) else .error (.fault ())
    else .error (.fault ())
  else do
    let b ← ofOption (escape? (letter e))
    .ok (b, 0)

/-- Goes on at an offset of a quoted text, `out` being the bytes read so far. -/
def quotedFrom (cs : List Char) (i : Nat) (out : Bytes) : Checked Unit (List Char × List Char) :=
  if i < byteLength cs then do
    let b ← byteAt cs i
    if b = 0x22 then do
      let s ← ofOption (Utf8.decode? out)
      let rest ← onFrom cs (i + 1)
      .ok (s.toList, rest)
    else if b = 0x5C then do
      let (b, more) ← escapeAt (bytes cs) i
      quotedFrom cs (i + 2 + more) (out ++ [b])
    else quotedFrom cs (i + 1) (out ++ [b])
  else .error (.fault ())
termination_by byteLength cs - i

def quoted (cs : List Char) : Checked Unit (List Char × List Char) :=
  if (bytes cs).head? = some 0x22 then quotedFrom cs 1 [] else .error (.fault ())

variable {cs u v : List Char} {bs out w : Bytes} {c : Char} {b d : UInt8} {n : Nat}

theorem isOctal_iff : isOctal c = true ↔ 48 ≤ c.toNat ∧ c.toNat ≤ 55 := by
  rw [isOctal, Bool.and_eq_true, decide_eq_true_iff, decide_eq_true_iff]
  exact Iff.rfl

theorem digitValue_le (h : isOctal c = true) : digitValue c ≤ 7 := by
  have hc := isOctal_iff.mp h
  change c.toNat - 48 ≤ 7
  omega

theorem pushOctal_eq {ε : Type} (h : isOctal (letter d) = true) (hn : n * 8 + 7 < 2 ^ 32) :
    (pushOctal (UInt32.ofNat n) d : Checked ε UInt32) =
      .ok (UInt32.ofNat (n * 8 + digitValue (letter d))) := by
  have hoctal := isOctal_iff.mp h
  have hvalue := digitValue_le h
  have htoNat : ∀ {n : Nat}, n < 2 ^ 32 → (UInt32.ofNat n).toNat = n :=
    fun h => UInt32.toNat_ofNat_of_lt' h
  have hmul : (mul (UInt32.ofNat n) 8 : Checked ε UInt32) = .ok (UInt32.ofNat (n * 8)) := by
    refine mul_eq_ok ?_
    rw [htoNat (by omega), htoNat (by omega)]
    rfl
  have hdigit : (digit d : Checked ε UInt32) = .ok (UInt32.ofNat (digitValue (letter d))) := by
    refine sub_eq_ok ?_
    rw [htoNat (by omega), UInt8.toNat_toUInt32, ← letter_toNat]
    change 48 + ((letter d).toNat - 48) = (letter d).toNat
    omega
  have hadd : (add (UInt32.ofNat (n * 8)) (UInt32.ofNat (digitValue (letter d))) :
      Checked ε UInt32) = .ok (UInt32.ofNat (n * 8 + digitValue (letter d))) :=
    add_eq_ok (by rw [htoNat (by omega), htoNat (by omega), htoNat (by omega)])
  rw [pushOctal, hmul, hdigit]
  exact hadd

theorem octalValue_eq {ε : Type} {x y z : UInt8} (hx : isOctal (letter x) = true)
    (hy : isOctal (letter y) = true) (hz : isOctal (letter z) = true) :
    (octalValue [x, y, z] : Checked ε UInt32) =
      .ok (UInt32.ofNat (valueIn 8 [letter x, letter y, letter z])) := by
  have hvx := digitValue_le hx
  have hvy := digitValue_le hy
  rw [octalValue, List.foldlM_cons, show (0 : UInt32) = UInt32.ofNat 0 from rfl,
    pushOctal_eq hx (by omega)]
  change List.foldlM pushOctal _ [y, z] = _
  rw [List.foldlM_cons, pushOctal_eq hy (by omega)]
  change List.foldlM pushOctal _ [z] = _
  rw [List.foldlM_cons, pushOctal_eq hz (by omega)]
  rfl

theorem octalValue_byte {x y z : UInt8} (hx : isOctal (letter x) = true)
    (hy : isOctal (letter y) = true) (hz : isOctal (letter z) = true) :
    (octalValue [x, y, z] >>= fun v =>
      if v < 256 then .ok (v.toUInt8, 2) else .error (.fault ()) : Checked Unit (UInt8 × Nat)) =
      ofOption ((octalByte? (letter x) (letter y) (letter z)).map (·, 2)) := by
  have hv : (UInt32.ofNat (valueIn 8 [letter x, letter y, letter z])).toNat =
      valueIn 8 [letter x, letter y, letter z] := by
    have hvx := digitValue_le hx
    have hvy := digitValue_le hy
    have hvz := digitValue_le hz
    apply UInt32.toNat_ofNat_of_lt'
    change ((0 * 8 + digitValue (letter x)) * 8 + digitValue (letter y)) * 8 +
      digitValue (letter z) < 2 ^ 32
    omega
  have hlt : UInt32.ofNat (valueIn 8 [letter x, letter y, letter z]) < 256 ↔
      valueIn 8 [letter x, letter y, letter z] < 256 := by
    rw [UInt32.lt_iff_toNat_lt, hv]
    rfl
  rw [octalValue_eq hx hy hz, ok_bind, octalByte?]
  simp only [hlt, hx, hy, hz, Bool.and_self, if_true]
  split
  · rw [Option.map_some, ofOption_some]
    congr 2
    apply UInt8.toNat_inj.mp
    rw [UInt32.toNat_toUInt8, hv, UInt8.toNat_ofNat']
  · rfl

theorem encode_head (c : Char) (w : Bytes) : ∃ x xs,
    String.utf8EncodeChar c ++ w = x :: xs ∧ ((letter x = c ∧ xs = w) ∨
      (128 ≤ x.toNat ∧ 128 ≤ c.toNat)) := by
  rcases encode_cases c with ⟨hlt, he⟩ | ⟨hge, hall⟩
  · exact ⟨_, w, by rw [he]; rfl, .inl ⟨letter_ascii hlt, rfl⟩⟩
  · cases he : String.utf8EncodeChar c with
    | nil =>
      have := String.length_utf8EncodeChar c
      have := Char.utf8Size_pos c
      rw [he, List.length_nil] at *
      omega
    | cons x xs => exact ⟨x, xs ++ w, rfl, .inr ⟨hall x (he ▸ List.mem_cons_self), hge⟩⟩

theorem not_octal_of_le (h : 128 ≤ c.toNat) : isOctal c = false := by
  rw [Bool.eq_false_iff, ne_eq, isOctal_iff]
  omega

theorem not_escape_of_le (h : 128 ≤ c.toNat) : escape? c = none := by
  rw [escape?.eq_def]
  split <;> first | rfl | exact absurd h (by decide)

def octalOf (e : Char) : List Char → Option (UInt8 × Nat)
  | c :: d :: _ => (octalByte? e c d).map (·, 2)
  | _ => none

def escapeOf : List Char → Option (UInt8 × Nat)
  | [] => none
  | e :: rest => if isOctal e then octalOf e rest else (escape? e).map (·, 0)

theorem escapeAt_eq (u w : Bytes) :
    escapeAt (u ++ 0x5C :: w) u.length = ofOption (escapeOf (w.map letter)) := by
  have hfirst : (u ++ 0x5C :: w)[u.length + 1]? = w[0]? := by
    rw [List.getElem?_append_right (by omega), Nat.add_sub_cancel_left]
    rfl
  have hback : (back (u.length + 2) 1 : Checked Unit Nat) = .ok (u.length + 1) := if_pos (by omega)
  have hslice : slice? (u ++ 0x5C :: w) (u.length + 1) (u.length + 4) =
      if 3 ≤ w.length then some (w.take 3) else none := by
    rw [slice?, List.length_append, List.length_cons]
    by_cases h : 3 ≤ w.length
    · rw [if_pos h, if_pos (by omega), List.take_append, List.drop_append]
      simp
    · rw [if_neg h, if_neg (by omega)]
  rw [escapeAt, hfirst, hback]
  cases w with
  | nil => rfl
  | cons x w =>
    rw [List.getElem?_cons_zero, ofOption_some, ok_bind, ok_bind, hslice, List.map_cons, escapeOf]
    by_cases hx : isOctal (letter x) = true
    · rw [if_pos hx, if_pos hx]
      match w with
      | [] | [_] => rfl
      | y :: z :: w =>
        rw [if_pos (by simp), List.take_succ_cons, List.take_succ_cons, List.take_succ_cons,
          List.take_zero, ofOption_some, ok_bind]
        simp only [List.all_cons, List.all_nil, Bool.and_true, hx, Bool.true_and]
        by_cases hyz : (isOctal (letter y) && isOctal (letter z)) = true
        · rw [if_pos hyz]
          rw [Bool.and_eq_true] at hyz
          exact octalValue_byte hx hyz.1 hyz.2
        · rw [if_neg hyz, List.map_cons, List.map_cons, octalOf, octalByte?, hx, Bool.true_and,
            if_neg hyz]
          rfl
    · rw [if_neg hx, if_neg hx]
      cases escape? (letter x) <;> rfl

theorem octalByte?_of_le_left {e c d : Char} (h : 128 ≤ c.toNat) : octalByte? e c d = none := by
  rw [octalByte?, not_octal_of_le h, Bool.and_false, Bool.false_and]
  rfl

theorem octalByte?_of_le_right {e c d : Char} (h : 128 ≤ d.toNat) : octalByte? e c d = none := by
  rw [octalByte?, not_octal_of_le h, Bool.and_false]
  rfl

theorem octalOf_of_le (h : 128 ≤ c.toNat) (e : Char) (cs : List Char) :
    octalOf e (c :: cs) = none := by
  cases cs with
  | nil => rfl
  | cons d cs => rw [octalOf, octalByte?_of_le_left h, Option.map_none]

theorem octalOf_bytes (e : Char) (cs : List Char) :
    octalOf e ((bytes cs).map letter) = octalOf e cs := by
  match cs with
  | [] => rfl
  | c :: cs =>
    obtain ⟨x, w, hbytes, ⟨rfl, rfl⟩ | ⟨hx, hc⟩⟩ := encode_head c (bytes cs)
    · rw [bytes_cons, hbytes, List.map_cons]
      match cs with
      | [] => rfl
      | d :: cs =>
        obtain ⟨y, w, hbytes, ⟨rfl, -⟩ | ⟨hy, hd⟩⟩ := encode_head d (bytes cs)
        · rw [bytes_cons, hbytes]
          rfl
        · rw [bytes_cons, hbytes, List.map_cons, octalOf, octalOf, octalByte?_of_le_right hd,
            octalByte?_of_le_right (letter_toNat y ▸ hy)]
    · rw [bytes_cons, hbytes, List.map_cons, octalOf_of_le hc, octalOf_of_le (letter_toNat x ▸ hx)]

theorem escapeOf_bytes (cs : List Char) : escapeOf ((bytes cs).map letter) = escapeOf cs := by
  cases cs with
  | nil => rfl
  | cons e rest =>
    obtain ⟨x, w, hbytes, ⟨rfl, rfl⟩ | ⟨hx, he⟩⟩ := encode_head e (bytes rest)
    · rw [bytes_cons, hbytes, List.map_cons, escapeOf, escapeOf, octalOf_bytes]
    · rw [bytes_cons, hbytes, List.map_cons, escapeOf, escapeOf, not_octal_of_le he,
        not_octal_of_le (letter_toNat x ▸ hx), not_escape_of_le he,
        not_escape_of_le (letter_toNat x ▸ hx)]
      rfl

theorem backslash_byte (u v : List Char) :
    bytes (u ++ '\\' :: v) = bytes u ++ 0x5C :: bytes v := by
  rw [bytes_append, bytes_cons]
  rfl

theorem quotedFrom_plain {x : UInt8} (hx : (bytes cs)[n]? = some x) (hquote : x ≠ 0x22)
    (hslash : x ≠ 0x5C) : quotedFrom cs n out = quotedFrom cs (n + 1) (out ++ [x]) := by
  have hlt : n < byteLength cs := (List.getElem?_eq_some_iff.mp hx).1
  rw [quotedFrom.eq_def cs n, if_pos hlt, byteAt, hx, ok_bind, if_neg hquote, if_neg hslash]

theorem quotedFrom_plain_all {tail : Bytes} (hcs : bytes cs = bs ++ (w ++ tail))
    (hw : ∀ x ∈ w, x ≠ 0x22 ∧ x ≠ 0x5C) :
    quotedFrom cs bs.length out = quotedFrom cs (bs.length + w.length) (out ++ w) := by
  induction w generalizing bs out with
  | nil => rw [List.length_nil, Nat.add_zero, List.append_nil]
  | cons x w ih =>
    obtain ⟨hquote, hslash⟩ := hw x List.mem_cons_self
    have hx : (bytes cs)[bs.length]? = some x := by
      rw [hcs, List.getElem?_append_right (Nat.le_refl _), Nat.sub_self]
      rfl
    have hcs' : bytes cs = (bs ++ [x]) ++ (w ++ tail) := by simpa using hcs
    have hnext : quotedFrom cs (bs ++ [x]).length (out ++ [x]) =
        quotedFrom cs ((bs ++ [x]).length + w.length) (out ++ [x] ++ w) :=
      ih hcs' fun y hy => hw y (List.mem_cons_of_mem _ hy)
    rw [List.length_append, List.length_singleton] at hnext
    rw [quotedFrom_plain hx hquote hslash, hnext, List.length_cons, List.append_assoc,
      List.singleton_append]
    congr 1
    omega

theorem quotedFrom_char (hquote : c ≠ '"') (hslash : c ≠ '\\') (u v : List Char) (out : Bytes) :
    quotedFrom (u ++ c :: v) (byteLength u) out =
      quotedFrom (u ++ c :: v) (byteLength (u ++ [c])) (out ++ String.utf8EncodeChar c) := by
  have hplain : ∀ x ∈ String.utf8EncodeChar c, x ≠ 0x22 ∧ x ≠ 0x5C := by
    intro x hx
    rcases encode_cases c with ⟨hlt, he⟩ | ⟨-, hge⟩
    · rw [he, List.mem_singleton] at hx
      have hletter := hx ▸ letter_ascii hlt
      constructor <;> rintro rfl
      · exact hquote hletter.symm
      · exact hslash hletter.symm
    · have := hge x hx
      constructor <;> rintro rfl <;> exact absurd this (by decide)
  have hbytes : bytes (u ++ c :: v) = bytes u ++ (String.utf8EncodeChar c ++ bytes v) := by
    rw [bytes_append, bytes_cons]
  rw [byteLength, quotedFrom_plain_all hbytes hplain, byteLength_append, byteLength,
    byteLength_cons, String.length_utf8EncodeChar]
  rfl

theorem quotedFrom_end (u : List Char) (out : Bytes) :
    quotedFrom u (byteLength u) out = .error (.fault ()) := by
  rw [quotedFrom, if_neg (Nat.lt_irrefl _)]

theorem quotedFrom_quote (u v : List Char) (out : Bytes) :
    quotedFrom (u ++ '"' :: v) (byteLength u) out =
      ofOption ((Utf8.decode? out).map fun s => (s.toList, v)) := by
  have hlt : byteLength u < byteLength (u ++ '"' :: v) := by
    rw [byteLength_append, byteLength_cons]
    have := Char.utf8Size_pos '"'
    omega
  have hrest : (onFrom (u ++ '"' :: v) (byteLength u + 1) : Checked Unit (List Char)) = .ok v := by
    have hcut := onFrom_append (ε := Unit) (u ++ ['"']) v
    rwa [byteLength_append, List.append_assoc] at hcut
  rw [quotedFrom, if_pos hlt, byteAt_append (by decide), ok_bind, if_pos (by decide), hrest]
  cases Utf8.decode? out <;> rfl

theorem quotedFrom_slash (u v : List Char) (out : Bytes) :
    quotedFrom (u ++ '\\' :: v) (byteLength u) out = ofOption (escapeOf v) >>= fun p =>
      quotedFrom (u ++ '\\' :: v) (byteLength u + 2 + p.2) (out ++ [p.1]) := by
  have hlt : byteLength u < byteLength (u ++ '\\' :: v) := by
    rw [byteLength_append, byteLength_cons]
    have := Char.utf8Size_pos '\\'
    omega
  have hescape : escapeAt (bytes (u ++ '\\' :: v)) (byteLength u) = ofOption (escapeOf v) := by
    rw [backslash_byte, byteLength, escapeAt_eq, escapeOf_bytes]
  rw [quotedFrom, if_pos hlt, byteAt_append (by decide), ok_bind, if_neg (by decide),
    if_pos (by decide), hescape]

theorem escape?_ascii (h : escape? c = some b) : c.toNat < 128 := by
  refine Nat.lt_of_not_le fun hc => ?_
  rw [not_escape_of_le hc] at h
  cases h

theorem isOctal_ascii (h : isOctal c = true) : c.toNat < 128 := by
  have := (isOctal_iff.mp h).2
  omega

def unquote (out : Bytes) (p : Bytes × List Char) : Option (List Char × List Char) :=
  (Utf8.decode? (out ++ p.1)).map fun s => (s.toList, p.2)

theorem unquote_append (out w bs : Bytes) (tail : List Char) :
    unquote (out ++ w) (bs, tail) = unquote out (w ++ bs, tail) := by
  rw [unquote, unquote, List.append_assoc]

theorem unquote_bind (out w : Bytes) (r : Option (Bytes × List Char)) :
    (do
      let (bs, tail) ← r
      some (w ++ bs, tail) : Option (Bytes × List Char)).bind (unquote out) =
      r.bind (unquote (out ++ w)) := by
  cases r with
  | none => rfl
  | some p => exact (unquote_append out w p.1 p.2).symm

theorem quotedFrom_escape {w : List Char} (hescape : escapeOf (w ++ cs) = some (b, n))
    (hw : ∀ c ∈ w, c.toNat < 128) (hlength : w.length = n + 1) (u : List Char) (out : Bytes) :
    quotedFrom (u ++ '\\' :: (w ++ cs)) (byteLength u) out =
      quotedFrom (u ++ '\\' :: w ++ cs) (byteLength (u ++ '\\' :: w)) (out ++ [b]) := by
  have hbytes : byteLength (u ++ '\\' :: w) = byteLength u + 2 + n := by
    rw [byteLength_append, byteLength_ascii (List.forall_mem_cons.mpr ⟨by decide, hw⟩),
      List.length_cons, hlength]
    omega
  rw [quotedFrom_slash, hescape, ofOption_some, ok_bind, hbytes, List.append_assoc,
    List.cons_append]

/-- Going on with offsets comes to reading the characters that are left. -/
theorem quotedFrom_eq (u cs : List Char) (out : Bytes) :
    quotedFrom (u ++ cs) (byteLength u) out = ofOption ((quotedBytes? cs).bind (unquote out)) := by
  fun_induction quotedBytes? cs generalizing u out with
  | case1 => rw [List.append_nil, quotedFrom_end, Option.bind_none, ofOption_none]
  | case2 cs => rw [quotedFrom_quote, Option.bind_some, unquote, List.append_nil]
  | case3 => rw [quotedFrom_slash, escapeOf, ofOption_none, Option.bind_none, ofOption_none]; rfl
  | case4 e he c d cs hquote ih =>
    cases hb : octalByte? e c d with
    | none =>
      rw [quotedFrom_slash, escapeOf, if_pos he, octalOf, hb]
      rfl
    | some b =>
      have hescape : escapeOf ([e, c, d] ++ cs) = some (b, 2) := by
        change escapeOf (e :: c :: d :: cs) = _
        rw [escapeOf, if_pos he, octalOf, hb, Option.map_some]
      obtain ⟨-, hc, hd⟩ := octalByte?_isOctal hb
      have hw : ∀ x ∈ [e, c, d], x.toNat < 128 := by
        simp only [List.forall_mem_cons, List.not_mem_nil, false_implies, implies_true, and_true]
        exact ⟨isOctal_ascii he, isOctal_ascii hc, isOctal_ascii hd⟩
      have hread := quotedFrom_escape hescape hw rfl u out
      rw [ih, ← unquote_bind] at hread
      exact hread
  | case5 e rest he hrest hquote =>
    rw [quotedFrom_slash, escapeOf, if_pos he, octalOf.eq_def]
    split
    next c d cs => exact absurd rfl (hrest c d cs)
    next => rfl
  | case6 e cs he hquote ih =>
    cases hb : escape? e with
    | none =>
      rw [quotedFrom_slash, escapeOf, if_neg he, hb]
      rfl
    | some b =>
      have hescape : escapeOf ([e] ++ cs) = some (b, 0) := by
        change escapeOf (e :: cs) = _
        rw [escapeOf, if_neg he, hb, Option.map_some]
      have hread := quotedFrom_escape hescape
        (fun x hx => List.mem_singleton.mp hx ▸ escape?_ascii hb) rfl u out
      rw [ih, ← unquote_bind] at hread
      exact hread
  | case7 c cs hquote hslash ih =>
    have hread := ih (u ++ [c]) (out ++ String.utf8EncodeChar c)
    rw [List.append_assoc] at hread
    rw [quotedFrom_char hquote hslash]
    refine hread.trans ?_
    rw [← unquote_bind]

theorem quoted_eq (cs : List Char) : quoted cs = ofOption (quoted? cs) := by
  by_cases hfirst : ∃ rest, cs = '"' :: rest
  · obtain ⟨rest, rfl⟩ := hfirst
    have hread := quotedFrom_eq ['"'] rest []
    have hhead : (bytes ('"' :: rest)).head? = some 0x22 := rfl
    rw [quoted, if_pos hhead]
    refine hread.trans ?_
    rw [quoted?]
    cases quotedBytes? rest with
    | none => rfl
    | some p =>
      change ofOption (unquote [] p) =
        ofOption ((Utf8.decode? p.1).bind fun s => some (s.toList, p.2))
      rw [unquote, List.nil_append, Option.map_eq_bind]
      rfl
  · have hhead : (bytes cs).head? ≠ some 0x22 := by
      intro hhead
      rw [List.head?_eq_getElem?] at hhead
      obtain ⟨u, v, rfl, hu⟩ := exists_of_byte hhead (by decide)
      obtain rfl : u = [] := by
        cases u with
        | nil => rfl
        | cons c u =>
          rw [byteLength_cons] at hu
          have := Char.utf8Size_pos c
          omega
      exact hfirst ⟨v, rfl⟩
    rw [quoted, if_neg hhead, quoted?.eq_def]
    split
    next rest => exact absurd ⟨rest, rfl⟩ hfirst
    next => rfl

end Checked

end Diff

end SourceDelta
