import SourceDelta.Proofs.CheckedQuotes
import SourceDelta.Proofs.PlainNames

/-!
# The paths of a marker line, byte by byte

The paths are cut out of their line at offsets that bytes of it decide: the middle
one, the one where a mark is found last, the one behind a closing quote. None of the
cuts falls inside a character and no byte is asked for that is not there, so reading
the line with offsets comes to reading it character by character. The same holds of
the digits at the end of a mode line.
-/

set_option autoImplicit false

namespace SourceDelta

namespace Diff
open SourceDelta.Text SourceDelta.Checked

namespace Checked

def oldSide (cs : List Char) : Checked Unit (List Char × List Char) :=
  if startsWith ['"'] cs then do
    let (a, rest) ← quoted cs
    let rest ← ofOption (after? [' '] rest)
    .ok (a, rest)
  else do
    let i ← ofOption (lastOffset? " \"b/".toList cs)
    let a ← upTo cs i
    let rest ← onFrom cs (i + 1)
    .ok (a, rest)

/-- The new side, with or without quotes; nothing follows it. -/
def lastSide (rest : List Char) : Checked Unit (List Char) :=
  if startsWith ['"'] rest then do
    let (b, tail) ← quoted rest
    if tail = [] then .ok b else .error (.fault ())
  else .ok rest

def quotedSides (cs : List Char) : Checked Unit (List Char × List Char) := do
  let (a, rest) ← oldSide cs
  let b ← lastSide rest
  .ok (a, b)

/-- The path that is named on both sides of the middle byte. -/
def samePath {ε : Type} (cs : List Char) : Checked ε (Option (List Char)) :=
  if byteLength cs % 2 = 1 then do
    let half := byteLength cs / 2
    let b ← byteAt cs half
    if b = 0x20 then do
      let old ← upTo cs half
      let new ← onFrom cs (half + 1)
      match after? "a/".toList old, after? "b/".toList new with
      | some p, some q => .ok (if p = q then some p else none)
      | _, _ => .ok none
    else .ok none
  else .ok none

def sides (cs : List Char) : Checked Unit (List Char × List Char) := do
  if startsWith ['"'] cs || (before? ['"'] cs).isSome then do
    let (a, b) ← quotedSides cs
    let old ← ofOption (after? "a/".toList a)
    let new ← ofOption (after? "b/".toList b)
    .ok (old, new)
  else
    match ← samePath cs with
    | some p => .ok (p, p)
    | none => do
      let i ← ofOption (lastOffset? " b/".toList cs)
      let a ← upTo cs i
      let old ← ofOption (after? "a/".toList a)
      let new ← onFrom cs (i + 3)
      .ok (old, new)

def paths (line : List Char) : Checked Unit (List Char × List Char) := do
  let (old, new) ← sides (trimEnd line)
  .ok (forward old, forward new)

def trailingMode (line : List Char) : Checked Unit Permissions := do
  let word ← ofOption (lastWord? line)
  if byteLength word < 3 || !(bytes word).all (fun b => isDigit (letter b)) then .error (.fault ())
  else do
    let tail ← onFrom word (byteLength word - 4)
    if byteLength tail = 4 && !startsWith ['0'] tail then ofOption (Permissions.ofOctal? tail)
    else do
      let i ← back (byteLength word) 3
      let tail ← onFrom word i
      ofOption (Permissions.ofOctal? tail)

variable {cs : List Char} {c : Char} {n : Nat}

theorem lastOffset?_eq {mark a b : List Char} (h : cutLast? mark cs = some (a, b)) :
    lastOffset? mark cs = some (byteLength a) ∧ ∃ t, cs = a ++ (mark ++ t) ∧ b = mark ++ t := by
  obtain ⟨t, rfl⟩ := cutLast?_startsWith h
  exact ⟨by rw [lastOffset?, h]; rfl, t, cutLast?_eq_append h, rfl⟩

theorem onFrom_mark {ε : Type} {m t : List Char} (hm : m.all (·.toNat < 128) = true)
    (a : List Char) : (onFrom (a ++ (m ++ t)) (byteLength a + m.length) : Checked ε _) = .ok t := by
  have hascii : ∀ c ∈ m, c.toNat < 128 :=
    fun c hc => of_decide_eq_true (List.all_eq_true.mp hm c hc)
  have hcut := onFrom_append (ε := ε) (a ++ m) t
  rwa [byteLength_append, byteLength_ascii hascii, List.append_assoc] at hcut

def oldSide? (cs : List Char) : Option (List Char × List Char) :=
  if startsWith ['"'] cs then
    (quoted? cs).bind fun p => (after? [' '] p.2).map fun rest => (p.1, rest)
  else (cutLast? " \"b/".toList cs).map fun p => (p.1, p.2.drop 1)

def lastSide? (rest : List Char) : Option (List Char) :=
  if startsWith ['"'] rest then
    (quoted? rest).bind fun p => if p.2 = [] then some p.1 else none
  else some rest

theorem quotedSides?_eq (cs : List Char) : quotedSides? cs =
    (oldSide? cs).bind fun p => (lastSide? p.2).map fun b => (p.1, b) := by
  have hlast : ∀ a rest : List Char, (if startsWith ['"'] rest = true then do
      let (b, tail) ← quoted? rest
      if tail = [] then some (a, b) else none
    else some (a, rest)) = (lastSide? rest).map fun b => (a, b) := by
    intro a rest
    rw [lastSide?]
    split
    · cases quoted? rest with
      | none => rfl
      | some p =>
        change (if _ then _ else _) = Option.map _ (if _ then _ else _)
        split <;> rfl
    · rfl
  rw [quotedSides?, oldSide?]
  split
  · cases quoted? cs with
    | none => rfl
    | some p =>
      cases hrest : after? [' '] p.2 with
      | none => simp [hrest]
      | some rest => simpa [hrest] using hlast p.1 rest
  · cases cutLast? " \"b/".toList cs with
    | none => rfl
    | some p => exact hlast p.1 (p.2.drop 1)

theorem oldSide_eq (cs : List Char) : oldSide cs = ofOption (oldSide? cs) := by
  rw [oldSide, oldSide?]
  split
  · rw [quoted_eq]
    cases quoted? cs with
    | none => rfl
    | some p =>
      obtain ⟨a, rest⟩ := p
      rw [ofOption_some, ok_bind, Option.bind_some]
      dsimp only
      cases after? [' '] rest <;> rfl
  · cases hcut : cutLast? " \"b/".toList cs with
    | none =>
      rw [lastOffset?, hcut]
      rfl
    | some p =>
      obtain ⟨a, b⟩ := p
      obtain ⟨hoffset, t, rfl, rfl⟩ := lastOffset?_eq hcut
      have hrest := onFrom_mark (ε := Unit) (m := [' ']) (t := "\"b/".toList ++ t) (by decide) a
      rw [hoffset, ofOption_some, ok_bind, upTo_append, ok_bind]
      exact congrArg (· >>= fun rest => Except.ok (a, rest)) hrest

theorem lastSide_eq (rest : List Char) : lastSide rest = ofOption (lastSide? rest) := by
  rw [lastSide, lastSide?]
  split
  · rw [quoted_eq]
    cases quoted? rest with
    | none => rfl
    | some p =>
      change (if _ then _ else _) = ofOption (if _ then _ else _)
      split <;> rfl
  · rfl

theorem quotedSides_eq (cs : List Char) : quotedSides cs = ofOption (quotedSides? cs) := by
  rw [quotedSides, quotedSides?_eq, oldSide_eq]
  cases oldSide? cs with
  | none => rfl
  | some p =>
    rw [ofOption_some, ok_bind, Option.bind_some]
    dsimp only
    rw [lastSide_eq]
    cases lastSide? p.2 <;> rfl

theorem eq_twice_of_samePath? {p : List Char} (h : samePath? cs = some p) : cs = twice p := by
  rw [samePath?] at h
  split at h
  next =>
    dsimp only at h
    split at h
    next a b ha hb =>
      split at h
      next hab =>
        cases h
        rw [← List.take_append_drop (cs.length / 2) cs, after?_eq_some.mp ha,
          after?_eq_some.mp hb, ← hab]
        rfl
      next => cases h
    next => cases h
  next => cases h

theorem samePath_twice {ε : Type} (p : List Char) :
    (samePath (twice p) : Checked ε (Option (List Char))) = .ok (some p) := by
  have hlength : byteLength (twice p) = 2 * byteLength ("a/".toList ++ p) + 1 := by
    have ha : byteLength "a/".toList = 2 := rfl
    have hb : byteLength " b/".toList = 3 := rfl
    rw [twice, byteLength_append, byteLength_append, byteLength_append, ha, hb]
    omega
  have hhalf : byteLength (twice p) / 2 = byteLength ("a/".toList ++ p) := by omega
  have hnew := onFrom_mark (ε := ε) (m := [' ']) (t := "b/".toList ++ p) (by decide)
    ("a/".toList ++ p)
  rw [samePath, if_pos (by omega), hhalf]
  change (byteAt (("a/".toList ++ p) ++ ' ' :: ("b/".toList ++ p)) _ >>= _) = _
  rw [byteAt_append (by decide), ok_bind, if_pos (by decide)]
  change (upTo (("a/".toList ++ p) ++ ([' '] ++ ("b/".toList ++ p))) _ >>= fun _ =>
    onFrom (("a/".toList ++ p) ++ ([' '] ++ ("b/".toList ++ p))) _ >>= _) = _
  rw [upTo_append, ok_bind]
  refine (congrArg (· >>= _) hnew).trans ?_
  rw [ok_bind, after?_eq_some.mpr rfl, after?_eq_some.mpr rfl]
  exact congrArg Except.ok (if_pos rfl)

theorem samePath_eq {ε : Type} (cs : List Char) :
    (samePath cs : Checked ε (Option (List Char))) = .ok (samePath? cs) := by
  cases hsame : samePath? cs with
  | some p =>
    rw [eq_twice_of_samePath? hsame]
    exact samePath_twice p
  | none =>
    rw [samePath]
    split
    next hodd =>
      have hlt : byteLength cs / 2 < (bytes cs).length := by
        change _ < byteLength cs
        omega
      obtain ⟨x, hx⟩ : ∃ x, (bytes cs)[byteLength cs / 2]? = some x :=
        ⟨_, List.getElem?_eq_getElem hlt⟩
      dsimp only
      rw [byteAt, hx, ok_bind]
      split
      next hspace =>
        subst hspace
        obtain ⟨u, v, rfl, hu⟩ := exists_of_byte hx (by decide)
        have hnew := onFrom_mark (ε := ε) (m := [' ']) (t := v) (by decide) u
        rw [hu, upTo_append, ok_bind]
        refine (congrArg (· >>= _) hnew).trans ?_
        rw [ok_bind]
        split
        next p q hp hq =>
          split
          next hpq =>
            subst hpq
            have htwice : u ++ letter 0x20 :: v = twice p := by
              rw [after?_eq_some.mp hp, after?_eq_some.mp hq]
              rfl
            rw [htwice, samePath?_twice] at hsame
            cases hsame
          next => rfl
        next => rfl
      next => rfl
    next => rfl

theorem sides_eq (cs : List Char) : sides cs = ofOption (
    match if startsWith ['"'] cs || (before? ['"'] cs).isSome then none else samePath? cs with
    | some p => some (p, p)
    | none => do
      let (a, b) ← sides? cs
      let old ← after? "a/".toList a
      let new ← after? "b/".toList b
      some (old, new)) := by
  rw [sides, sides?]
  by_cases hquoted : (startsWith ['"'] cs || (before? ['"'] cs).isSome) = true
  · rw [if_pos hquoted, if_pos hquoted, if_pos hquoted, quotedSides_eq]
    cases quotedSides? cs with
    | none => rfl
    | some p =>
      obtain ⟨a, b⟩ := p
      simp only [ofOption_some, ok_bind, Option.bind_eq_bind, Option.bind_some]
      cases after? "a/".toList a with
      | none => rfl
      | some old => cases after? "b/".toList b <;> simp
  · rw [if_neg hquoted, if_neg hquoted, if_neg hquoted, samePath_eq, ok_bind]
    cases samePath? cs with
    | some p => rfl
    | none =>
      dsimp only
      cases hcut : cutLast? " b/".toList cs with
      | none =>
        rw [lastOffset?, hcut]
        rfl
      | some p =>
        obtain ⟨a, b⟩ := p
        obtain ⟨hoffset, t, rfl, rfl⟩ := lastOffset?_eq hcut
        have hnew := onFrom_mark (ε := Unit) (m := " b/".toList) (t := t) (by decide) a
        have hb : after? "b/".toList ((" b/".toList ++ t).drop 1) = some t :=
          after?_eq_some.mpr rfl
        rw [hoffset, ofOption_some, ok_bind, upTo_append, ok_bind]
        simp only [Option.map_some, Option.bind_eq_bind, Option.bind_some, hb]
        cases after? "a/".toList a with
        | none => rfl
        | some old => exact congrArg (· >>= fun new => Except.ok (old, new)) hnew

theorem paths_eq (line : List Char) : paths line = ofOption (paths? line) := by
  rw [paths, sides_eq, paths?]
  dsimp only
  cases (if startsWith ['"'] (trimEnd line) || (before? ['"'] (trimEnd line)).isSome then none
    else samePath? (trimEnd line)) with
  | some p => rfl
  | none =>
    cases sides? (trimEnd line) with
    | none => rfl
    | some p =>
      obtain ⟨a, b⟩ := p
      simp only [Option.bind_eq_bind, Option.bind_some]
      cases after? "a/".toList a with
      | none => rfl
      | some old => cases after? "b/".toList b <;> simp

theorem isDigit_ascii (h : isDigit c = true) : c.toNat < 128 := by
  rw [isDigit, Bool.and_eq_true, decide_eq_true_iff, decide_eq_true_iff] at h
  have hle : c.toNat ≤ '9'.toNat := h.2
  exact Nat.lt_of_le_of_lt hle (by decide)

theorem not_digit_of_le (h : 128 ≤ c.toNat) : isDigit c = false := by
  rw [Bool.eq_false_iff]
  intro hc
  have := isDigit_ascii hc
  omega

theorem digits_bytes (cs : List Char) :
    ((bytes cs).all fun b => isDigit (letter b)) = cs.all isDigit := by
  induction cs with
  | nil => rfl
  | cons c cs ih =>
    rw [List.all_cons, ← ih, bytes_cons]
    obtain ⟨x, w, hbytes, ⟨rfl, rfl⟩ | ⟨hx, hc⟩⟩ := encode_head c (bytes cs)
    · rw [hbytes, List.all_cons]
    · rw [hbytes, List.all_cons, not_digit_of_le hc, not_digit_of_le (letter_toNat x ▸ hx),
        Bool.false_and, Bool.false_and]

theorem onFrom_digits {ε : Type} (hcs : ∀ c ∈ cs, isDigit c = true) (hn : n ≤ cs.length) :
    (onFrom cs n : Checked ε (List Char)) = .ok (cs.drop n) := by
  have hlength : byteLength (cs.take n) = n := by
    rw [byteLength_ascii fun c hc => isDigit_ascii (hcs c (List.mem_of_mem_take hc)),
      List.length_take, Nat.min_eq_left hn]
  have hcut := onFrom_append (ε := ε) (cs.take n) (cs.drop n)
  rwa [hlength, List.take_append_drop] at hcut

theorem lastDigits {α : Type} (f : List Char → α) {word : List Char} (h : 3 ≤ word.length) :
    (match word.drop (word.length - 4) with
      | [d, a, b, c] => if d = '0' then f [a, b, c] else f [d, a, b, c]
      | ds => f ds) =
    if (word.drop (word.length - 4)).length = 4 &&
        !startsWith ['0'] (word.drop (word.length - 4)) then f (word.drop (word.length - 4))
    else f (word.drop (word.length - 3)) := by
  rcases Nat.eq_or_lt_of_le h with hthree | hfour
  · match word, hthree with
    | [a, b, c], _ => rfl
  · have htail : (word.drop (word.length - 4)).length = 4 := by
      rw [List.length_drop]
      omega
    have hdrop : word.drop (word.length - 3) = (word.drop (word.length - 4)).drop 1 := by
      rw [List.drop_drop]
      congr 1
      omega
    rw [hdrop]
    match hds : word.drop (word.length - 4), htail with
    | [d, a, b, c], _ =>
      by_cases hd : d = '0'
      · subst hd
        rfl
      · have hstart : startsWith ['0'] [d, a, b, c] = false := by
          rw [startsWith, after?, if_neg (Ne.symm hd)]
          rfl
        simp [hd, hstart]

theorem trailingMode_eq (line : List Char) :
    trailingMode line = ofOption (Permissions.trailing? line) := by
  rw [trailingMode, Permissions.trailing?]
  cases lastWord? line with
  | none => rfl
  | some word =>
    rw [ofOption_some, ok_bind, digits_bytes]
    simp only [Option.bind_eq_bind, Option.bind_some]
    cases hdigits : word.all isDigit with
    | false => simp
    | true =>
      have hall : ∀ c ∈ word, isDigit c = true := List.all_eq_true.mp hdigits
      have hlength : byteLength word = word.length :=
        byteLength_ascii fun c hc => isDigit_ascii (hall c hc)
      rw [hlength]
      by_cases hshort : word.length < 3
      · simp [hshort]
      · have hback : (back word.length 3 : Checked Unit Nat) = .ok (word.length - 3) :=
          if_pos (by omega)
        have htail : byteLength (word.drop (word.length - 4)) =
            (word.drop (word.length - 4)).length :=
          byteLength_ascii fun c hc => isDigit_ascii (hall c (List.mem_of_mem_drop hc))
        have hcond : (decide (word.length < 3) || !true) = false := by simp [hshort]
        rw [onFrom_digits hall (by omega), ok_bind, htail, hback, ok_bind,
          onFrom_digits hall (by omega), ok_bind, hcond]
        simp only [Bool.false_eq_true, if_false]
        refine Eq.trans ?_
          (congrArg ofOption (lastDigits Permissions.ofOctal? (Nat.le_of_not_lt hshort)).symm)
        split <;> rfl

end Checked

end Diff

end SourceDelta
