import SourceDelta.Json.Printer
import SourceDelta.Json.Reader
import SourceDelta.Proofs.Numerals

/-!
# What a JSON text is read as

A text spells a value when it has the signs of the value in order, with any
blanks between them. A text that spells a value is read as that value, and both
printers spell the values that they print.
-/

set_option autoImplicit false

namespace SourceDelta.Json
open SourceDelta.Text

theorem eq_of_isSpace {c : Char} (h : isSpace c = true) :
    c = ' ' ∨ c = '\t' ∨ c = '\n' ∨ c = '\r' := by
  simpa [isSpace, or_assoc] using h

def Blank (s : List Char) : Prop := ∀ c ∈ s, isSpace c = true

def Stops (rest : List Char) : Prop :=
  ∀ c ∈ rest.head?, isSpace c = true ∨ c = ',' ∨ c = ']' ∨ c = '\x7d'

theorem skip_blank {s : List Char} (hs : Blank s) (cs : List Char) : skip (s ++ cs) = skip cs := by
  induction s with
  | nil => rfl
  | cons c s ih =>
    have hc := hs c (by simp)
    rw [skip, List.cons_append, List.dropWhile_cons_of_pos (by simpa using hc)]
    exact ih fun d hd => hs d (by simp [hd])

theorem skip_cons {c : Char} (h : isSpace c = false) (cs : List Char) : skip (c :: cs) = c :: cs := by
  rw [skip, List.dropWhile_cons_of_neg (by simp [h])]

theorem stops_blank {s : List Char} (hs : Blank s) {c : Char} (hc : c = ',' ∨ c = ']' ∨ c = '\x7d')
    (cs : List Char) : Stops (s ++ c :: cs) := by
  cases s with
  | nil =>
    intro d hd
    cases hd
    exact .inr hc
  | cons b s =>
    intro d hd
    cases hd
    exact .inl (hs b (by simp))

theorem hexValue?_digitChar : ∀ n, n < 16 → hexValue? (Nat.digitChar n) = some n := by decide

theorem stringTail?_plain {c : Char} (h1 : c ≠ '"') (h2 : c ≠ '\\') (h3 : ¬ c.toNat < 32)
    (cs : List Char) :
    stringTail? (c :: cs) = (stringTail? cs).map fun p => (c :: p.1, p.2) := by
  rw [stringTail?.eq_def]
  split
  next h => cases h
  next h => cases h; exact absurd rfl h1
  next h => cases h; exact absurd rfl h2
  next h => cases h; exact absurd rfl h2
  next h =>
    cases h
    simp [h2, h3]
    cases stringTail? cs <;> rfl

theorem stringTail?_escapeChar (c : Char) (cs : List Char) :
    stringTail? (escapeChar c ++ cs) = (stringTail? cs).map fun p => (c :: p.1, p.2) := by
  unfold escapeChar
  split
  next h => subst h; simp [stringTail?, unescape?]; cases stringTail? cs <;> rfl
  split
  next h => subst h; simp [stringTail?, unescape?]; cases stringTail? cs <;> rfl
  split
  next h => subst h; simp [stringTail?, unescape?]; cases stringTail? cs <;> rfl
  split
  next h => subst h; simp [stringTail?, unescape?]; cases stringTail? cs <;> rfl
  split
  next h => subst h; simp [stringTail?, unescape?]; cases stringTail? cs <;> rfl
  split
  next h =>
    have hc : c = Char.ofNat 8 := by rw [← h, Char.ofNat_toNat]
    subst hc; simp [stringTail?, unescape?]; cases stringTail? cs <;> rfl
  split
  next h =>
    have hc : c = Char.ofNat 12 := by rw [← h, Char.ofNat_toNat]
    subst hc; simp [stringTail?, unescape?]; cases stringTail? cs <;> rfl
  split
  next h =>
    have h1 := hexValue?_digitChar (c.toNat / 16) (by omega)
    have h2 := hexValue?_digitChar (c.toNat % 16) (by omega)
    have h0 : hexValue? '0' = some 0 := by decide
    have hv : c.toNat / 16 * 16 + c.toNat % 16 = c.toNat := by omega
    have hsmall : c.toNat < 0xD800 := by omega
    simp [stringTail?, hex?, h0, h1, h2]
    rw [hv, if_pos (.inl hsmall), Char.ofNat_toNat]
    cases stringTail? cs <;> rfl
  next h1 h2 _ _ _ _ _ h3 => exact stringTail?_plain h1 h2 h3 cs

theorem stringTail?_quote (s : String) (rest : List Char) :
    stringTail? (s.toList.flatMap escapeChar ++ '"' :: rest) = some (s.toList, rest) := by
  induction s.toList with
  | nil => simp [stringTail?]
  | cons c cs ih =>
    rw [List.flatMap_cons, List.append_assoc, stringTail?_escapeChar, ih]
    rfl

theorem Stops.digitsEnd {rest : List Char} (h : Stops rest) : DigitsEnd rest := by
  intro c hc
  rcases h c hc with hs | rfl | rfl | rfl
  · rcases eq_of_isSpace hs with rfl | rfl | rfl | rfl <;> decide
  · decide
  · decide
  · decide

theorem Stops.fraction? {rest : List Char} (h : Stops rest) : fraction? rest = some ([], rest) := by
  cases rest with
  | nil => rfl
  | cons c cs =>
    have hc : c ≠ '.' := by
      rintro rfl
      rcases h _ rfl with h | h | h | h <;> revert h <;> decide
    rw [Json.fraction?]
    rintro cs' he
    exact absurd (List.cons.inj he).1 hc

theorem Stops.exponent? {rest : List Char} (h : Stops rest) :
    exponent? rest = some (none, rest) := by
  cases rest with
  | nil => rfl
  | cons c cs =>
    have he : c ≠ 'e' := by
      rintro rfl
      rcases h _ rfl with h | h | h | h <;> revert h <;> decide
    have hE : c ≠ 'E' := by
      rintro rfl
      rcases h _ rfl with h | h | h | h <;> revert h <;> decide
    simp [Json.exponent?, he, hE]

theorem numeral?_toDigits (n : Nat) {rest : List Char} (h : Stops rest) :
    numeral? (Nat.toDigits 10 n ++ rest) = some (⟨false, Nat.toDigits 10 n, [], none⟩, rest) := by
  have hds : ∀ c ∈ Nat.toDigits 10 n, isDigit c = true := fun _ hc => isDigit_of_mem_toDigits hc
  have hlead : ¬ (1 < (Nat.toDigits 10 n).length ∧ (Nat.toDigits 10 n).head? = some '0') := by
    rintro ⟨hlen, hhead⟩
    cases n with
    | zero => simp [Nat.toDigits_zero] at hlen
    | succ n => exact head?_toDigits (Nat.succ_pos n) hhead
  have hsign : ∀ cs, Nat.toDigits 10 n ++ rest ≠ '-' :: cs := by
    intro cs he
    obtain ⟨d, ds, hd⟩ := List.exists_cons_of_ne_nil (Nat.toDigits_ne_nil (n := n))
    rw [hd] at he
    have hminus := hds d (by simp [hd])
    rw [(List.cons.inj he).1] at hminus
    revert hminus
    decide
  unfold numeral?
  split
  next negative cs he =>
    split at he
    next cs' hc => exact absurd hc (hsign cs')
    next =>
      cases he
      simp only [takeWhile_digits hds h.digitsEnd, dropWhile_digits hds h.digitsEnd]
      rw [if_neg]
      · simp [h.fraction?, h.exponent?]
      · simp only [Bool.or_eq_true, Bool.and_eq_true, decide_eq_true_eq, Nat.toDigits_ne_nil, false_or]
        exact hlead

theorem accumulate_digits (ds : List Char) (v : Nat)
    (h : ds.foldl (fun v d => v * 10 + digitValue d) v < 2 ^ 64) :
    accumulate v ds = (ds.foldl (fun v d => v * 10 + digitValue d) v, []) := by
  induction ds generalizing v with
  | nil => rfl
  | cons d ds ih =>
    rw [List.foldl_cons] at h ⊢
    have hle : ∀ (ds : List Char) (u : Nat),
        u ≤ ds.foldl (fun v d => v * 10 + digitValue d) u := by
      intro ds
      induction ds with
      | nil => exact fun u => Nat.le_refl u
      | cons e es ih =>
        intro u
        have := ih (u * 10 + digitValue e)
        rw [List.foldl_cons]
        omega
    have hsmall : v * 10 + digitValue d < UInt64.size := Nat.lt_of_le_of_lt (hle ds _) h
    simp only [accumulate, hsmall, if_true]
    exact ih _ h

theorem number?_signed (negative : Bool) {n : Nat} (h : n < 2 ^ 64) :
    Numeral.number? ⟨negative, Nat.toDigits 10 n, [], none⟩ = integerOf negative n := by
  have hv := valueIn_toDigits n
  rw [valueIn] at hv
  have := accumulate_digits (Nat.toDigits 10 n) 0 (by rw [hv]; exact h)
  rw [hv] at this
  simp [Numeral.number?, this]

theorem number?_toDigits {n : Nat} (h : n < 2 ^ 64) :
    Numeral.number? ⟨false, Nat.toDigits 10 n, [], none⟩ = some (.integer n) :=
  number?_signed false h

mutual
/-- The text has the signs of a value that nests at most so deep, where everything in it is
wanted. -/
inductive Spells : Wanted → Nat → Json → List Char → Prop
  | null {w : Wanted} {d : Nat} : Spells w d .null "null".toList
  | yes {w : Wanted} {d : Nat} : Spells w d (.bool true) "true".toList
  | no {w : Wanted} {d : Nat} : Spells w d (.bool false) "false".toList
  | natural {w : Wanted} {d n : Nat} (small : n < 2 ^ 64) :
    Spells w d (.ofNat n) (Nat.toDigits 10 n)
  | string {w : Wanted} {d : Nat} (s : String) : Spells w d (.string s) (quote s)
  | emptyArray {w : Wanted} {d : Nat} {s : List Char} (blank : Blank s) :
    Spells w (d + 1) (.array []) ('[' :: s ++ [']'])
  | array {w : Wanted} {d : Nat} {xs : List Json} {cs : List Char}
    (items : SpellsItems w d 0 xs cs) : Spells w (d + 1) (.array xs) ('[' :: cs ++ [']'])
  | emptyObject {w : Wanted} {d : Nat} {s : List Char} (blank : Blank s) :
    Spells w (d + 1) (.object []) ('\x7b' :: s ++ ['\x7d'])
  | object {w : Wanted} {d : Nat} {ms : List (String × Json)} {cs : List Char}
    (members : SpellsMembers w d ms cs) : Spells w (d + 1) (.object ms) ('\x7b' :: cs ++ ['\x7d'])

inductive SpellsItems : Wanted → Nat → Nat → List Json → List Char → Prop
  | last {w : Wanted} {d i : Nat} {x : Json} {s cs t : List Char} (before : Blank s)
    (item : Spells (w.item i) d x cs) (after : Blank t) : SpellsItems w d i [x] (s ++ cs ++ t)
  | cons {w : Wanted} {d i : Nat} {x : Json} {xs : List Json} {s cs t rest : List Char}
    (before : Blank s) (item : Spells (w.item i) d x cs) (after : Blank t)
    (items : SpellsItems w d (i + 1) xs rest) :
    SpellsItems w d i (x :: xs) (s ++ cs ++ t ++ ',' :: rest)

inductive SpellsMembers : Wanted → Nat → List (String × Json) → List Char → Prop
  | last {w w' : Wanted} {d : Nat} {k : String} {x : Json} {s t u cs r : List Char}
    (before : Blank s) (wanted : w.member? k = some w') (name : Blank t) (value : Blank u)
    (item : Spells w' d x cs) (after : Blank r) :
    SpellsMembers w d [(k, x)] (s ++ quote k ++ t ++ ':' :: (u ++ cs ++ r))
  | cons {w w' : Wanted} {d : Nat} {k : String} {x : Json} {ms : List (String × Json)}
    {s t u cs r rest : List Char} (before : Blank s) (wanted : w.member? k = some w')
    (name : Blank t) (value : Blank u) (item : Spells w' d x cs) (after : Blank r)
    (members : SpellsMembers w d ms rest) :
    SpellsMembers w d ((k, x) :: ms) (s ++ quote k ++ t ++ ':' :: (u ++ cs ++ r ++ ',' :: rest))
end

theorem Spells.head {w : Wanted} {d : Nat} {j : Json} {cs : List Char} (h : Spells w d j cs) :
    ∃ c rest, cs = c :: rest ∧ isSpace c = false ∧ c ≠ ']' ∧ c ≠ '\x7d' := by
  cases h with
  | natural small =>
    rename_i n
    obtain ⟨c, rest, hc⟩ := List.exists_cons_of_ne_nil (Nat.toDigits_ne_nil (n := n))
    refine ⟨c, rest, hc, ?_⟩
    have hd : isDigit c = true := isDigit_of_mem_toDigits (n := n) (by simp [hc])
    refine ⟨?_, ?_, ?_⟩
    · rw [Bool.eq_false_iff]
      intro hs
      rcases eq_of_isSpace hs with rfl | rfl | rfl | rfl <;> revert hd <;> decide
    · rintro rfl
      revert hd
      decide
    · rintro rfl
      revert hd
      decide
  | null => exact ⟨_, _, rfl, by decide, by decide, by decide⟩
  | yes => exact ⟨_, _, rfl, by decide, by decide, by decide⟩
  | no => exact ⟨_, _, rfl, by decide, by decide, by decide⟩
  | string s => exact ⟨_, _, rfl, by decide, by decide, by decide⟩
  | emptyArray => exact ⟨_, _, rfl, by decide, by decide, by decide⟩
  | array => exact ⟨_, _, rfl, by decide, by decide, by decide⟩
  | emptyObject => exact ⟨_, _, rfl, by decide, by decide, by decide⟩
  | object => exact ⟨_, _, rfl, by decide, by decide, by decide⟩

theorem Spells.skip {w : Wanted} {d : Nat} {j : Json} {s cs : List Char} (h : Spells w d j cs)
    (hs : Blank s) (rest : List Char) : Json.skip (s ++ cs ++ rest) = cs ++ rest := by
  obtain ⟨c, cs', rfl, hc, -, -⟩ := h.head
  rw [List.append_assoc, skip_blank hs, List.cons_append, skip_cons hc]

/-- What a numeral starts with. -/
def Signs (c : Char) : Prop := c = '-' ∨ isDigit c = true

theorem Signs.not_mem {c : Char} (h : Signs c) :
    c ∉ ['"', '[', '\x7b', 'n', 't', 'f', ']', '\x7d'] := by
  intro hc
  simp only [List.mem_cons, List.not_mem_nil, or_false] at hc
  rcases hc with rfl | rfl | rfl | rfl | rfl | rfl | rfl | rfl <;>
    rcases h with h | h <;> revert h <;> decide

theorem Signs.unlike {c : Char} (h : Signs c) (t : List Char) :
    c ≠ '"' ∧ c ≠ '[' ∧ c ≠ '\x7b' ∧ after? "null".toList (c :: t) = none ∧
      after? "true".toList (c :: t) = none ∧ after? "false".toList (c :: t) = none := by
  have hne := h.not_mem
  simp only [List.mem_cons, List.not_mem_nil, or_false, not_or] at hne
  obtain ⟨hquote, hbracket, hbrace, hn, ht, hf, -⟩ := hne
  exact ⟨hquote, hbracket, hbrace, by simp [after?, Ne.symm hn], by simp [after?, Ne.symm ht],
    by simp [after?, Ne.symm hf]⟩

theorem value?_of_signs {fuel d : Nat} {w : Wanted} {c : Char} {cs t : List Char}
    (hcs : skip cs = c :: t) (hc : Signs c) : value? (fuel + 1) d w cs = (do
      let (n, rest) ← numeral? (c :: t)
      some (.number (← n.number?), rest)) := by
  obtain ⟨hquote, hbracket, hbrace, hnull, hyes, hno⟩ := hc.unlike t
  rw [value?, hcs]
  split
  next h => exact absurd (List.cons.inj h).1 hquote
  next h => exact absurd (List.cons.inj h).1 hbracket
  next h => exact absurd (List.cons.inj h).1 hbrace
  next => rw [hnull, hyes, hno]

theorem past?_of_signs {fuel : Nat} {c : Char} {cs t : List Char} (hcs : skip cs = c :: t)
    (hc : Signs c) : past? (fuel + 1) cs = (numeral? (c :: t)).map Prod.snd := by
  obtain ⟨hquote, hbracket, hbrace, hnull, hyes, hno⟩ := hc.unlike t
  rw [past?, hcs]
  split
  next h => exact absurd (List.cons.inj h).1 hquote
  next h => exact absurd (List.cons.inj h).1 hbracket
  next h => exact absurd (List.cons.inj h).1 hbrace
  next => rw [pastName?, hnull, hyes, hno, Option.none_or, Option.none_or, Option.none_or]

theorem value?_natural {fuel d n : Nat} {w : Wanted} {rest : List Char} (hn : n < 2 ^ 64)
    (hrest : Stops rest) {cs : List Char} (hcs : skip cs = Nat.toDigits 10 n ++ rest) :
    value? (fuel + 1) d w cs = some (.ofNat n, rest) := by
  obtain ⟨c, ds, hc⟩ := List.exists_cons_of_ne_nil (Nat.toDigits_ne_nil (n := n) (b := 10))
  have hd : isDigit c = true := isDigit_of_mem_toDigits (n := n) (by simp [hc])
  have hread := numeral?_toDigits n hrest
  have hnumber := number?_toDigits hn
  rw [hc, List.cons_append] at hcs hread
  rw [hc] at hnumber
  rw [value?_of_signs hcs (.inr hd), hread]
  simp [hnumber, ofNat]

theorem skip_skip (cs : List Char) : skip (skip cs) = skip cs := by
  induction cs with
  | nil => rfl
  | cons c cs ih =>
    cases hc : isSpace c with
    | true =>
      have : skip (c :: cs) = skip cs := skip_blank (s := [c]) (by simp [Blank, hc]) cs
      rw [this, ih]
    | false => rw [skip_cons hc, skip_cons hc]

theorem value?_skip (fuel d : Nat) (w : Wanted) (cs : List Char) :
    value? fuel d w (skip cs) = value? fuel d w cs := by
  cases fuel with
  | zero => simp only [value?]
  | succ fuel => rw [value?, value?, skip_skip]

theorem items?_skip (fuel d i : Nat) (w : Wanted) (cs : List Char) :
    items? fuel d w i (skip cs) = items? fuel d w i cs := by
  cases fuel with
  | zero => simp only [items?]
  | succ fuel => rw [items?, items?, value?_skip]

theorem members?_skip (fuel d : Nat) (w : Wanted) (cs : List Char) :
    members? fuel d w (skip cs) = members? fuel d w cs := by
  cases fuel with
  | zero => simp only [members?]
  | succ fuel => rw [members?, members?, skip_skip]

theorem SpellsItems.skip {w : Wanted} {d i : Nat} {xs : List Json} {cs : List Char}
    (h : SpellsItems w d i xs cs) (rest : List Char) :
    ∃ c tail, Json.skip (cs ++ rest) = c :: tail ∧ c ≠ ']' := by
  cases h with
  | last before item after =>
    obtain ⟨c, cs', rfl, hc, hb, -⟩ := item.head
    exact ⟨c, _, by rw [List.append_assoc, List.append_assoc, skip_blank before,
      List.cons_append, skip_cons hc], hb⟩
  | cons before item after items =>
    obtain ⟨c, cs', rfl, hc, hb, -⟩ := item.head
    exact ⟨c, _, by rw [List.append_assoc, List.append_assoc, List.append_assoc,
      skip_blank before, List.cons_append, skip_cons hc], hb⟩

theorem SpellsMembers.skip {w : Wanted} {d : Nat} {ms : List (String × Json)} {cs : List Char}
    (h : SpellsMembers w d ms cs) (rest : List Char) :
    ∃ tail, Json.skip (cs ++ rest) = '"' :: tail := by
  cases h with
  | last before wanted name value item after =>
    exact ⟨_, by rw [List.append_assoc, List.append_assoc, List.append_assoc, skip_blank before,
      quote, List.cons_append, List.cons_append, skip_cons (by decide)]⟩
  | cons before wanted name value item after members =>
    exact ⟨_, by rw [List.append_assoc, List.append_assoc, List.append_assoc, skip_blank before,
      quote, List.cons_append, List.cons_append, skip_cons (by decide)]⟩

/-- With so much fuel every value is read whose spelling it is enough for. -/
def ValuesRead (fuel : Nat) : Prop :=
  ∀ w d j s cs rest, Spells w d j cs → Blank s → Stops rest → 2 * cs.length + 1 ≤ fuel →
    value? fuel d w (s ++ (cs ++ rest)) = some (j, rest)

def ItemsRead (fuel : Nat) : Prop :=
  ∀ w d i xs cs rest, SpellsItems w d i xs cs → 2 * cs.length + 2 ≤ fuel →
    items? fuel d w i (cs ++ ']' :: rest) = some (xs, rest)

def MembersRead (fuel : Nat) : Prop :=
  ∀ w d ms cs rest, SpellsMembers w d ms cs → 2 * cs.length + 2 ≤ fuel →
    members? fuel d w (cs ++ '\x7d' :: rest) = some (ms, rest)

theorem skip_to {s : List Char} (hs : Blank s) {c : Char} (hc : isSpace c = false)
    (cs : List Char) : skip (s ++ c :: cs) = c :: cs := by
  rw [skip_blank hs, skip_cons hc]

theorem ValuesRead.succ {fuel : Nat} (hi : ItemsRead fuel) (hm : MembersRead fuel) :
    ValuesRead (fuel + 1) := by
  intro w d j s cs rest h hs hrest hfuel
  have hskip := h.skip hs rest
  rw [List.append_assoc] at hskip
  generalize s ++ (cs ++ rest) = text at hskip ⊢
  cases h with
  | natural small => exact value?_natural small hrest hskip
  | null => simp [value?, hskip, after?]
  | yes => simp [value?, hskip, after?]
  | no => simp [value?, hskip, after?]
  | string t =>
    have := stringTail?_quote t rest
    simp [value?, hskip, quote, this]
  | emptyArray blank =>
    have hclose := skip_to blank (c := ']') (by decide) rest
    simp only [List.cons_append, List.append_assoc, List.nil_append] at hskip
    simp [value?, hskip, hclose]
  | @array _ d _ cs items =>
    simp only [List.cons_append, List.append_assoc, List.nil_append, List.length_cons,
      List.length_append, List.length_nil] at hskip hfuel
    obtain ⟨c, tail, hc, hne⟩ := items.skip (']' :: rest)
    have hread := hi w d 0 _ cs rest items (by omega)
    rw [← items?_skip, hc] at hread
    simp [value?, hskip, hc, hne, hread]
  | emptyObject blank =>
    have hclose := skip_to blank (c := '\x7d') (by decide) rest
    simp only [List.cons_append, List.append_assoc, List.nil_append] at hskip
    simp [value?, hskip, hclose]
  | @object _ d _ cs members =>
    simp only [List.cons_append, List.append_assoc, List.nil_append, List.length_cons,
      List.length_append, List.length_nil] at hskip hfuel
    obtain ⟨tail, hc⟩ := members.skip ('\x7d' :: rest)
    have hread := hm w d _ cs rest members (by omega)
    rw [← members?_skip, hc] at hread
    simp [value?, hskip, hc, hread]

theorem ItemsRead.succ {fuel : Nat} (hv : ValuesRead fuel) (hi : ItemsRead fuel) :
    ItemsRead (fuel + 1) := by
  intro w d i xs cs rest h hfuel
  cases h with
  | @last _ _ _ x s cs t before item after =>
    simp only [List.append_assoc, List.length_append] at hfuel ⊢
    have hread := hv _ d _ _ _ (t ++ ']' :: rest) item before
      (stops_blank after (.inr (.inl rfl)) rest) (by omega)
    have hclose := skip_to after (c := ']') (by decide) rest
    simp [items?, hread, hclose]
  | @cons _ _ _ x xs s cs t tail before item after items =>
    simp only [List.append_assoc, List.cons_append, List.length_append,
      List.length_cons] at hfuel ⊢
    have hread := hv _ d _ _ _ (t ++ ',' :: (tail ++ ']' :: rest)) item before
      (stops_blank after (.inl rfl) _) (by omega)
    have hcomma := skip_to after (c := ',') (by decide) (tail ++ ']' :: rest)
    have hitems := hi w d (i + 1) _ _ rest items (by omega)
    simp [items?, hread, hcomma, hitems]

theorem members?_named {fuel d : Nat} {w w' : Wanted} {k : String} {x : Json}
    {s t text r rest : List Char} {ms : List (String × Json)} (hs : Blank s) (ht : Blank t)
    (hw : w.member? k = some w') (hread : value? fuel d w' text = some (x, r))
    (hbehind : (∃ u ys, skip r = ',' :: u ∧ members? fuel d w u = some (ys, rest) ∧
      ms = (k, x) :: ys) ∨ skip r = '\x7d' :: rest ∧ ms = [(k, x)]) :
    members? (fuel + 1) d w (s ++ (quote k ++ (t ++ ':' :: text))) = some (ms, rest) := by
  have hname := stringTail?_quote k (t ++ ':' :: text)
  have hcolon := skip_to ht (c := ':') (by decide) text
  rw [members?, skip_blank hs, quote, List.cons_append, List.cons_append, skip_cons (by decide)]
  rcases hbehind with ⟨u, ys, hcomma, hys, rfl⟩ | ⟨hclose, rfl⟩
  · simp [hname, hcolon, hw, hread, hcomma, hys]
  · simp [hname, hcolon, hw, hread, hclose]

theorem MembersRead.succ {fuel : Nat} (hv : ValuesRead fuel) (hm : MembersRead fuel) :
    MembersRead (fuel + 1) := by
  intro w d ms cs rest h hfuel
  cases h with
  | @last _ w' _ k x s t u cs r before wanted name value item after =>
    simp only [List.append_assoc, List.cons_append, List.length_append,
      List.length_cons] at hfuel ⊢
    have hread := hv w' d _ _ _ (r ++ '\x7d' :: rest) item value
      (stops_blank after (.inr (.inr rfl)) rest) (by omega)
    have hclose := skip_to after (c := '\x7d') (by decide) rest
    exact members?_named before name wanted hread (.inr ⟨hclose, rfl⟩)
  | @cons _ w' _ k x ms s t u cs r tail before wanted name value item after members =>
    simp only [List.append_assoc, List.cons_append, List.length_append,
      List.length_cons] at hfuel ⊢
    have hread := hv w' d _ _ _ (r ++ ',' :: (tail ++ '\x7d' :: rest)) item value
      (stops_blank after (.inl rfl) _) (by omega)
    have hcomma := skip_to after (c := ',') (by decide) (tail ++ '\x7d' :: rest)
    have hmembers := hm w d _ _ rest members (by omega)
    exact members?_named before name wanted hread (.inl ⟨_, _, hcomma, hmembers, rfl⟩)

theorem reads (fuel : Nat) : ValuesRead fuel ∧ ItemsRead fuel ∧ MembersRead fuel := by
  induction fuel with
  | zero =>
    refine ⟨?_, ?_, ?_⟩
    · intro w d j s cs rest h hs hrest hfuel
      omega
    · intro w d i xs cs rest h hfuel
      omega
    · intro w d ms cs rest h hfuel
      omega
  | succ fuel ih =>
    obtain ⟨hv, hi, hm⟩ := ih
    exact ⟨.succ hi hm, .succ hv hi, .succ hv hm⟩

/-- A text that spells a value is read as that value. -/
theorem take?_of_spells {w : Wanted} {j : Json} {s cs t : List Char} (h : Spells w maxDepth j cs)
    (hs : Blank s) (ht : Blank t) : take? w (String.ofList (s ++ cs ++ t)) = some j := by
  have hrest : Stops t := by
    intro c hc
    exact .inl (ht c (List.mem_of_mem_head? hc))
  have hread := (reads (2 * (s ++ cs ++ t).length + 2)).1 w maxDepth j s cs t h hs hrest (by
    simp only [List.length_append]
    omega)
  have hend : skip t = [] := by
    have := skip_blank ht []
    rw [List.append_nil] at this
    exact this
  rw [take?, String.toList_ofList]
  simp only [List.append_assoc] at hread ⊢
  rw [hread]
  simp [hend]

theorem blank_nil : Blank [] := fun _ h => absurd h (by simp)

theorem blank_newline (depth : Nat) : Blank (newline depth) := by
  intro c hc
  rcases List.mem_cons.mp hc with rfl | hc
  · decide
  · rw [(List.mem_replicate.mp hc).2]
    decide

theorem spellsItems_indented (depth : Nat) {w : Wanted} {d : Nat} (x : Json) (xs : List Json)
    (h : ∀ y ∈ x :: xs, ∀ i, Spells (w.item i) d y (indentedChars depth y)) (i : Nat)
    {s t : List Char} (hs : Blank s) (ht : Blank t) :
    SpellsItems w d i (x :: xs) (s ++ indentedItems depth (x :: xs) ++ t) := by
  induction xs generalizing x i s with
  | nil => exact .last hs (h x (by simp) i) ht
  | cons y ys ih =>
    have hrest := ih y (fun z hz => h z (by simp [hz])) (i + 1) (blank_newline depth)
    have := SpellsItems.cons hs (h x (by simp) i) blank_nil hrest
    simpa [indentedItems] using this

theorem spells_indented_array (depth : Nat) {w : Wanted} {d : Nat} (xs : List Json)
    (h : ∀ x ∈ xs, ∀ i, Spells (w.item i) d x (indentedChars (depth + 1) x)) :
    Spells w (d + 1) (.array xs) (indentedChars depth (.array xs)) := by
  cases xs with
  | nil => exact .emptyArray blank_nil
  | cons x xs =>
    have := spellsItems_indented (depth + 1) x xs h 0 (blank_newline (depth + 1))
      (blank_newline depth)
    simpa [indentedChars] using Spells.array this

theorem spellsMembers_indented (depth : Nat) {w : Wanted} {d : Nat} (m : String × Json)
    (ms : List (String × Json))
    (h : ∀ p ∈ m :: ms, ∃ w', w.member? p.1 = some w' ∧ Spells w' d p.2 (indentedChars depth p.2))
    {s t : List Char} (hs : Blank s) (ht : Blank t) :
    SpellsMembers w d (m :: ms) (s ++ indentedMembers depth (m :: ms) ++ t) := by
  have hspace : Blank [' '] := by
    intro c hc
    rw [List.mem_singleton.mp hc]
    decide
  induction ms generalizing m s with
  | nil =>
    obtain ⟨w', hw, hv⟩ := h m (by simp)
    have := SpellsMembers.last hs hw blank_nil hspace hv ht
    simpa [indentedMembers] using this
  | cons n ns ih =>
    obtain ⟨w', hw, hv⟩ := h m (by simp)
    have hrest := ih n (fun p hp => h p (by simp [hp])) (blank_newline depth)
    have := SpellsMembers.cons hs hw blank_nil hspace hv blank_nil hrest
    simpa [indentedMembers] using this

theorem spells_indented_object (depth : Nat) {w : Wanted} {d : Nat} (ms : List (String × Json))
    (h : ∀ p ∈ ms, ∃ w', w.member? p.1 = some w' ∧
      Spells w' d p.2 (indentedChars (depth + 1) p.2)) :
    Spells w (d + 1) (.object ms) (indentedChars depth (.object ms)) := by
  cases ms with
  | nil => exact .emptyObject blank_nil
  | cons m ms =>
    have := spellsMembers_indented (depth + 1) m ms h (blank_newline (depth + 1))
      (blank_newline depth)
    simpa [indentedChars] using Spells.object this

theorem take?_indented {w : Wanted} {j : Json} (h : Spells w maxDepth j (indentedChars 0 j)) :
    take? w j.indented = some j := by
  have := take?_of_spells h blank_nil blank_nil
  simpa [indented] using this

theorem spellsMembers_compact {w : Wanted} {d : Nat} (m : String × Json)
    (ms : List (String × Json))
    (h : ∀ p ∈ m :: ms, ∃ w', w.member? p.1 = some w' ∧ Spells w' d p.2 (compactChars p.2)) :
    SpellsMembers w d (m :: ms) (compactMembers (m :: ms)) := by
  induction ms generalizing m with
  | nil =>
    obtain ⟨w', hw, hv⟩ := h m (by simp)
    have := SpellsMembers.last blank_nil hw blank_nil blank_nil hv blank_nil
    simpa [compactMembers] using this
  | cons n ns ih =>
    obtain ⟨w', hw, hv⟩ := h m (by simp)
    have hrest := ih n (fun p hp => h p (by simp [hp]))
    have := SpellsMembers.cons blank_nil hw blank_nil blank_nil hv blank_nil hrest
    simpa [compactMembers] using this

theorem spells_compact_object {w : Wanted} {d : Nat} (ms : List (String × Json))
    (h : ∀ p ∈ ms, ∃ w', w.member? p.1 = some w' ∧ Spells w' d p.2 (compactChars p.2)) :
    Spells w (d + 1) (.object ms) (compactChars (.object ms)) := by
  cases ms with
  | nil => exact .emptyObject blank_nil
  | cons m ms => simpa [compactChars] using Spells.object (spellsMembers_compact m ms h)

theorem take?_compact {w : Wanted} {j : Json} (h : Spells w maxDepth j (compactChars j)) :
    take? w j.compact = some j := by
  have := take?_of_spells h blank_nil blank_nil
  simpa [compact] using this

theorem newline_not_mem_escapeChar (c : Char) : '\n' ∉ escapeChar c := by
  have hdigit : ∀ n, n < 16 → '\n' ≠ Nat.digitChar n := by decide
  unfold escapeChar
  split
  · decide
  split
  · decide
  split
  · decide
  split
  · decide
  split
  · decide
  split
  · decide
  split
  · decide
  split
  · simp [hdigit _ (show c.toNat / 16 < 16 by omega), hdigit _ (show c.toNat % 16 < 16 by omega)]
  next h _ _ _ _ _ => exact fun hm => h (List.mem_singleton.mp hm).symm

theorem newline_not_mem_quote (s : String) : '\n' ∉ quote s := by
  simp [quote, newline_not_mem_escapeChar]

end SourceDelta.Json
