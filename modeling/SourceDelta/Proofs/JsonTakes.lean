import Mathlib.Data.List.TakeWhile
import SourceDelta.Proofs.JsonReading

/-!
# What a reading takes

A string, a numeral or a name is told by the characters that are taken for it. Whatever
follows them, the same is read; only a numeral could go on, and does not where
what follows starts with the same character as before or with one that no numeral has.
-/

set_option autoImplicit false

namespace SourceDelta.Json
open SourceDelta.Text

variable {c : Char} {cs ds rest rest' s : List Char}

/-- No numeral goes on with the character. -/
def Delimits (c : Char) : Prop := isDigit c = false ∧ c ≠ '.' ∧ c ≠ 'e' ∧ c ≠ 'E'

/-- A value that ends before the one rest ends before the other. -/
def Follows (rest rest' : List Char) : Prop :=
  rest'.head? = rest.head? ∨ ∀ c ∈ rest'.head?, Delimits c

theorem Follows.refl (rest : List Char) : Follows rest rest := .inl rfl

theorem Follows.append (h : Follows rest rest') (used : List Char) :
    Follows (used ++ rest) (used ++ rest') := by
  cases used with
  | nil => exact h
  | cons c used => exact .inl rfl

theorem Follows.forall_head (h : Follows rest rest') {p : Char → Prop}
    (hp : ∀ c, Delimits c → p c) (hrest : ∀ c ∈ rest.head?, p c) : ∀ c ∈ rest'.head?, p c := by
  rcases h with h | h
  · rwa [h]
  · exact fun c hc => hp c (h c hc)

theorem Follows.digitsEnd (h : Follows rest rest') (hrest : DigitsEnd rest) : DigitsEnd rest' :=
  h.forall_head (fun _ hc => hc.1) hrest

theorem Stops.follows (h : Stops rest') (rest : List Char) : Follows rest rest' := by
  refine .inr fun c hc => ?_
  rcases h c hc with hs | rfl | rfl | rfl
  · rcases eq_of_isSpace hs with rfl | rfl | rfl | rfl <;>
      exact ⟨by decide, by decide, by decide, by decide⟩
  · exact ⟨by decide, by decide, by decide, by decide⟩
  · exact ⟨by decide, by decide, by decide, by decide⟩
  · exact ⟨by decide, by decide, by decide, by decide⟩

/-- A reading that comes from a text to a rest of it has taken the characters between them, and
comes from these to any other rest that follows. -/
def Takes (reads : List Char → List Char → Prop) (cs rest : List Char) : Prop :=
  ∃ used, cs = used ++ rest ∧ used ≠ [] ∧ ∀ rest', Follows rest rest' → reads (used ++ rest') rest'

def Unit (front : List Char) (c : Char) : Prop :=
  front ≠ [] ∧ ∀ cs, stringTail? (front ++ cs) = (stringTail? cs).map fun p => (c :: p.1, p.2)

theorem unit_escape {e : Char} (h : unescape? e = some c) : Unit ['\\', e] c := by
  have hu : e ≠ 'u' := by
    rintro rfl
    cases h
  refine ⟨by simp, fun cs => ?_⟩
  rw [List.cons_append, List.singleton_append, stringTail?]
  · rw [h, Option.bind_eq_bind, Option.bind_some]
    cases stringTail? cs <;> rfl
  · exact fun _ _ _ _ _ he => absurd he hu

theorem unit_code {a b c d : Char} {n : Nat} (hn : hex? a b c d = some n)
    (hrange : (n < 0xD800 || 0xE000 ≤ n) = true) :
    Unit ['\\', 'u', a, b, c, d] (Char.ofNat n) := by
  refine ⟨by simp, fun cs => ?_⟩
  simp only [List.cons_append, List.nil_append, stringTail?, hn, Option.bind_eq_bind,
    Option.bind_some, if_pos hrange]
  cases stringTail? cs <;> rfl

theorem unit_pair {a b c d a' b' c' d' : Char} {n m : Nat} (hn : hex? a b c d = some n)
    (hrange : ¬ (n < 0xD800 || 0xE000 ≤ n) = true) (hhigh : n < 0xDC00)
    (hm : hex? a' b' c' d' = some m) (hlow : (0xDC00 ≤ m && m < 0xE000) = true) :
    Unit ['\\', 'u', a, b, c, d, '\\', 'u', a', b', c', d']
      (Char.ofNat ((n - 0xD800) * 0x400 + (m - 0xDC00) + 0x10000)) := by
  refine ⟨by simp, fun cs => ?_⟩
  simp only [List.cons_append, List.nil_append, stringTail?, hn, hm, Option.bind_eq_bind,
    Option.bind_some, if_neg hrange, if_pos hhigh, if_pos hlow]
  cases stringTail? cs <;> rfl

theorem exists_unit (h : stringTail? cs = some (s, rest)) :
    cs = '"' :: rest ∧ s = [] ∨ ∃ front c s' cs', Unit front c ∧ cs = front ++ cs' ∧
      stringTail? cs' = some (s', rest) ∧ s = c :: s' := by
  rw [stringTail?.eq_def] at h
  split at h
  next => cases h
  next =>
    cases h
    exact .inl ⟨rfl, rfl⟩
  next a b c d cs =>
    obtain ⟨n, hn, h⟩ := Option.bind_eq_some_iff.mp h
    split at h
    next hrange =>
      obtain ⟨⟨s', rest'⟩, htail, h⟩ := Option.bind_eq_some_iff.mp h
      cases h
      exact .inr ⟨_, _, s', cs, unit_code hn hrange, rfl, htail, rfl⟩
    next hrange =>
      split at h
      next hhigh =>
        split at h
        next a' b' c' d' cs' _ =>
          obtain ⟨m, hm, h⟩ := Option.bind_eq_some_iff.mp h
          split at h
          next hlow =>
            obtain ⟨⟨s', rest'⟩, htail, h⟩ := Option.bind_eq_some_iff.mp h
            cases h
            exact .inr ⟨_, _, s', cs', unit_pair hn hrange hhigh hm hlow, rfl, htail, rfl⟩
          next => cases h
        next => cases h
      next => cases h
  next e cs hcode =>
    obtain ⟨c, hc, h⟩ := Option.bind_eq_some_iff.mp h
    obtain ⟨⟨s', rest'⟩, htail, h⟩ := Option.bind_eq_some_iff.mp h
    cases h
    exact .inr ⟨_, c, s', cs, unit_escape hc, rfl, htail, rfl⟩
  next c cs hquote hcode hescape =>
    split at h
    next => cases h
    next hplain =>
      obtain ⟨⟨s', rest'⟩, htail, h⟩ := Option.bind_eq_some_iff.mp h
      cases h
      simp only [Bool.or_eq_true, decide_eq_true_eq, not_or] at hplain
      exact .inr ⟨[c], c, s', cs,
        ⟨by simp, fun cs => stringTail?_plain hquote hplain.2 hplain.1 cs⟩, rfl, htail, rfl⟩

theorem stringTail?_takes (h : stringTail? cs = some (s, rest)) :
    Takes (fun cs rest => stringTail? cs = some (s, rest)) cs rest := by
  induction s generalizing cs with
  | nil =>
    rcases exists_unit h with ⟨rfl, -⟩ | ⟨_, _, _, _, -, -, -, hs⟩
    · exact ⟨['"'], rfl, by simp, fun _ _ => by simp [stringTail?]⟩
    · cases hs
  | cons c s ih =>
    rcases exists_unit h with ⟨-, hs⟩ | ⟨front, c, s', cs', hunit, rfl, htail, hs⟩
    · cases hs
    cases hs
    obtain ⟨used, rfl, -, hused⟩ := ih htail
    refine ⟨front ++ used, by simp, by simp [hunit.1], fun rest' hrest' => ?_⟩
    change stringTail? _ = _
    rw [List.append_assoc, hunit.2, hused rest' hrest']
    rfl

theorem pastString?_takes (h : pastString? cs = some rest) :
    Takes (fun cs rest => pastString? cs = some rest) cs rest := by
  fun_induction pastString? cs generalizing rest with
  | case1 => cases h
  | case2 cs =>
    cases h
    exact ⟨['"'], rfl, by simp, fun _ _ => by simp [pastString?]⟩
  | case3 a b c d cs hcode ih =>
    obtain ⟨used, rfl, -, hused⟩ := ih h
    exact ⟨'\\' :: 'u' :: a :: b :: c :: d :: used, rfl, by simp,
      fun rest' hrest' => by simp [pastString?, hcode, hused rest' hrest']⟩
  | case4 => cases h
  | case5 e cs hnot hescape ih =>
    obtain ⟨used, rfl, -, hused⟩ := ih h
    have hu : e ≠ 'u' := by
      rintro rfl
      cases hescape
    exact ⟨'\\' :: e :: used, rfl, by simp,
      fun rest' hrest' => by simp [pastString?, hu, hescape, hused rest' hrest']⟩
  | case6 => cases h
  | case7 => cases h
  | case8 c cs hquote hcode hnot hplain ih =>
    obtain ⟨used, rfl, -, hused⟩ := ih h
    have hslash : c ≠ '\\' := by
      rintro rfl
      simp at hplain
    exact ⟨c :: used, rfl, by simp, fun rest' hrest' => by
      change pastString? _ = _
      rw [List.cons_append, pastString?, if_neg hplain, hused rest' hrest']
      · exact hquote
      · exact fun _ _ _ _ _ h => absurd h hslash
      · exact fun _ _ h => absurd h hslash⟩

def unsigned? (negative : Bool) (cs : List Char) : Option (Numeral × List Char) := do
  let whole := cs.takeWhile isDigit
  if whole = [] || (1 < whole.length && whole.head? = some '0') then none
  else
    let (fraction, rest) ← fraction? (cs.dropWhile isDigit)
    let (exponent, rest) ← exponent? rest
    some (⟨negative, whole, fraction, exponent⟩, rest)

theorem numeral?_minus (cs : List Char) : numeral? ('-' :: cs) = unsigned? true cs := rfl

theorem numeral?_of_ne (h : ∀ c ∈ cs.head?, c ≠ '-') : numeral? cs = unsigned? false cs := by
  unfold numeral?
  split
  next negative cs' hsign =>
    split at hsign
    next rest => exact absurd rfl (h '-' rfl)
    next =>
      cases hsign
      rfl

theorem exists_digits (cs : List Char) : ∃ ds rest, cs = ds ++ rest ∧
    cs.takeWhile isDigit = ds ∧ cs.dropWhile isDigit = rest ∧ (∀ c ∈ ds, isDigit c = true) ∧
    DigitsEnd rest := by
  refine ⟨_, _, List.takeWhile_append_dropWhile.symm, rfl, rfl,
    fun c hc => List.mem_takeWhile_imp hc, fun c hc => ?_⟩
  have hhead := List.head?_dropWhile_not isDigit cs
  rwa [Option.mem_def.mp hc] at hhead

theorem fraction?_of_ne (h : ∀ c ∈ cs.head?, c ≠ '.') : fraction? cs = some ([], cs) := by
  rw [Json.fraction?]
  rintro cs' rfl
  exact h '.' rfl rfl

theorem fraction?_takes {f : List Char} (h : fraction? cs = some (f, rest)) :
    ∃ used, cs = used ++ rest ∧
      ∀ rest', Follows rest rest' → fraction? (used ++ rest') = some (f, rest') := by
  by_cases hdot : cs.head? = some '.'
  rotate_left
  · have hdot : ∀ c ∈ cs.head?, c ≠ '.' := fun c hc he => hdot (he ▸ hc)
    rw [fraction?_of_ne hdot] at h
    cases h
    exact ⟨[], rfl, fun rest' hrest' =>
      fraction?_of_ne (hrest'.forall_head (fun _ hc => hc.2.1) hdot)⟩
  · obtain ⟨cs, rfl⟩ := List.head?_eq_some_iff.mp hdot
    obtain ⟨ds, rest₁, rfl, htake, hdrop, hds, hend⟩ := exists_digits cs
    rw [fraction?, htake, hdrop] at h
    cases ds with
    | nil => cases h
    | cons d ds =>
      cases h
      refine ⟨'.' :: d :: ds, rfl, fun rest' hrest' => ?_⟩
      rw [List.cons_append, fraction?, takeWhile_digits hds (hrest'.digitsEnd hend),
        dropWhile_digits hds (hrest'.digitsEnd hend)]

def signed (cs : List Char) : Bool × List Char :=
  match cs with
  | '-' :: rest => (true, rest)
  | '+' :: rest => (false, rest)
  | rest => (false, rest)

def power? (down : Bool) (cs : List Char) : Option (Option (Bool × Nat) × List Char) :=
  match cs.takeWhile isDigit with
  | [] => none
  | ds => some (some (down, valueIn 10 ds), cs.dropWhile isDigit)

theorem exponent?_cons (c : Char) (cs : List Char) : exponent? (c :: cs) =
    if (c = 'e' || c = 'E') = true then power? (signed cs).1 (signed cs).2
    else some (none, c :: cs) := rfl

theorem exponent?_of_ne (h : ∀ c ∈ cs.head?, (c = 'e' || c = 'E') = false) :
    exponent? cs = some (none, cs) := by
  cases cs with
  | nil => rfl
  | cons c cs => rw [exponent?_cons, h c rfl, if_neg Bool.false_ne_true]

theorem exists_signed (cs : List Char) : ∃ sign, cs = sign ++ (signed cs).2 ∧
    ∀ d ds, isDigit d = true → signed (sign ++ d :: ds) = ((signed cs).1, d :: ds) := by
  unfold signed
  split
  next rest => exact ⟨['-'], rfl, fun _ _ _ => rfl⟩
  next rest => exact ⟨['+'], rfl, fun _ _ _ => rfl⟩
  next =>
    refine ⟨[], rfl, fun d ds hd => ?_⟩
    rw [List.nil_append]
    split
    next h =>
      rw [(List.cons.inj h).1] at hd
      cases hd
    next h =>
      rw [(List.cons.inj h).1] at hd
      cases hd
    next => rfl

theorem exponent?_takes {x : Option (Bool × Nat)} (h : exponent? cs = some (x, rest)) :
    ∃ used, cs = used ++ rest ∧
      ∀ rest', Follows rest rest' → exponent? (used ++ rest') = some (x, rest') := by
  by_cases hmark : ∀ c ∈ cs.head?, (c = 'e' || c = 'E') = false
  · rw [exponent?_of_ne hmark] at h
    cases h
    exact ⟨[], rfl, fun rest' hrest' => exponent?_of_ne (hrest'.forall_head
      (fun c hc => by simp [hc.2.2.1, hc.2.2.2]) hmark)⟩
  cases cs with
  | nil => exact absurd (by simp) hmark
  | cons c cs =>
    have hc : (c = 'e' || c = 'E') = true := by
      rw [← Bool.not_eq_false]
      exact fun hc => hmark fun d hd => by rwa [← Option.some.inj hd]
    obtain ⟨sign, hcs, hsign⟩ := exists_signed cs
    obtain ⟨ds, rest₁, hrest, htake, hdrop, hds, hend⟩ := exists_digits (signed cs).2
    rw [exponent?_cons, if_pos hc, power?, htake, hdrop] at h
    cases ds with
    | nil => cases h
    | cons d ds =>
      cases h
      refine ⟨c :: (sign ++ d :: ds), ?_, fun rest' hrest' => ?_⟩
      · rw [List.cons_append, List.append_assoc, ← hrest, ← hcs]
      · have hdigits := hds d (by simp)
        rw [List.cons_append, exponent?_cons, if_pos hc, List.append_assoc, List.cons_append,
          hsign d _ hdigits, power?, ← List.cons_append,
          takeWhile_digits hds (hrest'.digitsEnd hend),
          dropWhile_digits hds (hrest'.digitsEnd hend)]

theorem unsigned?_takes {negative : Bool} {n : Numeral}
    (h : unsigned? negative cs = some (n, rest)) :
    Takes (fun cs rest => unsigned? negative cs = some (n, rest)) cs rest ∧
      ∀ c ∈ cs.head?, isDigit c = true := by
  obtain ⟨ds, rest₁, rfl, htake, hdrop, hds, hend⟩ := exists_digits cs
  rw [unsigned?, htake, hdrop] at h
  split at h
  next => cases h
  next hwhole =>
    obtain ⟨⟨f, rest₂⟩, hf, h⟩ := Option.bind_eq_some_iff.mp h
    obtain ⟨⟨x, rest₃⟩, hx, h⟩ := Option.bind_eq_some_iff.mp h
    cases h
    obtain ⟨u, rfl, hu⟩ := fraction?_takes hf
    obtain ⟨v, rfl, hv⟩ := exponent?_takes hx
    have hne : ds ≠ [] := by
      rintro rfl
      exact hwhole rfl
    refine ⟨⟨ds ++ (u ++ v), by simp, by simp [hne], fun rest' hrest' => ?_⟩, ?_⟩
    · have hv' := hrest'.append v
      have hdigits : DigitsEnd (u ++ (v ++ rest')) := (hv'.append u).digitsEnd hend
      change unsigned? _ _ = _
      rw [List.append_assoc, List.append_assoc, unsigned?, takeWhile_digits hds hdigits,
        dropWhile_digits hds hdigits, if_neg hwhole, hu _ hv', Option.bind_eq_bind,
        Option.bind_some]
      simp only [hv rest' hrest']
      rfl
    · obtain ⟨d, ds, rfl⟩ := List.exists_cons_of_ne_nil hne
      intro c hc
      cases hc
      exact hds d (by simp)

theorem numeral?_takes {n : Numeral} (h : numeral? cs = some (n, rest)) :
    Takes (fun cs rest => numeral? cs = some (n, rest)) cs rest ∧
      ∃ c cs', cs = c :: cs' ∧ Signs c := by
  by_cases hsign : cs.head? = some '-'
  · obtain ⟨cs, rfl⟩ := List.head?_eq_some_iff.mp hsign
    obtain ⟨⟨used, rfl, -, hused⟩, -⟩ := unsigned?_takes (numeral?_minus cs ▸ h)
    exact ⟨⟨'-' :: used, rfl, by simp, fun rest' hrest' =>
      (numeral?_minus _).trans (hused rest' hrest')⟩, '-', _, rfl, .inl rfl⟩
  · have hne : ∀ c ∈ cs.head?, c ≠ '-' := fun c hc he => hsign (he ▸ hc)
    rw [numeral?_of_ne hne] at h
    obtain ⟨⟨used, rfl, hnil, hused⟩, hdigit⟩ := unsigned?_takes h
    obtain ⟨c, used, rfl⟩ := List.exists_cons_of_ne_nil hnil
    refine ⟨⟨c :: used, rfl, hnil, fun rest' hrest' => ?_⟩, c, used ++ rest, rfl,
      .inr (hdigit c rfl)⟩
    have hplain : numeral? (c :: used ++ rest') = unsigned? false (c :: used ++ rest') :=
      numeral?_of_ne hne
    exact hplain.trans (hused rest' hrest')

def names : List (String × Json) := [("null", .null), ("true", .bool true), ("false", .bool false)]

theorem pastName?_eq_some :
    pastName? cs = some rest ↔ ∃ p ∈ names, cs = p.1.toList ++ rest := by
  constructor
  · intro h
    rw [pastName?, Option.or_eq_some_iff, Option.or_eq_some_iff] at h
    rcases h with h | ⟨-, h | ⟨-, h⟩⟩
    · exact ⟨("null", .null), by simp [names], after?_eq_some.mp h⟩
    · exact ⟨("true", .bool true), by simp [names], after?_eq_some.mp h⟩
    · exact ⟨("false", .bool false), by simp [names], after?_eq_some.mp h⟩
  · rintro ⟨p, hp, rfl⟩
    simp only [names, List.mem_cons, List.not_mem_nil, or_false] at hp
    rcases hp with rfl | rfl | rfl <;> simp [pastName?, after?]

theorem name_takes {p : String × Json} (hp : p ∈ names) (rest : List Char) :
    Takes (fun cs rest => cs = p.1.toList ++ rest) (p.1.toList ++ rest) rest := by
  refine ⟨p.1.toList, rfl, ?_, fun rest' _ => rfl⟩
  simp only [names, List.mem_cons, List.not_mem_nil, or_false] at hp
  rcases hp with rfl | rfl | rfl <;> simp

end SourceDelta.Json
