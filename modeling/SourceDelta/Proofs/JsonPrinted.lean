import SourceDelta.Proofs.JournalReading
import SourceDelta.Proofs.JsonDepth

/-!
# The compact text of any value

The compact text of a value has no line break. It is read as the value when its numbers are, as all
integers of 64 bits are, up to the depth that is read.
-/

set_option autoImplicit false

namespace SourceDelta
open SourceDelta.Text

namespace Double

variable {bits : UInt64} {d : Decimal}

theorem newline_not_mem_toDigits (n : Nat) : '\n' ∉ Nat.toDigits 10 n :=
  fun h => absurd (isDigit_of_mem_toDigits h) (by decide)

theorem newline_not_mem_shortest (bits : UInt64) : '\n' ∉ (shortest bits).digits := by
  unfold shortest
  dsimp only
  split
  · intro h
    have hsub := (List.dropWhile_sublist (· = '0')).subset (List.mem_reverse.mp h)
    exact newline_not_mem_toDigits _ (List.mem_reverse.mp hsub)
  · decide

theorem newline_not_mem_signed (n : Int) : '\n' ∉ signed n := by
  rw [signed]
  split <;> simp [newline_not_mem_toDigits]

theorem newline_not_mem_decimal (h : '\n' ∉ d.digits) : '\n' ∉ d.text := by
  have htake : ∀ n, '\n' ∉ d.digits.take n := fun n hm => h (List.mem_of_mem_take hm)
  have hdrop : ∀ n, '\n' ∉ d.digits.drop n := fun n hm => h (List.mem_of_mem_drop hm)
  have hzeros : ∀ n, '\n' ∉ List.replicate n '0' := fun n hm =>
    absurd (List.eq_of_mem_replicate hm) (by decide)
  rw [Decimal.text]
  split
  · split
    · simp [h, hzeros]
    · dsimp only
      split
      · simp [h, hzeros]
      · simp [htake, hdrop]
  · simp only [List.mem_append, not_or]
    refine ⟨⟨htake 1, ?_⟩, ?_⟩
    · split
      · simp
      · simpa using hdrop 1
    · simp [exponentText, newline_not_mem_signed]

theorem newline_not_mem_text (bits : UInt64) : '\n' ∉ text bits := by
  have hbody := newline_not_mem_decimal (newline_not_mem_shortest bits)
  rw [text]
  split <;> split <;> simp [hbody]

end Double

namespace Json

theorem newline_not_mem_number (n : Number) : '\n' ∉ Number.text n := by
  cases n with
  | integer n =>
    rw [Number.text.eq_def]
    dsimp only
    split <;> simp [Double.newline_not_mem_toDigits]
  | float bits => exact Double.newline_not_mem_text bits

mutual
theorem newline_not_mem_compact : ∀ j : Json, '\n' ∉ compactChars j
  | .null => by decide
  | .bool true => by decide
  | .bool false => by decide
  | .number n => newline_not_mem_number n
  | .string s => newline_not_mem_quote s
  | .array xs => by simp [compactChars, newline_not_mem_compactItems xs]
  | .object ms => by simp [compactChars, newline_not_mem_compactMembers ms]

theorem newline_not_mem_compactItems : ∀ xs : List Json, '\n' ∉ compactItems xs
  | [] => by simp [compactItems]
  | [x] => by simp [compactItems, newline_not_mem_compact x]
  | x :: y :: xs => by
    simp [compactItems, newline_not_mem_compact x, newline_not_mem_compactItems (y :: xs)]

theorem newline_not_mem_compactMembers : ∀ ms : List (String × Json), '\n' ∉ compactMembers ms
  | [] => by simp [compactMembers]
  | [(k, v)] => by simp [compactMembers, newline_not_mem_quote, newline_not_mem_compact v]
  | (k, v) :: m :: ms => by
    simp [compactMembers, newline_not_mem_quote, newline_not_mem_compact v,
      newline_not_mem_compactMembers (m :: ms)]
end

variable {d i : Nat} {w : Wanted} {j : Json} {xs : List Json} {ms : List (String × Json)}

/-- The number is read from its text. -/
def ReadBack (n : Number) : Prop :=
  ∃ m, numeral? (Number.text n) = some (m, []) ∧ m.number? = some n

theorem unsigned?_sign (negative : Bool) (cs : List Char) : unsigned? negative cs =
    (unsigned? false cs).map fun p => ({ p.1 with negative }, p.2) := by
  rw [unsigned?, unsigned?]
  dsimp only
  split
  next => rfl
  next =>
    cases fraction? (cs.dropWhile isDigit) with
    | none => rfl
    | some f =>
      simp only [Option.bind_eq_bind, Option.bind_some]
      cases exponent? f.2 <;> rfl

theorem numeral?_digits (n : Nat) :
    numeral? (Nat.toDigits 10 n) = some (⟨false, Nat.toDigits 10 n, [], none⟩, []) := by
  have hread := numeral?_toDigits n (show Stops [] by simp [Stops])
  rwa [List.append_nil] at hread

theorem numeral?_minus_digits (n : Nat) :
    numeral? ('-' :: Nat.toDigits 10 n) = some (⟨true, Nat.toDigits 10 n, [], none⟩, []) := by
  have hhead : ∀ c ∈ (Nat.toDigits 10 n).head?, c ≠ '-' := by
    rintro c hc rfl
    exact absurd (isDigit_of_mem_toDigits (List.mem_of_mem_head? hc)) (by decide)
  have hread := numeral?_digits n
  rw [numeral?_of_ne hhead] at hread
  rw [numeral?_minus, unsigned?_sign, hread]
  rfl

theorem readBack_integer {n : Int} (h : -2 ^ 63 ≤ n) (h' : n < 2 ^ 64) : ReadBack (.integer n) := by
  rcases lt_or_ge n 0 with hn | hn
  · obtain ⟨k, rfl⟩ := Int.exists_eq_neg_ofNat hn.le
    have hk : k ≠ 0 ∧ k ≤ 1 <<< 63 := by omega
    have htext : Number.text (.integer (-k)) = '-' :: Nat.toDigits 10 k := by
      rw [Number.text.eq_def]
      simp [hk]
    refine ⟨_, htext ▸ numeral?_minus_digits k, ?_⟩
    have hrange : (decide (k ≠ 0) && decide (k ≤ 1 <<< 63)) = true := by
      rw [Bool.and_eq_true, decide_eq_true_eq, decide_eq_true_eq]
      exact hk
    exact (number?_signed true (by omega)).trans (if_pos hrange)
  · obtain ⟨k, rfl⟩ := Int.eq_ofNat_of_zero_le hn
    have htext : Number.text (.integer k) = Nat.toDigits 10 k := by simp [Number.text]
    exact ⟨_, htext ▸ numeral?_digits k, number?_toDigits (by omega)⟩

/-- The value is read from its compact text, which may nest so deep. -/
def Printed (d : Nat) (w : Wanted) (j : Json) : Prop :=
  ∀ fuel rest, Stops rest → (compactChars j).length ≤ fuel →
    Reads d w j fuel (compactChars j ++ rest) rest

theorem printed_of_spells (h : Spells w d j (compactChars j)) : Printed d w j := by
  intro fuel rest hrest hfuel
  have hread := (reads (2 * (compactChars j).length + 1)).1 w d j [] _ rest h blank_nil hrest le_rfl
  exact Reads.reaches hread |>.fuel hfuel

theorem printed_number {n : Number} (h : ReadBack n) : Printed d w (.number n) := by
  intro fuel rest hrest hfuel
  obtain ⟨m, hm, hn⟩ := h
  obtain ⟨used, hused, -, hreads⟩ := (numeral?_takes hm).1
  rw [List.append_nil] at hused
  have hnumeral := hreads rest (hrest.follows [])
  rw [← hused] at hnumeral
  have hread : Reads d w (.number n) 1 (compactChars (.number n) ++ rest) rest :=
    Step.value? (.number hnumeral hn)
  exact hread.reaches.fuel hfuel

theorem readsItems_compact {fuel : Nat} (hne : xs ≠ []) (h : ∀ x ∈ xs, Printed d .all x)
    (hfuel : (compactItems xs).length < fuel) (rest : List Char) :
    ReadsItems d .all i xs fuel (compactItems xs ++ ']' :: rest) rest := by
  induction xs generalizing i fuel with
  | nil => exact absurd rfl hne
  | cons x xs ih =>
    obtain ⟨fuel, rfl⟩ := Nat.exists_eq_succ_of_ne_zero (Nat.ne_zero_of_lt hfuel)
    have hx := h x List.mem_cons_self fuel
    refine items?_iff.mpr ?_
    cases xs with
    | nil =>
      rw [compactItems] at hfuel ⊢
      exact ⟨x, ']' :: rest, hx _ (stops_blank blank_nil (.inr (.inl rfl)) rest) (by omega),
        .inr ⟨skip_cons (by decide) _, rfl⟩⟩
    | cons y ys =>
      rw [compactItems, List.length_append, List.length_cons] at hfuel
      rw [compactItems, List.append_assoc, List.cons_append]
      exact ⟨x, _, hx _ (stops_blank blank_nil (.inl rfl) _) (by omega),
        .inl ⟨_, _, skip_cons (by decide) _, ih (by simp)
          (fun z hz => h z (List.mem_cons_of_mem _ hz)) (by omega), rfl⟩⟩

theorem readsMembers_compact {fuel : Nat} (hne : ms ≠ [])
    (h : ∀ p ∈ ms, ∃ w', w.member? p.1 = some w' ∧ Printed d w' p.2)
    (hfuel : (compactMembers ms).length < fuel) (rest : List Char) :
    ReadsMembers d w ms fuel (compactMembers ms ++ '\x7d' :: rest) rest := by
  induction ms generalizing fuel with
  | nil => exact absurd rfl hne
  | cons p ms ih =>
    obtain ⟨k, v⟩ := p
    obtain ⟨fuel, rfl⟩ := Nat.exists_eq_succ_of_ne_zero (Nat.ne_zero_of_lt hfuel)
    obtain ⟨w', hw, hv⟩ := h (k, v) List.mem_cons_self
    have hmember : ∀ r, Stops r → (compactChars v).length ≤ fuel →
        Member fuel d w (String.ofList k.toList) (compactChars v ++ r) [(k, v)] r := by
      intro r hr hfuel
      rw [String.ofList_toList]
      exact .wanted hw (hv fuel r hr hfuel)
    refine members?_iff.mpr ?_
    cases ms with
    | nil =>
      simp only [compactMembers, List.length_append, List.length_cons] at hfuel
      simp only [compactMembers, quote, List.append_assoc, List.cons_append, List.nil_append]
      exact ⟨_, k.toList, _, _, [(k, v)], _, skip_quote _, stringTail?_quote k _,
        skip_cons (by decide) _, hmember _ (stops_blank blank_nil (.inr (.inr rfl)) rest) (by omega),
        .inr ⟨skip_cons (by decide) _, rfl⟩⟩
    | cons q ms =>
      simp only [compactMembers, List.length_append, List.length_cons] at hfuel
      simp only [compactMembers, quote, List.append_assoc, List.cons_append, List.nil_append]
      exact ⟨_, k.toList, _, _, [(k, v)], _, skip_quote _, stringTail?_quote k _,
        skip_cons (by decide) _, hmember _ (stops_blank blank_nil (.inl rfl) _) (by omega),
        .inl ⟨_, _, skip_cons (by decide) _, ih (by simp)
          (fun z hz => h z (List.mem_cons_of_mem _ hz)) (by omega), rfl⟩⟩

mutual
def numbers : Json → List Number
  | .number n => [n]
  | .array xs => numbersOfItems xs
  | .object ms => numbersOfMembers ms
  | _ => []

def numbersOfItems : List Json → List Number
  | [] => []
  | x :: xs => numbers x ++ numbersOfItems xs

def numbersOfMembers : List (String × Json) → List Number
  | [] => []
  | (_, v) :: ms => numbers v ++ numbersOfMembers ms
end

theorem printed_array (h : ∀ x ∈ xs, Printed d .all x) : Printed (d + 1) .all (.array xs) := by
  intro fuel rest _ hfuel
  rw [compactChars, List.length_append, List.length_cons, List.length_singleton] at hfuel
  obtain ⟨fuel, rfl⟩ := Nat.exists_eq_succ_of_ne_zero (show fuel ≠ 0 by omega)
  simp only [compactChars, List.cons_append, List.append_assoc, List.nil_append]
  refine Step.value? ?_
  cases xs with
  | nil => exact .emptyArray (by omega) (skip_cons (by decide) _)
  | cons x xs => exact .array (by omega) (readsItems_compact (by simp) h (by omega) rest)

theorem printed_object (h : ∀ p ∈ ms, ∃ w', w.member? p.1 = some w' ∧ Printed d w' p.2) :
    Printed (d + 1) w (.object ms) := by
  intro fuel rest _ hfuel
  rw [compactChars, List.length_append, List.length_cons, List.length_singleton] at hfuel
  obtain ⟨fuel, rfl⟩ := Nat.exists_eq_succ_of_ne_zero (show fuel ≠ 0 by omega)
  simp only [compactChars, List.cons_append, List.append_assoc, List.nil_append]
  refine Step.value? ?_
  cases ms with
  | nil => exact .emptyObject (by omega) (skip_cons (by decide) _)
  | cons p ms => exact .object (by omega) (readsMembers_compact (by simp) h (by omega) rest)

mutual
/-- A value that does not nest too deep is read from its compact text when its numbers are. -/
theorem printed : ∀ (j : Json) (d : Nat), (∀ n ∈ j.numbers, ReadBack n) → j.depth ≤ d →
    Printed d .all j
  | .null, _, _, _ => printed_of_spells .null
  | .bool true, _, _, _ => printed_of_spells .yes
  | .bool false, _, _, _ => printed_of_spells .no
  | .string s, _, _, _ => printed_of_spells (.string s)
  | .number n, _, hn, _ => printed_number (hn n (List.mem_singleton_self n))
  | .array _, 0, _, hd => absurd hd (Nat.not_succ_le_zero _)
  | .array xs, d + 1, hn, hd => printed_array (printed_items xs d hn (Nat.le_of_succ_le_succ hd))
  | .object _, 0, _, hd => absurd hd (Nat.not_succ_le_zero _)
  | .object ms, d + 1, hn, hd =>
    printed_object fun p hp =>
      ⟨.all, rfl, printed_members ms d hn (Nat.le_of_succ_le_succ hd) p hp⟩

theorem printed_items : ∀ (xs : List Json) (d : Nat), (∀ n ∈ numbersOfItems xs, ReadBack n) →
    depthItems xs ≤ d → ∀ x ∈ xs, Printed d .all x
  | [], _, _, _, _, hx => absurd hx List.not_mem_nil
  | x :: xs, d, hn, hd, y, hy => by
    rw [numbersOfItems, List.forall_mem_append] at hn
    have hfirst := printed x d hn.1 ((le_max_left _ _).trans hd)
    have hrest := printed_items xs d hn.2 ((le_max_right _ _).trans hd)
    rcases List.mem_cons.mp hy with rfl | hy
    · exact hfirst
    · exact hrest y hy

theorem printed_members : ∀ (ms : List (String × Json)) (d : Nat),
    (∀ n ∈ numbersOfMembers ms, ReadBack n) → depthMembers ms ≤ d → ∀ p ∈ ms, Printed d .all p.2
  | [], _, _, _, _, hp => absurd hp List.not_mem_nil
  | (k, v) :: ms, d, hn, hd, p, hp => by
    rw [numbersOfMembers, List.forall_mem_append] at hn
    have hfirst := printed v d hn.1 ((le_max_left _ _).trans hd)
    have hrest := printed_members ms d hn.2 ((le_max_right _ _).trans hd)
    rcases List.mem_cons.mp hp with rfl | hp
    · exact hfirst
    · exact hrest p hp
end

theorem take?_printed (h : Printed maxDepth w j) : take? w j.compact = some j := by
  rw [compact, take?_eq_some]
  have hread := h _ [] (by simp [Stops]) le_rfl
  rw [List.append_nil] at hread
  exact ⟨_, [], hread, rfl⟩

end Json

theorem Journal.Entry.ofLine?_line_iff {e : Entry} (ht : e.time.Valid)
    (hd : e.details.canonical = e.details) (hn : ∀ n ∈ e.details.numbers, Json.ReadBack n) :
    ofLine? e.line = some e ↔ e.details.depth ≤ 126 := by
  refine ⟨depth_of_ofLine?, fun hdepth => ?_⟩
  have htake : Json.take? wanted e.line = some e.toJson := by
    obtain ⟨ms, hms, hparts⟩ := e.toJson_members
    apply Json.take?_printed
    rw [hms]
    refine Json.printed_object fun p hp => ?_
    rcases hparts p hp with rfl | rfl | ⟨k, rfl⟩ | rfl
    · exact ⟨.all, rfl, Json.printed_of_spells (.string _)⟩
    · exact ⟨.all, rfl, Json.printed_of_spells (.string _)⟩
    · exact ⟨Key.wanted, rfl, Json.printed_of_spells (spells_key k 125)⟩
    · exact ⟨.all, rfl, Json.printed _ _ hn hdepth⟩
  rw [ofLine?, htake, Option.bind_eq_bind, Option.bind_some, ofJson?_toJson ht hd]

end SourceDelta
