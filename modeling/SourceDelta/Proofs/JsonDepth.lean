import Mathlib.Order.MinMax
import SourceDelta.Journal
import SourceDelta.Proofs.JsonEnds

/-!
# How deep a value nests

No value is read that nests deeper than it may, and neither the canonical form of a value nor what
is taken from its fields nests deeper than it does. So there is a bound on the details of an entry.
-/

set_option autoImplicit false

namespace SourceDelta

namespace Json

variable {d : Nat} {j : Json} {xs : List Json} {ms : List (String × Json)}

mutual
/-- How deep a value nests. -/
def depth : Json → Nat
  | .array xs => depthItems xs + 1
  | .object ms => depthMembers ms + 1
  | _ => 0

def depthItems : List Json → Nat
  | [] => 0
  | x :: xs => max (depth x) (depthItems xs)

def depthMembers : List (String × Json) → Nat
  | [] => 0
  | (_, v) :: ms => max (depth v) (depthMembers ms)
end

theorem depthItems_le_iff : depthItems xs ≤ d ↔ ∀ x ∈ xs, x.depth ≤ d := by
  induction xs with
  | nil => simp [depthItems]
  | cons x xs ih => simp [depthItems, ih]

theorem depthMembers_le_iff : depthMembers ms ≤ d ↔ ∀ p ∈ ms, p.2.depth ≤ d := by
  induction ms with
  | nil => simp [depthMembers]
  | cons p ms ih => simp [depthMembers, ih]

theorem depth_of_mem_names {p : String × Json} (h : p ∈ names) : p.2.depth = 0 := by
  simp only [names, List.mem_cons, List.not_mem_nil, or_false] at h
  rcases h with rfl | rfl | rfl <;> rfl

/-- No value that is read nests deeper than it may. -/
theorem depth_le_of_reads (F : Nat) :
    (∀ d w j cs rest, Reads d w j F cs rest → j.depth ≤ d) ∧
    (∀ d w i xs cs rest, ReadsItems d w i xs F cs rest → depthItems xs ≤ d) ∧
    (∀ d w ms cs rest, ReadsMembers d w ms F cs rest → depthMembers ms ≤ d) := by
  induction F with
  | zero =>
    exact ⟨fun _ _ _ _ _ h => absurd h not_reads_zero, fun _ _ _ _ _ _ h =>
      absurd h not_readsItems_zero, fun _ _ _ _ _ h => absurd h not_readsMembers_zero⟩
  | succ F ih =>
    obtain ⟨ihv, ihi, ihm⟩ := ih
    refine ⟨fun d w j cs rest h => ?_, fun d w i xs cs rest h => ?_, fun d w ms cs rest h => ?_⟩
    · have hstep := value?_iff.mp h
      generalize skip cs = t at hstep
      cases hstep with
      | string => exact Nat.zero_le d
      | emptyArray hd => exact Nat.one_le_iff_ne_zero.mpr hd
      | array hd h => exact Nat.add_le_of_le_sub (Nat.one_le_iff_ne_zero.mpr hd) (ihi _ _ _ _ _ _ h)
      | emptyObject hd => exact Nat.one_le_iff_ne_zero.mpr hd
      | object hd h => exact Nat.add_le_of_le_sub (Nat.one_le_iff_ne_zero.mpr hd) (ihm _ _ _ _ _ h)
      | name hp => exact (depth_of_mem_names hp).trans_le (Nat.zero_le d)
      | number => exact Nat.zero_le d
    · obtain ⟨x, r, hx, ⟨t, ys, -, hys, rfl⟩ | ⟨-, rfl⟩⟩ := items?_iff.mp h
      · exact max_le (ihv _ _ _ _ _ hx) (ihi _ _ _ _ _ _ hys)
      · exact max_le (ihv _ _ _ _ _ hx) (Nat.zero_le d)
    · obtain ⟨t, k, u, v, m, r, -, -, -, hm, hrest⟩ := members?_iff.mp h
      have hle : depthMembers m ≤ d := by
        cases hm with
        | wanted hw hx => exact max_le (ihv _ _ _ _ _ hx) (Nat.zero_le d)
        | unwanted => exact Nat.zero_le d
      rcases hrest with ⟨t, ys, -, hys, rfl⟩ | ⟨-, rfl⟩
      · rw [depthMembers_le_iff] at hle ⊢
        have hmore := depthMembers_le_iff.mp (ihm _ _ _ _ _ hys)
        exact List.forall_mem_append.mpr ⟨hle, hmore⟩
      · exact hle

theorem mem_insertNew {k : String} {v : Json} {p : String × Json} (h : p ∈ insertNew k v ms) :
    p = (k, v) ∨ p ∈ ms := by
  induction ms with
  | nil => exact .inl (List.mem_singleton.mp h)
  | cons q ms ih =>
    obtain ⟨k', v'⟩ := q
    rw [insertNew] at h
    split at h
    · rcases List.mem_cons.mp h with h | h
      · exact .inl h
      · exact .inr h
    split at h
    · exact .inr h
    · rcases List.mem_cons.mp h with rfl | h
      · exact .inr List.mem_cons_self
      · exact (ih h).imp_right (List.mem_cons_of_mem _)

mutual
theorem depth_canonical_le : ∀ j : Json, j.canonical.depth ≤ j.depth
  | .array xs => Nat.succ_le_succ (depth_canonicalItems_le xs)
  | .object ms => Nat.succ_le_succ (depth_canonicalMembers_le ms)
  | .null => le_rfl
  | .bool _ => le_rfl
  | .number _ => le_rfl
  | .string _ => le_rfl

theorem depth_canonicalItems_le : ∀ xs : List Json, depthItems (canonicalItems xs) ≤ depthItems xs
  | [] => le_rfl
  | x :: xs => max_le_max (depth_canonical_le x) (depth_canonicalItems_le xs)

theorem depth_canonicalMembers_le : ∀ ms : List (String × Json),
    depthMembers (canonicalMembers ms) ≤ depthMembers ms
  | [] => le_rfl
  | (k, v) :: ms => by
    have hvalue := depth_canonical_le v
    have hrest := depth_canonicalMembers_le ms
    rw [canonicalMembers, depthMembers, depthMembers_le_iff]
    intro p hp
    rcases mem_insertNew hp with rfl | hp
    · exact hvalue.trans (le_max_left _ _)
    · exact (depthMembers_le_iff.mp hrest p hp).trans (le_max_right _ _)
end

theorem exists_of_mem_mapM {α β : Type} {f : α → Option β} {as : List α} {bs : List β} {b : β}
    (h : as.mapM f = some bs) (hb : b ∈ bs) : ∃ a ∈ as, f a = some b := by
  induction as generalizing bs with
  | nil =>
    cases h
    cases hb
  | cons a as ih =>
    rw [List.mapM_cons] at h
    obtain ⟨b', hb', h⟩ := Option.bind_eq_some_iff.mp h
    obtain ⟨bs', hbs', h⟩ := Option.bind_eq_some_iff.mp h
    cases h
    rcases List.mem_cons.mp hb with rfl | hb
    · exact ⟨a, List.mem_cons_self, hb'⟩
    · obtain ⟨a', ha', hf⟩ := ih hbs' hb
      exact ⟨a', List.mem_cons_of_mem _ ha', hf⟩

theorem depth_of_fields? {fields : List String} {found : List (Option Json)} {v : Json}
    (h : j.fields? fields = some found) (hv : some v ∈ found) : v.depth < j.depth := by
  unfold fields? at h
  split at h
  next ms =>
    obtain ⟨k, -, hk⟩ := exists_of_mem_mapM h hv
    split at hk
    · cases hk
    next m hm =>
      cases hk
      have hmem : m ∈ ms.filter (·.1 == k) := by
        rw [hm]
        exact List.mem_singleton_self m
      exact Nat.lt_succ_of_le (depthMembers_le_iff.mp le_rfl m (List.mem_filter.mp hmem).1)
    · cases hk
  next xs =>
    split at h
    next =>
      cases h
      have hmem : v ∈ xs := by simpa using hv
      exact Nat.lt_succ_of_le (depthItems_le_iff.mp le_rfl v hmem)
    next => cases h
  next => cases h

end Json

theorem Journal.Entry.depth_of_ofLine? {e : Entry} {line : String} (h : ofLine? line = some e) :
    e.details.depth ≤ 126 := by
  obtain ⟨j, hj, h⟩ := Option.bind_eq_some_iff.mp h
  have hdepth : j.depth ≤ 127 := by
    rw [← String.ofList_toList (s := line)] at hj
    obtain ⟨F, rest, hread, -⟩ := Json.take?_eq_some.mp hj
    exact (Json.depth_le_of_reads F).1 _ _ _ _ _ hread
  obtain ⟨found, hfound, h⟩ := Option.bind_eq_some_iff.mp h
  split at h
  next ts action key details =>
    have hdetails : details.depth < j.depth := Json.depth_of_fields? hfound (by simp)
    obtain ⟨name, -, h⟩ := Option.bind_eq_some_iff.mp h
    obtain ⟨text, -, h⟩ := Option.bind_eq_some_iff.mp h
    obtain ⟨time, -, h⟩ := Option.bind_eq_some_iff.mp h
    obtain ⟨action, -, h⟩ := Option.bind_eq_some_iff.mp h
    obtain ⟨key, -, h⟩ := Option.bind_eq_some_iff.mp h
    cases h
    have hcanonical := Json.depth_canonical_le details
    dsimp only
    omega
  next => cases h

end SourceDelta
