import SourceDelta.Proofs.JsonTakes

/-!
# One step of reading a value

What a value is read as is told by its first character. The readers of values, items and
members, and those that only pass over them, each come down to one step from there to readings
with less fuel, and these steps are all that the proofs about reading need to know.
-/

set_option autoImplicit false

namespace SourceDelta.Json
open SourceDelta.Text

variable {fuel d i : Nat} {w : Wanted} {cs rest t : List Char} {j : Json} {xs : List Json}
  {ms : List (String × Json)} {c : Char}

theorem isSpace_of_mem_skip (h : c ∈ (skip cs).head?) : isSpace c = false := by
  have hhead := List.head?_dropWhile_not isSpace cs
  rwa [← skip, Option.mem_def.mp h] at hhead

theorem exists_skip (cs : List Char) : ∃ s, Blank s ∧ cs = s ++ skip cs :=
  ⟨cs.takeWhile isSpace, fun _ hc => List.mem_takeWhile_imp hc,
    List.takeWhile_append_dropWhile.symm⟩

def Starts (c : Char) : Prop := c ∈ ['"', '[', '\x7b', 'n', 't', 'f'] ∨ Signs c

theorem Starts.isSpace (h : Starts c) : Json.isSpace c = false := by
  rw [Bool.eq_false_iff]
  intro hc
  rcases eq_of_isSpace hc with rfl | rfl | rfl | rfl <;>
    rcases h with h | h | h <;> revert h <;> decide

theorem Starts.ne_close (h : Starts c) : c ≠ ']' ∧ c ≠ '\x7d' := by
  rcases h with h | h
  · constructor <;> rintro rfl <;> revert h <;> decide
  · constructor <;> rintro rfl <;> exact h.not_mem (by simp)

theorem starts_of_name {p : String × Json} (h : p ∈ names) (rest : List Char) :
    ∃ c t, p.1.toList ++ rest = c :: t ∧ Starts c := by
  simp only [names, List.mem_cons, List.not_mem_nil, or_false] at h
  rcases h with rfl | rfl | rfl
  · exact ⟨'n', _, rfl, .inl (by simp)⟩
  · exact ⟨'t', _, rfl, .inl (by simp)⟩
  · exact ⟨'f', _, rfl, .inl (by simp)⟩

theorem starts_of_numeral? {n : Numeral} (h : numeral? cs = some (n, rest)) :
    ∃ c t, cs = c :: t ∧ Starts c := by
  obtain ⟨c, t, hcs, hc⟩ := (numeral?_takes h).2
  exact ⟨c, t, hcs, .inr hc⟩

/-- How a value is read that starts with the first character. -/
inductive Step (fuel d : Nat) (w : Wanted) : List Char → Json → List Char → Prop
  | string {s t rest : List Char} (h : stringTail? t = some (s, rest)) :
    Step fuel d w ('"' :: t) (.string (String.ofList s)) rest
  | emptyArray {t rest : List Char} (hd : d ≠ 0) (h : skip t = ']' :: rest) :
    Step fuel d w ('[' :: t) (.array []) rest
  | array {t rest : List Char} {xs : List Json} (hd : d ≠ 0)
    (h : items? fuel (d - 1) w 0 t = some (xs, rest)) : Step fuel d w ('[' :: t) (.array xs) rest
  | emptyObject {t rest : List Char} (hd : d ≠ 0) (h : skip t = '\x7d' :: rest) :
    Step fuel d w ('\x7b' :: t) (.object []) rest
  | object {t rest : List Char} {ms : List (String × Json)} (hd : d ≠ 0)
    (h : members? fuel (d - 1) w t = some (ms, rest)) :
    Step fuel d w ('\x7b' :: t) (.object ms) rest
  | name {p : String × Json} {rest : List Char} (h : p ∈ names) :
    Step fuel d w (p.1.toList ++ rest) p.2 rest
  | number {cs rest : List Char} {n : Numeral} {m : Number} (h : numeral? cs = some (n, rest))
    (hm : n.number? = some m) : Step fuel d w cs (.number m) rest

theorem step_of_value? (h : value? (fuel + 1) d w cs = some (j, rest)) :
    Step fuel d w (skip cs) j rest := by
  rw [value?] at h
  split at h
  next t hcs =>
    obtain ⟨⟨s, rest⟩, hs, h⟩ := Option.bind_eq_some_iff.mp h
    cases h
    rw [hcs]
    exact .string hs
  next t hcs =>
    rw [hcs]
    split at h
    next => cases h
    next hd =>
      split at h
      next rest ht =>
        cases h
        exact .emptyArray hd ht
      next =>
        obtain ⟨⟨xs, rest⟩, hxs, h⟩ := Option.bind_eq_some_iff.mp h
        cases h
        exact .array hd (items?_skip .. ▸ hxs)
  next t hcs =>
    rw [hcs]
    split at h
    next => cases h
    next hd =>
      split at h
      next rest ht =>
        cases h
        exact .emptyObject hd ht
      next =>
        obtain ⟨⟨ms, rest⟩, hms, h⟩ := Option.bind_eq_some_iff.mp h
        cases h
        exact .object hd (members?_skip .. ▸ hms)
  next =>
    split at h
    next hnull =>
      cases h
      rw [after?_eq_some.mp hnull]
      exact .name (p := (_, .null)) (by simp [names])
    next hyes _ =>
      cases h
      rw [after?_eq_some.mp hyes]
      exact .name (p := (_, .bool true)) (by simp [names])
    next hno _ _ =>
      cases h
      rw [after?_eq_some.mp hno]
      exact .name (p := (_, .bool false)) (by simp [names])
    next =>
      obtain ⟨⟨n, rest⟩, hn, h⟩ := Option.bind_eq_some_iff.mp h
      obtain ⟨m, hm, h⟩ := Option.bind_eq_some_iff.mp h
      cases h
      exact .number hn hm

theorem Step.starts (h : Step fuel d w cs j rest) : ∃ c t, cs = c :: t ∧ Starts c := by
  cases h with
  | number h => exact starts_of_numeral? h
  | name h => exact starts_of_name h _
  | _ => exact ⟨_, _, rfl, .inl (by simp)⟩

theorem items?_iff : items? (fuel + 1) d w i cs = some (xs, rest) ↔
    ∃ x r, value? fuel d (w.item i) cs = some (x, r) ∧
      ((∃ t ys, skip r = ',' :: t ∧ items? fuel d w (i + 1) t = some (ys, rest) ∧ xs = x :: ys) ∨
        skip r = ']' :: rest ∧ xs = [x]) := by
  rw [items?]
  constructor
  · intro h
    obtain ⟨⟨x, r⟩, hx, h⟩ := Option.bind_eq_some_iff.mp h
    refine ⟨x, r, hx, ?_⟩
    dsimp only at h
    split at h
    next t hr =>
      obtain ⟨⟨ys, rest⟩, hys, h⟩ := Option.bind_eq_some_iff.mp h
      cases h
      exact .inl ⟨t, ys, hr, hys, rfl⟩
    next rest hr =>
      cases h
      exact .inr ⟨hr, rfl⟩
    next => cases h
  · rintro ⟨x, r, hx, ⟨t, ys, hr, hys, rfl⟩ | ⟨hr, rfl⟩⟩
    · simp [hx, hr, hys]
    · simp [hx, hr]

theorem starts_of_value? (h : value? fuel d w cs = some (j, rest)) :
    ∃ c t, skip cs = c :: t ∧ Starts c := by
  cases fuel with
  | zero =>
    rw [value?] at h
    cases h
  | succ fuel => exact (step_of_value? h).starts

theorem starts_of_items? (h : items? fuel d w i cs = some (xs, rest)) :
    ∃ c t, skip cs = c :: t ∧ Starts c := by
  cases fuel with
  | zero =>
    rw [items?] at h
    cases h
  | succ fuel =>
    obtain ⟨x, r, hx, -⟩ := items?_iff.mp h
    exact starts_of_value? hx

inductive Member (fuel d : Nat) (w : Wanted) (k : String) (v : List Char) :
    List (String × Json) → List Char → Prop
  | wanted {w' : Wanted} {x : Json} {rest : List Char} (hw : w.member? k = some w')
    (h : value? fuel d w' v = some (x, rest)) : Member fuel d w k v [(k, x)] rest
  | unwanted {rest : List Char} (hw : w.member? k = none) (h : past? fuel v = some rest) :
    Member fuel d w k v [] rest

theorem behindMember_iff {m : List (String × Json)} {r : List Char} :
    (match skip r with
      | ',' :: rest => do
        let (ys, rest) ← members? fuel d w rest
        some (m ++ ys, rest)
      | '\x7d' :: rest => some (m, rest)
      | _ => none) = some (ms, rest) ↔
      (∃ t ys, skip r = ',' :: t ∧ members? fuel d w t = some (ys, rest) ∧ ms = m ++ ys) ∨
        skip r = '\x7d' :: rest ∧ ms = m := by
  constructor
  · intro h
    split at h
    next t hr =>
      obtain ⟨⟨ys, rest⟩, hys, h⟩ := Option.bind_eq_some_iff.mp h
      cases h
      exact .inl ⟨t, ys, hr, hys, rfl⟩
    next rest hr =>
      cases h
      exact .inr ⟨hr, rfl⟩
    next => cases h
  · rintro (⟨t, ys, hr, hys, rfl⟩ | ⟨hr, rfl⟩)
    · simp [hr, hys]
    · simp [hr]

theorem members?_iff : members? (fuel + 1) d w cs = some (ms, rest) ↔
    ∃ t k u v m r, skip cs = '"' :: t ∧ stringTail? t = some (k, u) ∧ skip u = ':' :: v ∧
      Member fuel d w (String.ofList k) v m r ∧
      ((∃ t ys, skip r = ',' :: t ∧ members? fuel d w t = some (ys, rest) ∧ ms = m ++ ys) ∨
        skip r = '\x7d' :: rest ∧ ms = m) := by
  rw [members?]
  constructor
  · intro h
    split at h
    next t ht =>
      obtain ⟨⟨k, u⟩, hk, h⟩ := Option.bind_eq_some_iff.mp h
      dsimp only at h
      split at h
      next v hv =>
        cases hw : w.member? (String.ofList k) with
        | some w' =>
          rw [hw] at h
          obtain ⟨m, hm, h⟩ := Option.bind_eq_some_iff.mp h
          obtain ⟨⟨x, r⟩, hx, rfl⟩ := Option.map_eq_some_iff.mp hm
          exact ⟨t, k, u, v, _, r, ht, hk, hv, .wanted hw hx, behindMember_iff.mp h⟩
        | none =>
          rw [hw] at h
          obtain ⟨m, hm, h⟩ := Option.bind_eq_some_iff.mp h
          obtain ⟨r, hx, rfl⟩ := Option.map_eq_some_iff.mp hm
          exact ⟨t, k, u, v, _, r, ht, hk, hv, .unwanted hw hx, behindMember_iff.mp h⟩
      next => cases h
    next => cases h
  · rintro ⟨t, k, u, v, m, r, ht, hk, hv, hm, hrest⟩
    rw [ht]
    simp only [hk, hv, Option.bind_eq_bind, Option.bind_some]
    cases hm with
    | wanted hw hx =>
      simp only [hw, hx, Option.map_some, Option.bind_some]
      exact behindMember_iff.mpr hrest
    | unwanted hw hx =>
      simp only [hw, hx, Option.map_some, Option.bind_some]
      exact behindMember_iff.mpr hrest

theorem starts_of_members? (h : members? fuel d w cs = some (ms, rest)) :
    ∃ t, skip cs = '"' :: t := by
  cases fuel with
  | zero =>
    rw [members?] at h
    cases h
  | succ fuel =>
    obtain ⟨t, -, -, -, -, -, ht, -⟩ := members?_iff.mp h
    exact ⟨t, ht⟩

theorem value?_iff : value? (fuel + 1) d w cs = some (j, rest) ↔ Step fuel d w (skip cs) j rest := by
  refine ⟨step_of_value?, fun h => ?_⟩
  generalize hcs : skip cs = t at h
  cases h with
  | string h => simp [value?, hcs, h]
  | emptyArray hd h => simp [value?, hcs, hd, h]
  | @array t rest xs hd h =>
    obtain ⟨c, u, ht, hc⟩ := starts_of_items? h
    rw [← items?_skip, ht] at h
    simp [value?, hcs, hd, ht, hc.ne_close.1, h]
  | emptyObject hd h => simp [value?, hcs, hd, h]
  | @object t rest ms hd h =>
    obtain ⟨u, ht⟩ := starts_of_members? h
    rw [← members?_skip, ht] at h
    simp [value?, hcs, hd, ht, h]
  | name h =>
    simp only [names, List.mem_cons, List.not_mem_nil, or_false] at h
    rcases h with rfl | rfl | rfl <;> simp [value?, hcs, after?]
  | number h hm =>
    obtain ⟨c, u, rfl, hc⟩ := (numeral?_takes h).2
    rw [value?_of_signs hcs hc, h]
    simp [hm]

theorem Step.value? (h : Step fuel d w cs j rest) :
    Json.value? (fuel + 1) d w cs = some (j, rest) := by
  obtain ⟨c, t, rfl, hc⟩ := h.starts
  rwa [value?_iff, skip_cons hc.isSpace]

/-- How a value is passed that starts with the first character. -/
inductive Pass (fuel : Nat) : List Char → List Char → Prop
  | string {t rest : List Char} (h : pastString? t = some rest) : Pass fuel ('"' :: t) rest
  | emptyArray {t rest : List Char} (h : skip t = ']' :: rest) : Pass fuel ('[' :: t) rest
  | array {t rest : List Char} (h : pastItems? fuel t = some rest) : Pass fuel ('[' :: t) rest
  | emptyObject {t rest : List Char} (h : skip t = '\x7d' :: rest) : Pass fuel ('\x7b' :: t) rest
  | object {t rest : List Char} (h : pastMembers? fuel t = some rest) : Pass fuel ('\x7b' :: t) rest
  | name {p : String × Json} {rest : List Char} (h : p ∈ names) :
    Pass fuel (p.1.toList ++ rest) rest
  | number {cs rest : List Char} {n : Numeral} (h : numeral? cs = some (n, rest)) :
    Pass fuel cs rest

theorem past?_skip (fuel : Nat) (cs : List Char) : past? fuel (skip cs) = past? fuel cs := by
  cases fuel with
  | zero => simp only [past?]
  | succ fuel => rw [past?, past?, skip_skip]

theorem pastItems?_skip (fuel : Nat) (cs : List Char) :
    pastItems? fuel (skip cs) = pastItems? fuel cs := by
  cases fuel with
  | zero => simp only [pastItems?]
  | succ fuel => rw [pastItems?, pastItems?, past?_skip]

theorem pastMembers?_skip (fuel : Nat) (cs : List Char) :
    pastMembers? fuel (skip cs) = pastMembers? fuel cs := by
  cases fuel with
  | zero => simp only [pastMembers?]
  | succ fuel => rw [pastMembers?, pastMembers?, skip_skip]

theorem pass_of_past? (h : past? (fuel + 1) cs = some rest) : Pass fuel (skip cs) rest := by
  rw [past?] at h
  split at h
  next t hcs =>
    rw [hcs]
    exact .string h
  next t hcs =>
    rw [hcs]
    split at h
    next rest ht =>
      cases h
      exact .emptyArray ht
    next => exact .array (pastItems?_skip .. ▸ h)
  next t hcs =>
    rw [hcs]
    split at h
    next rest ht =>
      cases h
      exact .emptyObject ht
    next => exact .object (pastMembers?_skip .. ▸ h)
  next =>
    rcases Option.or_eq_some_iff.mp h with h | ⟨-, h⟩
    · obtain ⟨p, hp, hcs⟩ := pastName?_eq_some.mp h
      rw [hcs]
      exact .name hp
    · obtain ⟨⟨n, rest⟩, hn, rfl⟩ := Option.map_eq_some_iff.mp h
      exact .number hn

theorem Pass.starts (h : Pass fuel cs rest) : ∃ c t, cs = c :: t ∧ Starts c := by
  cases h with
  | number h => exact starts_of_numeral? h
  | name h => exact starts_of_name h _
  | _ => exact ⟨_, _, rfl, .inl (by simp)⟩

theorem pastItems?_iff : pastItems? (fuel + 1) cs = some rest ↔
    ∃ r, past? fuel cs = some r ∧
      ((∃ t, skip r = ',' :: t ∧ pastItems? fuel t = some rest) ∨ skip r = ']' :: rest) := by
  rw [pastItems?]
  constructor
  · intro h
    obtain ⟨r, hr, h⟩ := Option.bind_eq_some_iff.mp h
    refine ⟨r, hr, ?_⟩
    split at h
    next t ht => exact .inl ⟨t, ht, h⟩
    next rest ht =>
      cases h
      exact .inr ht
    next => cases h
  · rintro ⟨r, hr, ⟨t, ht, h⟩ | ht⟩
    · simp [hr, ht, h]
    · simp [hr, ht]

theorem starts_of_pastItems? (h : pastItems? fuel cs = some rest) :
    ∃ c t, skip cs = c :: t ∧ Starts c := by
  cases fuel with
  | zero =>
    rw [pastItems?] at h
    cases h
  | succ fuel =>
    obtain ⟨r, hr, -⟩ := pastItems?_iff.mp h
    cases fuel with
    | zero =>
      rw [past?] at hr
      cases hr
    | succ fuel => exact (pass_of_past? hr).starts

theorem pastMembers?_iff : pastMembers? (fuel + 1) cs = some rest ↔
    ∃ t u v r, skip cs = '"' :: t ∧ pastString? t = some u ∧ skip u = ':' :: v ∧
      past? fuel v = some r ∧
      ((∃ t, skip r = ',' :: t ∧ pastMembers? fuel t = some rest) ∨ skip r = '\x7d' :: rest) := by
  rw [pastMembers?]
  constructor
  · intro h
    split at h
    next t ht =>
      obtain ⟨u, hu, h⟩ := Option.bind_eq_some_iff.mp h
      split at h
      next v hv =>
        obtain ⟨r, hr, h⟩ := Option.bind_eq_some_iff.mp h
        refine ⟨t, u, v, r, ht, hu, hv, hr, ?_⟩
        split at h
        next t ht => exact .inl ⟨t, ht, h⟩
        next rest ht =>
          cases h
          exact .inr ht
        next => cases h
      next => cases h
    next => cases h
  · rintro ⟨t, u, v, r, ht, hu, hv, hr, ⟨s, hs, h⟩ | hs⟩
    · rw [ht]
      simp [hu, hv, hr, hs, h]
    · rw [ht]
      simp [hu, hv, hr, hs]

theorem starts_of_pastMembers? (h : pastMembers? fuel cs = some rest) : ∃ t, skip cs = '"' :: t := by
  cases fuel with
  | zero =>
    rw [pastMembers?] at h
    cases h
  | succ fuel =>
    obtain ⟨t, -, -, -, ht, -⟩ := pastMembers?_iff.mp h
    exact ⟨t, ht⟩

theorem past?_iff : past? (fuel + 1) cs = some rest ↔ Pass fuel (skip cs) rest := by
  refine ⟨pass_of_past?, fun h => ?_⟩
  generalize hcs : skip cs = t at h
  cases h with
  | string h => simp [past?, hcs, h]
  | emptyArray h => simp [past?, hcs, h]
  | @array t rest h =>
    obtain ⟨c, u, ht, hc⟩ := starts_of_pastItems? h
    rw [← pastItems?_skip, ht] at h
    simp [past?, hcs, ht, hc.ne_close.1, h]
  | emptyObject h => simp [past?, hcs, h]
  | @object t rest h =>
    obtain ⟨u, ht⟩ := starts_of_pastMembers? h
    rw [← pastMembers?_skip, ht] at h
    simp [past?, hcs, ht, h]
  | name h =>
    simp only [names, List.mem_cons, List.not_mem_nil, or_false] at h
    rcases h with rfl | rfl | rfl <;> simp [past?, hcs, pastName?, after?]
  | number h =>
    obtain ⟨c, u, rfl, hc⟩ := (numeral?_takes h).2
    rw [past?_of_signs hcs hc, h, Option.map_some]

theorem Pass.past? (h : Pass fuel cs rest) : Json.past? (fuel + 1) cs = some rest := by
  obtain ⟨c, t, rfl, hc⟩ := h.starts
  rwa [past?_iff, skip_cons hc.isSpace]

end SourceDelta.Json
