import SourceDelta.Proofs.JsonSteps

/-!
# Where a value ends

A value that is read from a text is told by the characters that are taken for it. Fuel for each of
these is fuel enough, and more of it changes nothing; and whatever follows them, the same value is
read and the same follows. So a text that starts with a value and goes on with anything else than
blanks is read as nothing.
-/

set_option autoImplicit false

namespace SourceDelta.Json
open SourceDelta.Text

variable {P Q R : Nat → List Char → List Char → Prop} {s cs r t rest : List Char} {mark : Char}

theorem follows_mark (s : List Char) (mark : Char) (t t' : List Char) :
    Follows (s ++ mark :: t) (s ++ mark :: t') := by
  cases s with
  | nil => exact .inl rfl
  | cons c s => exact .inl rfl

theorem exists_of_skip (h : skip r = mark :: t) :
    ∃ s, r = s ++ mark :: t ∧ ∀ t', skip (s ++ mark :: t') = mark :: t' := by
  obtain ⟨s, hs, hr⟩ := exists_skip r
  have hmark : isSpace mark = false := isSpace_of_mem_skip (by rw [h]; rfl)
  refine ⟨s, by rwa [h] at hr, fun t' => ?_⟩
  rw [skip_blank hs, skip_cons hmark]

theorem skip_quote (t : List Char) : skip ('"' :: t) = '"' :: t := skip_cons (by decide) t

/-- A reading with fuel that takes the characters between a text and a rest of it, with fuel for
each of them. -/
def Reaches (P : Nat → List Char → List Char → Prop) (cs rest : List Char) : Prop :=
  ∃ used, cs = used ++ rest ∧ used ≠ [] ∧
    ∀ fuel rest', used.length ≤ fuel → Follows rest rest' → P fuel (used ++ rest') rest'

namespace Reaches

theorem mono (h : Reaches Q cs rest)
    (hP : ∀ fuel cs rest, Q (fuel + 1) cs rest → P (fuel + 1) cs rest) : Reaches P cs rest := by
  obtain ⟨used, hcs, hne, hused⟩ := h
  refine ⟨used, hcs, hne, fun fuel rest' hfuel hrest' => ?_⟩
  have := List.length_pos_iff.mpr hne
  obtain ⟨fuel, rfl⟩ : ∃ f, fuel = f + 1 := ⟨fuel - 1, by omega⟩
  exact hP _ _ _ (hused _ rest' hfuel hrest')

theorem of_skip (h : Reaches P (skip cs) rest)
    (hP : ∀ fuel cs rest, P fuel (skip cs) rest ↔ P fuel cs rest) : Reaches P cs rest := by
  obtain ⟨used, hskip, hne, hused⟩ := h
  obtain ⟨s, hs, hcs⟩ := exists_skip cs
  refine ⟨s ++ used, by rw [List.append_assoc, ← hskip, ← hcs], by simp [hne],
    fun fuel rest' hfuel hrest' => ?_⟩
  rw [List.length_append] at hfuel
  rw [List.append_assoc, ← hP, skip_blank hs, hP]
  exact hused fuel rest' (by omega) hrest'

theorem cons {c : Char} (h : Reaches Q t rest)
    (hP : ∀ fuel t rest, Q fuel t rest → P (fuel + 1) (c :: t) rest) : Reaches P (c :: t) rest := by
  obtain ⟨used, rfl, -, hused⟩ := h
  refine ⟨c :: used, rfl, by simp, fun fuel rest' hfuel hrest' => ?_⟩
  rw [List.length_cons] at hfuel
  obtain ⟨fuel, rfl⟩ : ∃ f, fuel = f + 1 := ⟨fuel - 1, by omega⟩
  exact hP _ _ _ (hused fuel rest' (by omega) hrest')

theorem of_mark (h : skip cs = mark :: rest) :
    Reaches (fun _ cs rest => skip cs = mark :: rest) cs rest := by
  obtain ⟨s, rfl, hskip⟩ := exists_of_skip h
  exact ⟨s ++ [mark], by simp, by simp, fun _ rest' _ _ => by simpa using hskip rest'⟩

theorem close (h : Reaches Q cs r) (hr : skip r = mark :: rest) : Reaches
    (fun fuel cs rest => ∃ r, (∀ g, fuel ≤ g + 1 → Q g cs r) ∧ skip r = mark :: rest) cs rest := by
  obtain ⟨used, rfl, -, hused⟩ := h
  obtain ⟨s, rfl, hskip⟩ := exists_of_skip hr
  refine ⟨used ++ (s ++ [mark]), by simp, by simp, fun fuel rest' hfuel _ =>
    ⟨s ++ mark :: rest', fun g hg => ?_, hskip rest'⟩⟩
  simp only [List.length_append, List.length_singleton] at hfuel
  have hread := hused g (s ++ mark :: rest') (by omega) (follows_mark s mark rest rest')
  simpa using hread

theorem sep (h : Reaches Q cs r) (hr : skip r = mark :: t) (ht : Reaches R t rest) : Reaches
    (fun fuel cs rest => ∃ r t, (∀ g, fuel ≤ g + 1 → Q g cs r) ∧ skip r = mark :: t ∧
      ∀ g, fuel ≤ g + 1 → R g t rest) cs rest := by
  obtain ⟨used, rfl, -, hused⟩ := h
  obtain ⟨s, rfl, hskip⟩ := exists_of_skip hr
  obtain ⟨used', rfl, -, hused'⟩ := ht
  refine ⟨used ++ (s ++ mark :: used'), by simp, by simp, fun fuel rest' hfuel hrest' =>
    ⟨s ++ mark :: (used' ++ rest'), used' ++ rest', fun g hg => ?_, hskip _, fun g hg => ?_⟩⟩
  all_goals simp only [List.length_append, List.length_cons] at hfuel
  · have hread := hused g (s ++ mark :: (used' ++ rest')) (by omega) (follows_mark s mark _ _)
    simpa using hread
  · exact hused' g rest' (by omega) hrest'

theorem fuel {front : List Char} (h : Reaches P (front ++ rest) rest) {fuel : Nat}
    (hfuel : front.length ≤ fuel) : P fuel (front ++ rest) rest := by
  obtain ⟨used, hcs, -, hused⟩ := h
  rw [List.append_cancel_right hcs] at hfuel ⊢
  exact hused fuel rest hfuel (.refl rest)

end Reaches

theorem Takes.reaches {reads : List Char → List Char → Prop} (h : Takes reads cs rest) :
    Reaches (fun _ => reads) cs rest := by
  obtain ⟨used, hcs, hne, hused⟩ := h
  exact ⟨used, hcs, hne, fun _ rest' _ hrest' => hused rest' hrest'⟩

variable {d F i : Nat} {w : Wanted} {j : Json} {xs : List Json} {ms : List (String × Json)}

def Passes (fuel : Nat) (cs rest : List Char) : Prop := past? fuel cs = some rest

def PassesItems (fuel : Nat) (cs rest : List Char) : Prop := pastItems? fuel cs = some rest

def PassesMembers (fuel : Nat) (cs rest : List Char) : Prop := pastMembers? fuel cs = some rest

theorem Pass.reaches (h : Pass F cs rest)
    (hitems : ∀ cs rest, PassesItems F cs rest → Reaches PassesItems cs rest)
    (hmembers : ∀ cs rest, PassesMembers F cs rest → Reaches PassesMembers cs rest) :
    Reaches Passes cs rest := by
  cases h with
  | string h => exact (pastString?_takes h).reaches.cons fun _ _ _ h => Pass.past? (.string h)
  | emptyArray h => exact (Reaches.of_mark h).cons fun _ _ _ h => Pass.past? (.emptyArray h)
  | array h => exact (hitems _ _ h).cons fun _ _ _ h => Pass.past? (.array h)
  | emptyObject h => exact (Reaches.of_mark h).cons fun _ _ _ h => Pass.past? (.emptyObject h)
  | object h => exact (hmembers _ _ h).cons fun _ _ _ h => Pass.past? (.object h)
  | name h =>
    refine (name_takes h rest).reaches.mono fun fuel cs rest => ?_
    rintro rfl
    exact Pass.past? (.name h)
  | number h => exact (numeral?_takes h).1.reaches.mono fun fuel cs rest h => Pass.past? (.number h)

/-- One induction on the fuel for the three readers: what a step takes is what the readings with less
fuel take, and the characters before, between and behind them. -/
theorem reaches_passes (F : Nat) :
    (∀ cs rest, Passes F cs rest → Reaches Passes cs rest) ∧
    (∀ cs rest, PassesItems F cs rest → Reaches PassesItems cs rest) ∧
    (∀ cs rest, PassesMembers F cs rest → Reaches PassesMembers cs rest) := by
  induction F with
  | zero =>
    refine ⟨fun cs rest h => ?_, fun cs rest h => ?_, fun cs rest h => ?_⟩
    · rw [Passes, past?] at h
      cases h
    · rw [PassesItems, pastItems?] at h
      cases h
    · rw [PassesMembers, pastMembers?] at h
      cases h
  | succ F ih =>
    obtain ⟨ihv, ihi, ihm⟩ := ih
    refine ⟨fun cs rest h => ?_, fun cs rest h => ?_, fun cs rest h => ?_⟩
    · exact ((past?_iff.mp h).reaches ihi ihm).of_skip fun fuel cs rest => by
        rw [Passes, Passes, past?_skip]
    · obtain ⟨r, hr, ⟨t, ht, h⟩ | hclose⟩ := pastItems?_iff.mp h
      · refine ((ihv _ _ hr).sep ht (ihi _ _ h)).mono fun fuel cs rest => ?_
        rintro ⟨r, t, hr, ht, h⟩
        exact pastItems?_iff.mpr ⟨r, hr fuel le_rfl, .inl ⟨t, ht, h fuel le_rfl⟩⟩
      · refine ((ihv _ _ hr).close hclose).mono fun fuel cs rest => ?_
        rintro ⟨r, hr, hclose⟩
        exact pastItems?_iff.mpr ⟨r, hr fuel le_rfl, .inr hclose⟩
    · -- A name, its colon and a value take their fuel as one, before the comma or the brace.
      refine Reaches.of_skip ?_ fun fuel cs rest => by
        rw [PassesMembers, PassesMembers, pastMembers?_skip]
      obtain ⟨t, u, v, r, ht, hu, hv, hr, hrest⟩ := pastMembers?_iff.mp h
      have hmember := (pastString?_takes hu).reaches.sep hv (ihv _ _ hr)
      rw [ht]
      rcases hrest with ⟨t, hcomma, h⟩ | hclose
      · refine (hmember.sep hcomma (ihm _ _ h)).cons fun fuel t rest h => ?_
        obtain ⟨r, t', hm, hcomma, h⟩ := h
        obtain ⟨u, v, hu, hv, hr⟩ := hm fuel (by omega)
        exact pastMembers?_iff.mpr ⟨t, u, v, r, skip_quote t, hu fuel (by omega), hv,
          hr fuel (by omega), .inl ⟨t', hcomma, h fuel (by omega)⟩⟩
      · refine (hmember.close hclose).cons fun fuel t rest h => ?_
        obtain ⟨r, hm, hclose⟩ := h
        obtain ⟨u, v, hu, hv, hr⟩ := hm fuel (by omega)
        exact pastMembers?_iff.mpr ⟨t, u, v, r, skip_quote t, hu fuel (by omega), hv,
          hr fuel (by omega), .inr hclose⟩

def Reads (d : Nat) (w : Wanted) (j : Json) (fuel : Nat) (cs rest : List Char) : Prop :=
  value? fuel d w cs = some (j, rest)

def ReadsItems (d : Nat) (w : Wanted) (i : Nat) (xs : List Json) (fuel : Nat)
    (cs rest : List Char) : Prop :=
  items? fuel d w i cs = some (xs, rest)

def ReadsMembers (d : Nat) (w : Wanted) (ms : List (String × Json)) (fuel : Nat)
    (cs rest : List Char) : Prop :=
  members? fuel d w cs = some (ms, rest)

theorem not_reads_zero : ¬ Reads d w j 0 cs rest := by simp [Reads, value?]

theorem not_readsItems_zero {i : Nat} {xs : List Json} : ¬ ReadsItems d w i xs 0 cs rest := by
  simp [ReadsItems, items?]

theorem not_readsMembers_zero : ¬ ReadsMembers d w ms 0 cs rest := by simp [ReadsMembers, members?]

theorem Step.reaches (h : Step F d w cs j rest)
    (hitems : ∀ xs cs rest, ReadsItems (d - 1) w 0 xs F cs rest →
      Reaches (ReadsItems (d - 1) w 0 xs) cs rest)
    (hmembers : ∀ ms cs rest, ReadsMembers (d - 1) w ms F cs rest →
      Reaches (ReadsMembers (d - 1) w ms) cs rest) :
    Reaches (Reads d w j) cs rest := by
  cases h with
  | string h => exact (stringTail?_takes h).reaches.cons fun _ _ _ h => Step.value? (.string h)
  | emptyArray hd h => exact (Reaches.of_mark h).cons fun _ _ _ h => Step.value? (.emptyArray hd h)
  | array hd h => exact (hitems _ _ _ h).cons fun _ _ _ h => Step.value? (.array hd h)
  | emptyObject hd h =>
    exact (Reaches.of_mark h).cons fun _ _ _ h => Step.value? (.emptyObject hd h)
  | object hd h => exact (hmembers _ _ _ h).cons fun _ _ _ h => Step.value? (.object hd h)
  | name h =>
    refine (name_takes h rest).reaches.mono fun fuel cs rest => ?_
    rintro rfl
    exact Step.value? (.name h)
  | number h hm =>
    exact (numeral?_takes h).1.reaches.mono fun fuel cs rest h => Step.value? (.number h hm)

theorem Member.reaches {k : String} {v : List Char} (h : Member F d w k v ms rest)
    (hvalue : ∀ w j cs rest, Reads d w j F cs rest → Reaches (Reads d w j) cs rest) :
    Reaches (fun fuel v rest => Member fuel d w k v ms rest) v rest := by
  cases h with
  | wanted hw h => exact (hvalue _ _ _ _ h).mono fun fuel cs rest h => .wanted hw h
  | unwanted hw h => exact ((reaches_passes F).1 _ _ h).mono fun fuel cs rest h => .unwanted hw h

/-- The same for the readers that keep what they read. Depth and place are theirs, so they go with the
induction. -/
theorem reaches_reads (F : Nat) :
    (∀ d w j cs rest, Reads d w j F cs rest → Reaches (Reads d w j) cs rest) ∧
    (∀ d w i xs cs rest, ReadsItems d w i xs F cs rest → Reaches (ReadsItems d w i xs) cs rest) ∧
    (∀ d w ms cs rest, ReadsMembers d w ms F cs rest →
      Reaches (ReadsMembers d w ms) cs rest) := by
  induction F with
  | zero =>
    exact ⟨fun _ _ _ _ _ h => absurd h not_reads_zero, fun _ _ _ _ _ _ h =>
      absurd h not_readsItems_zero, fun _ _ _ _ _ h => absurd h not_readsMembers_zero⟩
  | succ F ih =>
    obtain ⟨ihv, ihi, ihm⟩ := ih
    refine ⟨fun d w j cs rest h => ?_, fun d w i xs cs rest h => ?_, fun d w ms cs rest h => ?_⟩
    · exact ((value?_iff.mp h).reaches (ihi _ _ _) (ihm _ _)).of_skip fun fuel cs rest => by
        rw [Reads, Reads, value?_skip]
    · obtain ⟨x, r, hx, ⟨t, ys, ht, hys, rfl⟩ | ⟨hclose, rfl⟩⟩ := items?_iff.mp h
      · refine ((ihv _ _ _ _ _ hx).sep ht (ihi _ _ _ _ _ _ hys)).mono fun fuel cs rest => ?_
        rintro ⟨r, t, hx, ht, h⟩
        exact items?_iff.mpr ⟨x, r, hx fuel le_rfl, .inl ⟨t, ys, ht, h fuel le_rfl, rfl⟩⟩
      · refine ((ihv _ _ _ _ _ hx).close hclose).mono fun fuel cs rest => ?_
        rintro ⟨r, hx, hclose⟩
        exact items?_iff.mpr ⟨x, r, hx fuel le_rfl, .inr ⟨hclose, rfl⟩⟩
    · refine Reaches.of_skip ?_ fun fuel cs rest => by
        rw [ReadsMembers, ReadsMembers, members?_skip]
      obtain ⟨t, k, u, v, m, r, ht, hu, hv, hm, hrest⟩ := members?_iff.mp h
      have hmember := (stringTail?_takes hu).reaches.sep hv (hm.reaches (ihv d))
      rw [ht]
      rcases hrest with ⟨t, ys, hcomma, hys, rfl⟩ | ⟨hclose, rfl⟩
      · refine (hmember.sep hcomma (ihm _ _ _ _ _ hys)).cons fun fuel t rest h => ?_
        obtain ⟨r, t', hm, hcomma, h⟩ := h
        obtain ⟨u, v, hu, hv, hm⟩ := hm fuel (by omega)
        exact members?_iff.mpr ⟨t, k, u, v, m, r, skip_quote t, hu fuel (by omega), hv,
          hm fuel (by omega), .inl ⟨t', ys, hcomma, h fuel (by omega), rfl⟩⟩
      · refine (hmember.close hclose).cons fun fuel t rest h => ?_
        obtain ⟨r, hm, hclose⟩ := h
        obtain ⟨u, v, hu, hv, hm⟩ := hm fuel (by omega)
        exact members?_iff.mpr ⟨t, k, u, v, _, r, skip_quote t, hu fuel (by omega), hv,
          hm fuel (by omega), .inr ⟨hclose, rfl⟩⟩

theorem Reads.reaches (h : Reads d w j F cs rest) : Reaches (Reads d w j) cs rest :=
  (reaches_reads F).1 _ _ _ _ _ h

theorem Reads.fuel (h : Reads d w j F cs rest) {fuel : Nat} (hfuel : cs.length ≤ fuel) :
    Reads d w j fuel cs rest := by
  obtain ⟨used, rfl, -, -⟩ := h.reaches
  rw [List.length_append] at hfuel
  exact h.reaches.fuel (by omega)

theorem take?_eq_some : take? w (String.ofList cs) = some j ↔
    ∃ F rest, Reads maxDepth w j F cs rest ∧ skip rest = [] := by
  rw [take?, String.toList_ofList]
  constructor
  · intro h
    obtain ⟨⟨j, rest⟩, hread, h⟩ := Option.bind_eq_some_iff.mp h
    dsimp only at h
    split at h
    next hrest =>
      cases h
      exact ⟨_, rest, hread, hrest⟩
    next => cases h
  · rintro ⟨F, rest, hread, hrest⟩
    have hread : value? (2 * cs.length + 2) maxDepth w cs = some (j, rest) := hread.fuel (by omega)
    simp [hread, hrest]

theorem take?_blank (hs : Blank s) :
    take? w (String.ofList (s ++ cs)) = take? w (String.ofList cs) := by
  have hiff : ∀ j F rest, Reads maxDepth w j F (s ++ cs) rest ↔ Reads maxDepth w j F cs rest := by
    intro j F rest
    rw [Reads, Reads, ← value?_skip, skip_blank hs, value?_skip]
  ext j
  simp only [take?_eq_some, hiff]

theorem take?_eq_none (h : ∀ c ∈ (skip cs).head?, ¬ Starts c) :
    take? w (String.ofList cs) = none := by
  rw [Option.eq_none_iff_forall_ne_some]
  intro j hj
  obtain ⟨F, rest, hread, -⟩ := take?_eq_some.mp hj
  obtain ⟨c, t, hcs, hc⟩ := starts_of_value? hread
  exact h c (by rw [hcs]; rfl) hc

/-- Nothing is read of a text of which something is, with more than blanks behind it. -/
theorem take?_append {c : Char} (h : take? w (String.ofList cs) = some j) (hd : Delimits c)
    (hs : isSpace c = false) : take? w (String.ofList (cs ++ c :: t)) = none := by
  obtain ⟨F, rest, hread, hrest⟩ := take?_eq_some.mp h
  obtain ⟨s, hblank, hskip⟩ := exists_skip rest
  rw [hrest, List.append_nil] at hskip
  subst hskip
  obtain ⟨used, rfl, -, hused⟩ := hread.reaches
  have hfollows : Follows rest (rest ++ c :: t) := by
    cases rest with
    | nil =>
      refine .inr fun c' hc' => ?_
      cases hc'
      exact hd
    | cons c' rest => exact .inl rfl
  have hread := hused (2 * (used ++ rest ++ c :: t).length + 2) (rest ++ c :: t)
    (by simp only [List.length_append]; omega) hfollows
  rw [Reads, ← List.append_assoc] at hread
  rw [take?, String.toList_ofList, hread]
  simp [skip_blank hblank, skip_cons hs]

end SourceDelta.Json
