import Mathlib.Data.String.Basic
import SourceDelta.Proofs.JsonReading
import SourceDelta.Store.FlagRegistry

/-!
# The flag registry and its document

A registry that is built by insertions is sorted by key and has no key without a
flag, and its document is read back as the same registry.
-/

set_option autoImplicit false

namespace SourceDelta

namespace Key

variable {k k' k'' : Key}

theorem before_irrefl (k : Key) : k.before k = false := by
  cases k <;> simp [before]

theorem before_trans (h : k.before k' = true) (h' : k'.before k'' = true) :
    k.before k'' = true := by
  cases k <;> cases k' <;> cases k'' <;> simp [before, -String.lt_iff_ltb] at h h' ⊢
  exact lt_trans h h'

theorem before_or (h : k ≠ k') : k.before k' = true ∨ k'.before k = true := by
  cases k with
  | code p =>
    cases k' with
    | code q =>
      have hpq : p ≠ q := fun he => h (he ▸ rfl)
      simpa [before] using lt_or_gt_of_ne hpq
    | build => exact .inl rfl
    | variability => exact .inl rfl
  | build =>
    cases k' with
    | code q => exact .inr rfl
    | build => exact absurd rfl h
    | variability => exact .inl rfl
  | variability =>
    cases k' with
    | code q => exact .inr rfl
    | build => exact .inr rfl
    | variability => exact absurd rfl h

theorem ofJson?_toJson (k : Key) : ofJson? k.toJson = some k := by
  cases k with
  | code path =>
    have hk : ArtifactKind.ofName? "code" = some .code := by decide
    simp [toJson, ofJson?, Json.fields?, ofParts?, Json.name?, hk]
  | build => rfl
  | variability => rfl

end Key

theorem FlagSet.isEmpty_eq_false {s : FlagSet} {f : Flag} (h : s.contains f = true) :
    s.isEmpty = false := by
  have hm : f ∈ s.toList := by
    rw [FlagSet.toList, List.mem_filter]
    exact ⟨by cases f <;> decide, h⟩
  rw [FlagSet.isEmpty, List.isEmpty_eq_false_iff]
  exact List.ne_nil_of_mem hm

namespace FlagRegistry

variable {r : FlagRegistry} {k k' : Key} {f g : Flag} {s : FlagSet}
  {es : List (Key × FlagSet)}

theorem lookup_putEntry (k k' : Key) (s : FlagSet) (es : List (Key × FlagSet)) :
    (putEntry k s es).lookup k' = if k' = k then some s else es.lookup k' := by
  have hself : ∀ {j : Key} {t : FlagSet} {ds : List (Key × FlagSet)},
      ((j, t) :: ds).lookup j = some t := by
    intro j t ds
    simp
  have hother : ∀ {i j : Key} {t : FlagSet} {ds : List (Key × FlagSet)}, i ≠ j →
      ((j, t) :: ds).lookup i = ds.lookup i := by
    intro i j t ds h
    rw [List.lookup_cons, beq_eq_false_iff_ne.mpr h]
  induction es with
  | nil =>
    by_cases h : k' = k
    · rw [h, if_pos rfl, putEntry, hself]
    · rw [if_neg h, putEntry, hother h]
  | cons e es ih =>
    obtain ⟨j, t⟩ := e
    simp only [putEntry]
    split
    next hj =>
      subst hj
      by_cases h : k' = k
      · rw [h, if_pos rfl, hself]
      · rw [if_neg h, hother h, hother h]
    next hj =>
      split
      · by_cases h : k' = k
        · rw [h, if_pos rfl, hself]
        · rw [if_neg h, hother h]
      · by_cases h' : k' = j
        · subst h'
          rw [hself, hself, if_neg (Ne.symm hj)]
        · rw [hother h', hother h', ih]

theorem get_put : (r.put k s).get k' = if k' = k then s else r.get k' := by
  rw [get, put, lookup_putEntry]
  split
  · rfl
  · rfl

theorem has_insert :
    (r.insert k f).has k' g = if k' = k then (f == g || r.has k g) else r.has k' g := by
  rw [has, insert, get_put]
  split
  · rw [FlagSet.contains_insert]
    rfl
  · rfl

theorem has_empty (k : Key) (f : Flag) : empty.has k f = false := by
  cases f <;> rfl

/-- Sorted by key, and no key without a flag. -/
structure Ordered (r : FlagRegistry) : Prop where
  sorted : r.entries.Pairwise fun e e' => e.1.before e'.1 = true
  flagged : ∀ e ∈ r.entries, e.2.isEmpty = false

theorem ordered_empty : Ordered empty := ⟨.nil, by simp [empty]⟩

theorem mem_putEntry {e : Key × FlagSet} (h : e ∈ putEntry k s es) : e = (k, s) ∨ e ∈ es := by
  induction es with
  | nil => exact .inl (by simpa [putEntry] using h)
  | cons d es ih =>
    obtain ⟨j, t⟩ := d
    simp only [putEntry] at h
    split at h
    · rcases List.mem_cons.mp h with h | h
      · exact .inl h
      · exact .inr (by simp [h])
    · split at h
      · rcases List.mem_cons.mp h with h | h
        · exact .inl h
        · exact .inr h
      · rcases List.mem_cons.mp h with h | h
        · exact .inr (by simp [h])
        · rcases ih h with h | h
          · exact .inl h
          · exact .inr (by simp [h])

theorem sorted_putEntry (h : es.Pairwise fun e e' => e.1.before e'.1 = true) :
    (putEntry k s es).Pairwise fun e e' => e.1.before e'.1 = true := by
  induction es with
  | nil => simp [putEntry]
  | cons d es ih =>
    obtain ⟨j, t⟩ := d
    rw [List.pairwise_cons] at h
    simp only [putEntry]
    split
    next hj =>
      subst hj
      exact List.pairwise_cons.mpr h
    next hj =>
      split
      next hb =>
        refine List.pairwise_cons.mpr ⟨?_, List.pairwise_cons.mpr h⟩
        intro e he
        rcases List.mem_cons.mp he with rfl | he
        · exact hb
        · exact Key.before_trans hb (h.1 e he)
      next hb =>
        refine List.pairwise_cons.mpr ⟨?_, ih h.2⟩
        intro e he
        rcases mem_putEntry he with rfl | he
        · rcases Key.before_or hj with h' | h'
          · exact absurd h' hb
          · exact h'
        · exact h.1 e he

theorem Ordered.put (h : Ordered r) (hs : s.isEmpty = false) : Ordered (r.put k s) := by
  refine ⟨sorted_putEntry h.sorted, ?_⟩
  intro e he
  rcases mem_putEntry he with rfl | he
  · exact hs
  · exact h.flagged e he

theorem Ordered.insert (h : Ordered r) : Ordered (r.insert k f) := by
  apply h.put
  apply FlagSet.isEmpty_eq_false (f := f)
  rw [FlagSet.contains_insert]
  simp

theorem putEntry_last (h : ∀ e ∈ es, e.1.before k = true) : putEntry k s es = es ++ [(k, s)] := by
  induction es with
  | nil => rfl
  | cons d es ih =>
    obtain ⟨j, t⟩ := d
    have hj : j.before k = true := h (j, t) (by simp)
    have hne : k ≠ j := by
      rintro rfl
      rw [Key.before_irrefl] at hj
      cases hj
    have hnot : k.before j = false := by
      rw [Bool.eq_false_iff]
      intro hb
      have := Key.before_trans hj hb
      rw [Key.before_irrefl] at this
      cases this
    simp only [putEntry, hne, hnot, if_false, Bool.false_eq_true, List.cons_append]
    rw [ih fun e he => h e (by simp [he])]

theorem ofRecords_entries (h : Ordered r) : ofRecords r.entries = r := by
  have hfilter : r.entries.filter (fun e => !e.2.isEmpty) = r.entries := by
    rw [List.filter_eq_self]
    intro e he
    rw [h.flagged e he]
    rfl
  have hfold : ∀ (es front : List (Key × FlagSet)),
      (front ++ es).Pairwise (fun e e' => e.1.before e'.1 = true) →
      es.foldl (fun (r : FlagRegistry) e => r.put e.1 e.2) ⟨front⟩ = ⟨front ++ es⟩ := by
    intro es
    induction es with
    | nil => intro front _; simp
    | cons e es ih =>
      intro front hp
      have hlast : ∀ d ∈ front, d.1.before e.1 = true := by
        intro d hd
        exact (List.pairwise_append.mp hp).2.2 d hd e (by simp)
      rw [List.foldl_cons, FlagRegistry.put, putEntry_last hlast, ih]
      · simp
      · simpa using hp
  have := hfold r.entries [] (by simpa using h.sorted)
  rw [ofRecords, hfilter]
  exact this

theorem Ordered.lookup (h : Ordered r) (hm : (k, s) ∈ r.entries) : r.entries.lookup k = some s := by
  obtain ⟨hsorted, -⟩ := h
  generalize r.entries = es at hm hsorted
  induction es with
  | nil => simp at hm
  | cons e es ih =>
    obtain ⟨j, t⟩ := e
    rw [List.pairwise_cons] at hsorted
    rcases List.mem_cons.mp hm with he | hm
    · cases he
      simp
    · have hb := hsorted.1 _ hm
      have hne : k ≠ j := by
        rintro rfl
        rw [Key.before_irrefl] at hb
        cases hb
      rw [List.lookup_cons, beq_eq_false_iff_ne.mpr hne]
      exact ih hm hsorted.2

theorem Ordered.mem_entries (h : Ordered r) :
    (k, s) ∈ r.entries ↔ r.get k = s ∧ s.isEmpty = false := by
  constructor
  · intro hm
    refine ⟨?_, h.flagged _ hm⟩
    rw [get, h.lookup hm, Option.getD_some]
  · rintro ⟨hget, hs⟩
    rw [get] at hget
    cases hl : r.entries.lookup k with
    | none =>
      rw [hl, Option.getD_none] at hget
      rw [← hget] at hs
      cases hs
    | some t =>
      rw [hl, Option.getD_some] at hget
      obtain ⟨l₁, l₂, hes, -⟩ := List.lookup_eq_some_iff.mp hl
      rw [hes, hget]
      simp

/-- A registry is told by the flags of every key. -/
theorem Ordered.ext {r' : FlagRegistry} (h : Ordered r) (h' : Ordered r')
    (he : ∀ k, r'.get k = r.get k) : r' = r := by
  have hnodup : ∀ {r : FlagRegistry}, Ordered r → r.entries.Nodup := by
    intro r h
    refine h.sorted.imp fun {e e'} hb he => ?_
    rw [he, Key.before_irrefl] at hb
    cases hb
  have hperm : r'.entries.Perm r.entries := by
    rw [List.perm_ext_iff_of_nodup (hnodup h') (hnodup h)]
    rintro ⟨k, s⟩
    rw [h.mem_entries, h'.mem_entries, he]
  have hentries : r'.entries = r.entries := by
    refine hperm.eq_of_pairwise (fun e e' _ _ hb hb' => ?_) h'.sorted h.sorted
    have := Key.before_trans hb hb'
    rw [Key.before_irrefl] at this
    cases this
  cases r
  cases r'
  exact congrArg FlagRegistry.mk hentries

theorem Ordered.mem_keysWith (h : Ordered r) {kind : ArtifactKind} :
    k ∈ r.keysWith kind f ↔ k.kind = kind ∧ r.has k f = true := by
  rw [keysWith, List.mem_map]
  constructor
  · rintro ⟨⟨j, t⟩, hm, rfl⟩
    rw [List.mem_filter] at hm
    simp only [Bool.and_eq_true, beq_iff_eq] at hm
    rw [has, get, h.lookup hm.1]
    exact hm.2
  · rintro ⟨hkind, hf⟩
    rw [has, get] at hf
    cases hl : r.entries.lookup k with
    | none =>
      rw [hl, Option.getD_none] at hf
      cases f <;> cases hf
    | some t =>
      rw [hl, Option.getD_some] at hf
      obtain ⟨l₁, l₂, hes, -⟩ := List.lookup_eq_some_iff.mp hl
      refine ⟨(k, t), List.mem_filter.mpr ⟨?_, ?_⟩, rfl⟩
      · rw [hes]
        simp
      · simp [hkind, hf]

theorem Ordered.sorted_keysWith (h : Ordered r) (kind : ArtifactKind) (f : Flag) :
    (r.keysWith kind f).Pairwise fun k k' => k.before k' = true := by
  rw [keysWith, List.pairwise_map]
  exact h.sorted.filter _

theorem Ordered.nodup_keysWith (h : Ordered r) (kind : ArtifactKind) (f : Flag) :
    (r.keysWith kind f).Nodup := by
  refine (h.sorted_keysWith kind f).imp fun {k k'} hb he => ?_
  rw [he, Key.before_irrefl] at hb
  cases hb

theorem mapM_of_forall {α β : Type} {f : α → Option β} {g : β → α} (h : ∀ b, f (g b) = some b)
    (bs : List β) : (bs.map g).mapM f = some bs := by
  induction bs with
  | nil => rfl
  | cons b bs ih => simp [h, ih]

theorem flag?_name (f : Flag) : flag? (.string f.name) = some f := by
  cases f <;> rfl

theorem record?_recordJson (e : Key × FlagSet) : record? (recordJson e) = some e := by
  have hflags := mapM_of_forall flag?_name e.2.toList
  simp [record?, recordJson, Json.fields?, Key.ofJson?_toJson, Json.list?, hflags,
    FlagSet.ofList_toList]

theorem document?_toJson (r : FlagRegistry) : document? r.toJson = some (version, r.entries) := by
  have hrecords := mapM_of_forall record?_recordJson r.entries
  have hversion : (Json.ofNat version).word? = some 1 := by decide
  simp [document?, toJson, Json.fields?, hversion, Json.list?, hrecords]
  rfl

theorem spells_toJson (r : FlagRegistry) :
    Json.Spells wanted Json.maxDepth r.toJson (Json.indentedChars 0 r.toJson) := by
  have hkey : ∀ (k : Key) (d depth : Nat),
      Json.Spells Key.wanted (d + 1) k.toJson (Json.indentedChars depth k.toJson) := by
    intro k d depth
    cases k with
    | code path =>
      apply Json.spells_indented_object
      intro p hp
      simp only [List.mem_cons, List.not_mem_nil, or_false] at hp
      rcases hp with rfl | rfl
      · exact ⟨.all, rfl, .string _⟩
      · exact ⟨.all, rfl, .string _⟩
    | build =>
      apply Json.spells_indented_object
      intro p hp
      rw [List.mem_singleton.mp hp]
      exact ⟨.all, rfl, .string _⟩
    | variability =>
      apply Json.spells_indented_object
      intro p hp
      rw [List.mem_singleton.mp hp]
      exact ⟨.all, rfl, .string _⟩
  apply Json.spells_indented_object
  intro p hp
  simp only [List.mem_cons, List.not_mem_nil, or_false] at hp
  rcases hp with rfl | rfl
  · exact ⟨.all, rfl, .natural (by decide)⟩
  · refine ⟨_, rfl, ?_⟩
    apply Json.spells_indented_array
    intro x hx i
    obtain ⟨e, -, rfl⟩ := List.mem_map.mp hx
    apply Json.spells_indented_object
    intro p hp
    simp only [List.mem_cons, List.not_mem_nil, or_false] at hp
    rcases hp with rfl | rfl
    · exact ⟨Key.wanted, rfl, hkey e.1 _ _⟩
    · refine ⟨.all, rfl, ?_⟩
      apply Json.spells_indented_array
      intro y hy i
      obtain ⟨f, -, rfl⟩ := List.mem_map.mp hy
      exact .string _

/-- The document of a registry is read back as that registry. -/
theorem document_roundtrip (h : Ordered r) :
    ((Json.take? wanted r.toJson.indented).bind document?).map (fun d => (d.1, ofRecords d.2)) =
      some (version, r) := by
  rw [Json.take?_indented (spells_toJson r), Option.bind_some, document?_toJson, Option.map_some,
    ofRecords_entries h]

end FlagRegistry

end SourceDelta
