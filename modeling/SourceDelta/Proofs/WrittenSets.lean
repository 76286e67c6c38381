import SourceDelta.DiffSet.Json
import SourceDelta.Proofs.JsonPrinted
import SourceDelta.Proofs.PathIndex
import SourceDelta.Proofs.Registry

/-!
# Writing and reading sets of changes

Whatever a change says, it is read as it was written, with the fields that its record
leaves out. So a set comes back with its changes in order, and with an index that names
the same place for every path, from a value as from either of its texts.
-/

set_option autoImplicit false

namespace SourceDelta

namespace Json

variable {d : Nat} {j : Json} {ms : List (String × Json)}

/-- A value of booleans, texts and naturals of 64 bits that nests at most so deep. -/
inductive Plain : Nat → Json → Prop
  | bool {d : Nat} (b : Bool) : Plain d (.bool b)
  | natural {d n : Nat} (small : n < 2 ^ 64) : Plain d (.ofNat n)
  | string {d : Nat} (s : String) : Plain d (.string s)
  | array {d : Nat} {xs : List Json} (items : ∀ x ∈ xs, Plain d x) : Plain (d + 1) (.array xs)
  | object {d : Nat} {ms : List (String × Json)} (members : ∀ p ∈ ms, Plain d p.2) :
    Plain (d + 1) (.object ms)

theorem Plain.spells (h : Plain d j) (depth : Nat) : Spells .all d j (indentedChars depth j) := by
  induction h generalizing depth with
  | bool b => cases b with
    | true => exact .yes
    | false => exact .no
  | natural small => exact .natural small
  | string s => exact .string s
  | array _ ih => exact spells_indented_array depth _ fun x hx _ => ih x hx _
  | object _ ih => exact spells_indented_object depth _ fun p hp => ⟨.all, rfl, ih p hp _⟩

theorem Plain.printed (h : Plain d j) : Printed d .all j := by
  induction h with
  | bool b => cases b with
    | true => exact printed_of_spells .yes
    | false => exact printed_of_spells .no
  | natural small => exact printed_of_spells (.natural small)
  | string s => exact printed_of_spells (.string s)
  | array _ ih => exact printed_array ih
  | object _ ih => exact printed_object fun p hp => ⟨.all, rfl, ih p hp⟩

theorem Plain.parse?_compact (h : Plain maxDepth j) : parse? j.compact = some j :=
  take?_printed h.printed

theorem Plain.parse?_indented (h : Plain maxDepth j) : parse? j.indented = some j :=
  take?_indented (h.spells 0)

theorem word?_ofNat (n : UInt32) : (ofNat n.toNat).word? = some n := by
  have hfits : (0 : Int) ≤ n.toNat ∧ (n.toNat : Int) < UInt32.size :=
    ⟨Int.natCast_nonneg _, Int.ofNat_lt.mpr n.toNat_lt⟩
  rw [word?, ofNat, integer?, Option.bind_eq_bind, Option.bind_some, if_pos hfits, Int.toNat_natCast,
    UInt32.ofNat_toNat]

theorem orElse_some {α : Type} (default : α) (read : Json → Option α) :
    orElse default read (some j) = read j := rfl

theorem filter_eq_lookup (h : (ms.map Prod.fst).Nodup) (k : String) :
    ms.filter (·.1 == k) = ((ms.lookup k).map fun v => (k, v)).toList := by
  induction ms with
  | nil => rfl
  | cons m ms ih =>
    obtain ⟨k', v⟩ := m
    rw [List.map_cons, List.nodup_cons] at h
    rw [List.filter_cons, List.lookup_cons]
    by_cases hk : k = k'
    · subst hk
      have hnone : ms.filter (·.1 == k) = [] := by
        rw [List.filter_eq_nil_iff]
        intro m hm he
        exact h.1 (List.mem_map.mpr ⟨m, hm, eq_of_beq he⟩)
      simp [hnone]
    · have hk' : k' ≠ k := fun he => hk he.symm
      simp only [beq_eq_false_iff_ne.mpr hk, beq_eq_false_iff_ne.mpr hk', Bool.false_eq_true,
        if_false]
      exact ih h.2

theorem fields?_object (h : (ms.map Prod.fst).Nodup) (names : List String) :
    (Json.object ms).fields? names = some (names.map fun k => ms.lookup k) := by
  rw [fields?]
  induction names with
  | nil => rfl
  | cons k names ih =>
    rw [List.mapM_cons, ih, filter_eq_lookup h]
    cases hlookup : ms.lookup k <;> simp [hlookup]

end Json

theorem Run.ofJson?_toJson (r : Run) : ofJson? r.toJson = some r := by
  obtain ⟨kind, count, content⟩ := r
  by_cases hcontent : content = ""
  · simp [ofJson?, toJson, Json.fields?, Json.name?, LineKind.ofName?_name, Json.word?_ofNat,
      Json.orElse, hcontent]
  · simp [ofJson?, toJson, Json.fields?, Json.name?, LineKind.ofName?_name, Json.word?_ofNat,
      Json.orElse, Json.string?, hcontent]

theorem Run.plain_toJson (r : Run) (d : Nat) : Json.Plain (d + 1) r.toJson := by
  refine .object fun p hp => ?_
  rcases List.mem_append.mp hp with hp | hp
  · simp only [List.mem_cons, List.not_mem_nil, or_false] at hp
    rcases hp with rfl | rfl
    · exact .string _
    · exact .natural (Nat.lt_trans r.count.toNat_lt (by decide))
  · split at hp
    · cases hp
    · rw [List.mem_singleton.mp hp]
      exact .string _

theorem Permissions.ofJson?_toJson (p : Permissions) : ofJson? p.toJson = some p := by
  rw [ofJson?, toJson, Json.word?_ofNat]
  rfl

namespace FileChange

variable {c : FileChange}

theorem permissions_field (p : Option Permissions) :
    Json.orElse none (Json.nullable Permissions.ofJson?) (p.map Permissions.toJson) = some p := by
  cases p with
  | none => rfl
  | some p =>
    have hread := p.ofJson?_toJson
    rw [Permissions.toJson, Json.ofNat] at hread
    rw [Option.map_some, Permissions.toJson, Json.ofNat, Json.orElse, Json.nullable, hread]
    · rfl
    · exact Json.noConfusion

theorem fields?_toJson (c : FileChange) : c.toJson.fields? fieldNames =
    some [some (.string c.path), some (.string c.kind.name), c.permissions.map Permissions.toJson,
      c.oldPermissions.map Permissions.toJson, some (.array (c.runs.map Run.toJson)),
      some (.bool c.noTrailingNewline), some (.bool c.binary), some (.string c.verdict.name)] := by
  rw [toJson]
  cases c.permissions <;> cases c.oldPermissions <;>
    exact Json.fields?_object (by simp [optional]) fieldNames

theorem ofJson?_toJson (c : FileChange) : ofJson? c.toJson = some c := by
  rw [ofJson?, fields?_toJson]
  simp [Json.name?, Json.string?, Json.list?, Json.bool?, ChangeKind.ofName?_name,
    permissions_field, FlagRegistry.mapM_of_forall Run.ofJson?_toJson, Json.orElse_some,
    Verdict.ofName?_name]

example : (plain "a" .addition).toJson.compact =
    "\x7b\"path\":\"a\",\"change_kind\":\"addition\",\"lines\":[],\"no_trailing_newline\":false," ++
      "\"binary\":false,\"variability_change\":\"not_analyzed\"\x7d" := by
  decide +kernel

theorem plain_toJson (c : FileChange) (d : Nat) : Json.Plain (d + 3) c.toJson := by
  have hpermissions : ∀ name p, ∀ m ∈ optional name p, Json.Plain (d + 2) m.2 := by
    intro name p m hm
    cases p with
    | none => cases hm
    | some p =>
      rw [List.mem_singleton.mp hm]
      exact .natural (Nat.lt_trans p.mode.toNat_lt (by decide))
  refine .object fun m hm => ?_
  simp only [List.append_assoc, List.mem_append, List.mem_cons, List.not_mem_nil, or_false] at hm
  rcases hm with (rfl | rfl) | hm | hm | rfl | rfl | rfl | rfl
  · exact .string _
  · exact .string _
  · exact hpermissions _ _ _ hm
  · exact hpermissions _ _ _ hm
  · refine .array fun j hj => ?_
    obtain ⟨r, -, rfl⟩ := List.mem_map.mp hj
    exact r.plain_toJson d
  · exact .bool _
  · exact .bool _
  · exact .string _

theorem listOfJson?_map (cs : List FileChange) :
    listOfJson? (.array (cs.map toJson)) = some cs :=
  FlagRegistry.mapM_of_forall ofJson?_toJson cs

end FileChange

theorem DiffSet.ofJson_toJson (s : DiffSet) : ofJson s.toJson = .ok s := by
  have hset : ofDistinct s.entries = .ok s := go_eq_ok.mpr rfl
  rw [ofJson, toJson, FileChange.listOfJson?_map]
  dsimp only
  rw [hset]

theorem DiffSet.plain_toJson (s : DiffSet) : Json.Plain Json.maxDepth s.toJson := by
  refine .array fun j hj => ?_
  obtain ⟨c, -, rfl⟩ := List.mem_map.mp hj
  exact c.plain_toJson 123

namespace Diff.Checked.Table

open DiffSet (ReadFault)

variable {t : Table} {s : DiffSet}

def toJson (t : Table) : Json := .array (t.entries.map FileChange.toJson)

def ofJson (j : Json) : Checked ReadFault Table :=
  match FileChange.listOfJson? j with
  | none => .error (.fault .shape)
  | some cs =>
    match ofDistinct cs with
    | .ok t => .ok t
    | .error (.fault path) => .error (.fault (.duplicate path))
    | .error (.trap t) => .error (.trap t)

/-- The tables hold the same changes in the same order, and their indices are the same map. -/
structure Equal (t t' : Table) : Prop where
  entries : t'.entries = t.entries
  places : ∀ p, t'.places.lookup p = t.places.lookup p

theorem Indexes.equal {t' : Table} (h : t.Indexes s) (h' : t'.Indexes s) : t.Equal t' where
  entries := h'.entries.trans h.entries.symm
  places p := Option.ext fun i => (h'.lookup p i).trans (h.lookup p i).symm

theorem Indexes.addAll {cs : List FileChange} {s' : DiffSet} (h : t.Indexes s)
    (hs : DiffSet.ofDistinct.go s cs = .ok s') :
    ∃ t', cs.foldlM addNew t = .ok t' ∧ t'.Indexes s' := by
  induction cs generalizing t s with
  | nil =>
    cases hs
    exact ⟨t, rfl, h⟩
  | cons c cs ih =>
    rw [DiffSet.ofDistinct.go] at hs
    split at hs
    next hnew =>
      obtain ⟨t₁, ht₁, h₁⟩ := h.addNew_fresh hnew
      rw [List.foldlM_cons, ht₁]
      exact ih h₁ hs
    next => cases hs

theorem indexes_ofDistinct (s : DiffSet) : ∃ t, ofDistinct s.entries = .ok t ∧ t.Indexes s :=
  Indexes.empty.addAll (DiffSet.go_eq_ok.mpr rfl)

/-- A set is read as it was written, as a value and from either text, and its table is read as a
table that is equal to it and answers every question as it does. -/
structure Survives (t : Table) (s : DiffSet) : Prop where
  value : DiffSet.ofJson s.toJson = .ok s
  compact : (Json.parse? s.toJson.compact).map DiffSet.ofJson = some (.ok s)
  indented : (Json.parse? s.toJson.indented).map DiffSet.ofJson = some (.ok s)
  table : ∃ t', ofJson t.toJson = .ok t' ∧ t.Equal t' ∧ ∀ p,
    (t'.get p : Checked ReadFault (Option FileChange)) = t.get p ∧
    (t.get p : Checked ReadFault (Option FileChange)) = .ok (s.get? p)

theorem Indexes.survives (h : t.Indexes s) : t.Survives s where
  value := s.ofJson_toJson
  compact := by rw [s.plain_toJson.parse?_compact, Option.map_some, s.ofJson_toJson]
  indented := by rw [s.plain_toJson.parse?_indented, Option.map_some, s.ofJson_toJson]
  table := by
    obtain ⟨t', ht', h'⟩ := indexes_ofDistinct s
    refine ⟨t', ?_, h.equal h', fun p => ⟨(h'.get p).trans (h.get p).symm, h.get p⟩⟩
    rw [ofJson, toJson, h.entries, FileChange.listOfJson?_map]
    dsimp only
    rw [ht']

theorem indexes_parse {contextLine : Bool} {text : String} (ht : parse contextLine text = .ok t) :
    ∃ s, Diff.parse contextLine text = .ok s ∧ t.Indexes s := by
  obtain ⟨hsame, -⟩ := no_trap contextLine text
  rw [ht] at hsame
  cases hs : Diff.parse contextLine text with
  | ok s =>
    rw [hs] at hsame
    exact ⟨s, rfl, Except.ok.inj hsame, inverse_parse ht⟩
  | error m =>
    rw [hs] at hsame
    cases hsame

/-- Sets survive in writing, whatever their changes say: the set of any changes with different paths,
and the set that any document is parsed as. -/
theorem read_written :
    (∀ cs : List FileChange, (cs.map FileChange.path).Nodup →
      ∃ s t, DiffSet.ofDistinct cs = .ok s ∧ s.entries = cs ∧ ofDistinct cs = .ok t ∧
        t.Survives s) ∧
    ∀ contextLine text t, parse contextLine text = .ok t →
      ∃ s, Diff.parse contextLine text = .ok s ∧ t.Survives s := by
  constructor
  · intro cs hdistinct
    obtain ⟨t, ht, hindexes⟩ := indexes_ofDistinct ⟨cs, hdistinct⟩
    exact ⟨⟨cs, hdistinct⟩, t, DiffSet.go_eq_ok.mpr rfl, rfl, ht, hindexes.survives⟩
  · intro contextLine text t ht
    obtain ⟨s, hs, hindexes⟩ := indexes_parse ht
    exact ⟨s, hs, hindexes.survives⟩

/-- Permissions on either side, runs with a text and without one, and each field once away from what
is read when it is left out. -/
def mixedChanges : List FileChange :=
  [⟨"a", .modification, some ⟨0o755⟩, none, [⟨.gap, 3, ""⟩, ⟨.added, 1, "x"⟩, ⟨.deleted, 1, ""⟩], true,
    false, .change⟩,
   ⟨"b \"c\"", .deletion, none, some ⟨0o644⟩, [], false, true, .notAnalyzed⟩]

def modeText : String := "diff --git a/f b/f\nold mode 100644\nnew mode 100755\n"

theorem read_written_mixed :
    (∃ s t, DiffSet.ofDistinct mixedChanges = .ok s ∧ s.entries = mixedChanges ∧
      ofDistinct mixedChanges = .ok t ∧ t.Survives s) ∧
    ∃ t s, parse true modeText = .ok t ∧ t.entries.length = 1 ∧ t.Survives s := by
  refine ⟨read_written.1 mixedChanges (by decide), ?_⟩
  obtain ⟨t, ht, hlength⟩ := Option.map_eq_some_iff.mp
    (show (parse true modeText).toOption.map (·.entries.length) = some 1 by decide +kernel)
  have hparse : parse true modeText = .ok t := toOption_eq_some.mp ht
  obtain ⟨s, -, hsurvives⟩ := read_written.2 true modeText t hparse
  exact ⟨t, s, hparse, hlength, hsurvives⟩

end Diff.Checked.Table

end SourceDelta
