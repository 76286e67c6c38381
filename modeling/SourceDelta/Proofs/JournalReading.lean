import SourceDelta.Journal
import SourceDelta.Proofs.Endings
import SourceDelta.Proofs.Instants
import SourceDelta.Proofs.Registry
import SourceDelta.Proofs.TextLines

/-!
# Reading a journal back

An entry is written as one line: line breaks in a path or in a detail are escaped,
and so is everything that would end a string. The lines of a journal are read back
as its entries, in their order.
-/

set_option autoImplicit false

namespace SourceDelta

theorem Utf8.encode_append (s t : String) : encode (s ++ t) = encode s ++ encode t := by
  simp [encode]

namespace Json

variable {ms : List (String × Json)}

theorem newline_not_mem_members (h : ∀ p ∈ ms, '\n' ∉ compactChars p.2) :
    '\n' ∉ compactMembers ms := by
  induction ms with
  | nil => simp [compactMembers]
  | cons p ms ih =>
    obtain ⟨k, v⟩ := p
    have hv : '\n' ∉ compactChars v := h (k, v) (by simp)
    have hrest := ih fun q hq => h q (by simp [hq])
    cases ms with
    | nil => simp [compactMembers, newline_not_mem_quote, hv]
    | cons q ms => simp [compactMembers, newline_not_mem_quote, hv, hrest]

theorem newline_not_mem_object (h : ∀ p ∈ ms, '\n' ∉ compactChars p.2) :
    '\n' ∉ compactChars (.object ms) := by
  simp [compactChars, newline_not_mem_members h]

theorem newline_not_mem_natural (n : Nat) : '\n' ∉ compactChars (.ofNat n) := by
  have htext : compactChars (.ofNat n) = Nat.toDigits 10 n := by
    simp [ofNat, compactChars, literal, Number.text]
  rw [htext]
  intro h
  exact absurd (Text.isDigit_of_mem_toDigits h) (by decide)

end Json

namespace Journal

/-- The details are read back as they are, from one line. -/
structure Legible (details : Json) : Prop where
  spelled : Json.Spells .all 126 details (Json.compactChars details)
  unbroken : '\n' ∉ Json.compactChars details
  canonical : details.canonical = details

theorem Action.ofName?_name (a : Action) : ofName? a.name = some a := by
  cases a <;> decide

namespace Entry

variable {e : Entry}

theorem spells_key (k : Key) (d : Nat) :
    Json.Spells Key.wanted (d + 1) k.toJson (Json.compactChars k.toJson) := by
  cases k with
  | code path =>
    apply Json.spells_compact_object
    intro p hp
    simp only [List.mem_cons, List.not_mem_nil, or_false] at hp
    rcases hp with rfl | rfl
    · exact ⟨.all, rfl, .string _⟩
    · exact ⟨.all, rfl, .string _⟩
  | build =>
    apply Json.spells_compact_object
    intro p hp
    rw [List.mem_singleton.mp hp]
    exact ⟨.all, rfl, .string _⟩
  | variability =>
    apply Json.spells_compact_object
    intro p hp
    rw [List.mem_singleton.mp hp]
    exact ⟨.all, rfl, .string _⟩

theorem newline_not_mem_key (k : Key) : '\n' ∉ Json.compactChars k.toJson := by
  cases k with
  | code path =>
    apply Json.newline_not_mem_object
    intro p hp
    simp only [List.mem_cons, List.not_mem_nil, or_false] at hp
    rcases hp with rfl | rfl
    · exact Json.newline_not_mem_quote _
    · exact Json.newline_not_mem_quote _
  | build => decide
  | variability => decide

theorem toJson_members (e : Entry) : ∃ ms, e.toJson = .object ms ∧ ∀ p ∈ ms,
    p = ("ts", .string e.time.text) ∨ p = ("action", .string e.action.name) ∨
      (∃ k : Key, p = ("key", k.toJson)) ∨ p = ("details", e.details) := by
  refine ⟨_, rfl, fun p hp => ?_⟩
  cases hk : e.key with
  | none =>
    rw [hk] at hp
    rcases List.mem_cons.mp hp with rfl | hp
    · exact .inl rfl
    rcases List.mem_cons.mp hp with rfl | hp
    · exact .inr (.inl rfl)
    · exact .inr (.inr (.inr (List.mem_singleton.mp hp)))
  | some k =>
    rw [hk] at hp
    rcases List.mem_cons.mp hp with rfl | hp
    · exact .inl rfl
    rcases List.mem_cons.mp hp with rfl | hp
    · exact .inr (.inl rfl)
    rcases List.mem_cons.mp hp with rfl | hp
    · exact .inr (.inr (.inl ⟨k, rfl⟩))
    · exact .inr (.inr (.inr (List.mem_singleton.mp hp)))

theorem exists_members (h : Legible e.details) : ∃ ms, e.toJson = .object ms ∧ ∀ p ∈ ms,
    (∃ w, wanted.member? p.1 = some w ∧ Json.Spells w 126 p.2 (Json.compactChars p.2)) ∧
      '\n' ∉ Json.compactChars p.2 := by
  obtain ⟨ms, hms, hparts⟩ := e.toJson_members
  refine ⟨ms, hms, fun p hp => ?_⟩
  rcases hparts p hp with rfl | rfl | ⟨k, rfl⟩ | rfl
  · exact ⟨⟨.all, rfl, .string _⟩, Json.newline_not_mem_quote _⟩
  · exact ⟨⟨.all, rfl, .string _⟩, Json.newline_not_mem_quote _⟩
  · exact ⟨⟨Key.wanted, rfl, spells_key k 125⟩, newline_not_mem_key k⟩
  · exact ⟨⟨.all, rfl, h.spelled⟩, h.unbroken⟩

theorem ofJson?_toJson (ht : e.time.Valid) (hd : e.details.canonical = e.details) :
    ofJson? e.toJson = some e := by
  obtain ⟨time, action, key, details⟩ := e
  have htime : Instant.ofText? time.text = some time := Instant.ofText?_text ht
  have hdetails : details.canonical = details := hd
  have hnotNull : ∀ k : Key, Json.nullable Key.ofJson? k.toJson = some (some k) := by
    intro k
    have hread := Key.ofJson?_toJson k
    cases k <;> simp [Key.toJson, Json.nullable] at hread ⊢ <;> exact hread
  cases key with
  | none =>
    simp [ofJson?, toJson, Json.fields?, Json.name?, Json.string?, Json.orElse, htime,
      Action.ofName?_name, hdetails]
  | some k =>
    simp [ofJson?, toJson, Json.fields?, Json.name?, Json.string?, Json.orElse, htime,
      Action.ofName?_name, hdetails, hnotNull]

theorem ofLine?_line (ht : e.time.Valid) (hd : Legible e.details) : ofLine? e.line = some e := by
  obtain ⟨ms, hms, hmembers⟩ := exists_members hd
  have htake : Json.take? wanted e.line = some e.toJson := by
    apply Json.take?_compact
    rw [hms]
    exact Json.spells_compact_object ms fun p hp => (hmembers p hp).1
  rw [ofLine?, htake, Option.bind_eq_bind, Option.bind_some, ofJson?_toJson ht hd.canonical]

/-- A line has no line break in it and stands between braces. -/
theorem line_eq (hd : Legible e.details) : ∃ cs, e.line.toList = '\x7b' :: cs ++ ['\x7d'] ∧
    '\n' ∉ e.line.toList := by
  obtain ⟨ms, hms, hmembers⟩ := exists_members hd
  rw [line, hms, Json.compact, String.toList_ofList]
  exact ⟨Json.compactMembers ms, by simp [Json.compactChars],
    Json.newline_not_mem_object fun p hp => (hmembers p hp).2⟩

end Entry

/-- What an entry tells but for its time. -/
structure Note where
  action : Action
  key : Option Key
  details : Json

def Note.entry (n : Note) (time : Instant) : Entry := ⟨time, n.action, n.key, n.details⟩

def Entry.note (e : Entry) : Note := ⟨e.action, e.key, e.details⟩

def text (es : List Entry) : String :=
  String.ofList (es.flatMap fun e => e.line.toList ++ ['\n'])

variable {es : List Entry}

theorem text_append (es es' : List Entry) : text (es ++ es') = text es ++ text es' := by
  rw [text, List.flatMap_append, String.ofList_append]
  rfl

theorem lines_text (h : ∀ e ∈ es, Legible e.details) :
    Text.lines (text es).toList = es.map (·.line.toList) := by
  rw [text, String.toList_ofList]
  induction es with
  | nil => rfl
  | cons e es ih =>
    obtain ⟨cs, hline, hbreak⟩ := Entry.line_eq (h e (by simp))
    have hreturn : Text.dropReturn e.line.toList = e.line.toList := by
      rw [hline, Text.dropReturn]
      simp
    rw [List.flatMap_cons, List.append_assoc, List.singleton_append, Text.lines_append hbreak,
      hreturn, ih fun e' he' => h e' (by simp [he'])]
    rfl

theorem ofLines_map (ht : ∀ e ∈ es, e.time.Valid) (hd : ∀ e ∈ es, Legible e.details) (n : Nat) :
    ofLines n (es.map (·.line.toList)) = .ok es := by
  induction es generalizing n with
  | nil => rfl
  | cons e es ih =>
    obtain ⟨cs, hline, -⟩ := Entry.line_eq (hd e (by simp))
    have hblank : Text.allBlank e.line.toList = false := by
      rw [hline, Text.allBlank, List.cons_append, List.all_cons]
      rfl
    have hrest := ih (fun e' he' => ht e' (by simp [he'])) (fun e' he' => hd e' (by simp [he']))
      (n + 1)
    rw [List.map_cons, ofLines, hblank, String.ofList_toList,
      Entry.ofLine?_line (ht e (by simp)) (hd e (by simp)), hrest]
    rfl

theorem ofLines_text (ht : ∀ e ∈ es, e.time.Valid) (hd : ∀ e ∈ es, Legible e.details) :
    ofLines 1 (Text.lines (text es).toList) = .ok es := by
  rw [lines_text hd, ofLines_map ht hd]

/-- A journal that is found is read as the entries of its lines. -/
theorem read_of_file {w : World} {path text : String}
    (hexists : w.files.pathExists w.place path = true)
    (hread : w.files.readFile w.place path = .ok (Utf8.encode text)) :
    (read path).run.run w =
      ((ofLines 1 (Text.lines text.toList)).mapError (Failure.journalText · path), w) := by
  unfold read
  rw [Task.run_bind, Task.run_ask, World.answer, hexists]
  simp only [if_true]
  unfold Task.readText
  rw [Task.run_bind, Task.run_bind, Task.run_attempt, World.answer, hread]
  simp only [Except.mapError, Utf8.decode?_encode]
  change (Task.ofExcept _ _).run.run w = _
  cases ofLines 1 (Text.lines text.toList) <;> rfl

end Journal

end SourceDelta
