import SourceDelta.Diff.MarkerLine

/-!
# Reading marker lines

A marker line names the two paths of a section, each as it is or between double
quotes. Quoted paths are read as they are meant, and every line with two names
is read.
-/

set_option autoImplicit false

namespace SourceDelta.Diff
open SourceDelta.Text

/-- Bytes as they are written between double quotes: characters as they are, and bytes by a letter
or by three octal digits. -/
inductive Escaped : Bytes → List Char → Prop
  | nil : Escaped [] []
  | char {c : Char} {bs : Bytes} {cs : List Char} (hquote : c ≠ '"') (hslash : c ≠ '\\')
      (h : Escaped bs cs) : Escaped (String.utf8EncodeChar c ++ bs) (c :: cs)
  | letter {e : Char} {b : UInt8} {bs : Bytes} {cs : List Char} (he : escape? e = some b)
      (h : Escaped bs cs) : Escaped (b :: bs) ('\\' :: e :: cs)
  | octal {x y z : Char} {b : UInt8} {bs : Bytes} {cs : List Char} (ho : octalByte? x y z = some b)
      (h : Escaped bs cs) : Escaped (b :: bs) ('\\' :: x :: y :: z :: cs)

inductive Quoted (s : List Char) : List Char → Prop
  | mk {cs : List Char} (h : Escaped (s.flatMap String.utf8EncodeChar) cs) :
      Quoted s ('"' :: (cs ++ ['"']))

inductive QuotedSide (side : Char) (path : List Char) : List Char → Prop
  | mk {cs : List Char} (h : Escaped (path.flatMap String.utf8EncodeChar) cs) :
      QuotedSide side path ('"' :: side :: '/' :: (cs ++ ['"']))

/-- Two names as they follow the marker. A path with a double quote is written between quotes. -/
inductive NamesText (p q : List Char) : List Char → Prop
  | plain (hp : '"' ∉ p) (hq : '"' ∉ q) : NamesText p q ("a/".toList ++ p ++ (" b/".toList ++ q))
  | quotedOld {a : List Char} (ha : QuotedSide 'a' p a) (hq : '"' ∉ q) :
      NamesText p q (a ++ (" b/".toList ++ q))
  | quotedNew {b : List Char} (hp : '"' ∉ p) (hb : QuotedSide 'b' q b) :
      NamesText p q ("a/".toList ++ p ++ ' ' :: b)
  | quotedBoth {a b : List Char} (ha : QuotedSide 'a' p a) (hb : QuotedSide 'b' q b) :
      NamesText p q (a ++ ' ' :: b)

variable {c side : Char} {p q s cs rest u v mark names : List Char} {bs : Bytes}

theorem escape?_not_octal {e : Char} {b : UInt8} (h : escape? e = some b) : isOctal e = false := by
  rw [escape?.eq_def] at h
  split at h
  all_goals first | rfl | cases h

theorem octalByte?_isOctal {x y z : Char} {b : UInt8} (h : octalByte? x y z = some b) :
    isOctal x = true ∧ isOctal y = true ∧ isOctal z = true := by
  rw [octalByte?] at h
  split at h
  next hall =>
    simp only [Bool.and_eq_true] at hall
    exact ⟨hall.1.1, hall.1.2, hall.2⟩
  next => cases h

theorem Escaped.quotedBytes?_append (h : Escaped bs cs) (v : List Char) :
    Diff.quotedBytes? (cs ++ v) = (Diff.quotedBytes? v).map fun r => (bs ++ r.1, r.2) := by
  induction h with
  | nil => simp
  | char hquote hslash h ih =>
    rw [List.cons_append, Diff.quotedBytes?.eq_def]
    simp only [if_neg hquote, if_neg hslash, ih]
    cases Diff.quotedBytes? v <;> simp
  | letter he h ih =>
    rw [List.cons_append, List.cons_append, Diff.quotedBytes?.eq_def]
    cases hv : Diff.quotedBytes? v <;> simp [escape?_not_octal he, he, ih, hv]
  | octal ho h ih =>
    rw [List.cons_append, List.cons_append, List.cons_append, List.cons_append,
      Diff.quotedBytes?.eq_def]
    cases hv : Diff.quotedBytes? v <;> simp [(octalByte?_isOctal ho).1, ho, ih, hv]

theorem Escaped.quotedBytes? (h : Escaped bs cs) :
    Diff.quotedBytes? (cs ++ '"' :: rest) = some (bs, rest) := by
  have hclose : Diff.quotedBytes? ('"' :: rest) = some ([], rest) := by
    rw [Diff.quotedBytes?.eq_def]
    exact if_pos rfl
  rw [h.quotedBytes?_append, hclose, Option.map_some, List.append_nil]

theorem decode?_flatMap (cs : List Char) :
    Utf8.decode? (cs.flatMap String.utf8EncodeChar) = some (String.ofList cs) := by
  have hencode : Utf8.encode (String.ofList cs) = cs.flatMap String.utf8EncodeChar := by
    rw [Utf8.encode, String.toByteArray_ofList, List.utf8Encode, List.data_toByteArray]
  rw [← hencode, Utf8.decode?_encode]

theorem Quoted.quoted? (h : Quoted s cs) (rest : List Char) :
    Diff.quoted? (cs ++ rest) = some (s, rest) := by
  obtain @⟨body, h⟩ := h
  rw [List.cons_append, List.append_assoc, Diff.quoted?, List.singleton_append]
  simp only [h.quotedBytes?, Option.bind_eq_bind, Option.bind_some, decode?_flatMap,
    String.toList_ofList]

theorem QuotedSide.quoted (h : QuotedSide side p cs) (hquote : side ≠ '"') (hslash : side ≠ '\\') :
    Quoted (side :: '/' :: p) cs := by
  obtain @⟨body, h⟩ := h
  have hside : Escaped ((side :: '/' :: p).flatMap String.utf8EncodeChar) (side :: '/' :: body) :=
    .char hquote hslash (.char (by decide) (by decide) h)
  exact ⟨hside⟩

theorem cutLast?_startsWith {a b : List Char} (h : cutLast? mark cs = some (a, b)) :
    ∃ t, b = mark ++ t := by
  induction cs generalizing a with
  | nil =>
    rw [cutLast?] at h
    split at h
    next hmark =>
      cases h
      exact ⟨[], by rw [hmark, List.append_nil]⟩
    next => cases h
  | cons c cs ih =>
    rw [cutLast?] at h
    split at h
    next a' b' hcut =>
      cases h
      exact ih hcut
    next =>
      split at h
      next hmark =>
        cases h
        exact startsWith_iff.mp hmark
      next => cases h

/-- A text that holds the mark is cut there or behind. -/
theorem cutLast?_append (hmark : mark ≠ []) (u v : List Char) :
    ∃ a b, cutLast? mark (u ++ (mark ++ v)) = some (u ++ a, mark ++ b) := by
  induction u with
  | nil =>
    cases mark with
    | nil => exact absurd rfl hmark
    | cons m ms =>
      rw [List.nil_append, List.cons_append, cutLast?]
      cases hcut : cutLast? (m :: ms) (ms ++ v) with
      | some ab =>
        obtain ⟨t, ht⟩ := cutLast?_startsWith hcut
        exact ⟨m :: ab.1, t, by rw [← ht]; rfl⟩
      | none => exact ⟨[], v, if_pos (startsWith_iff.mpr ⟨v, rfl⟩)⟩
  | cons c u ih =>
    obtain ⟨a, b, hcut⟩ := ih
    exact ⟨a, b, by rw [List.cons_append, cutLast?, hcut]; rfl⟩

theorem cutLast?_last (hmark : startsWith mark (c :: cs) = true) (hrest : cutLast? mark cs = none)
    (u : List Char) : cutLast? mark (u ++ c :: cs) = some (u, c :: cs) := by
  induction u with
  | nil =>
    rw [List.nil_append, cutLast?, hrest]
    exact if_pos hmark
  | cons d u ih => rw [List.cons_append, cutLast?, ih]

theorem cutLast?_cons (hmark : startsWith mark (c :: cs) = false)
    (hrest : cutLast? mark cs = none) : cutLast? mark (c :: cs) = none := by
  rw [cutLast?, hrest, hmark]
  rfl

theorem Escaped.head (h : Escaped bs (c :: cs)) : c ≠ '"' := by
  cases h with
  | char hquote => exact hquote
  | letter => decide
  | octal => decide

theorem Escaped.cutLast? (h : Escaped bs cs) :
    Text.cutLast? " \"b/".toList (cs ++ ['"']) = none := by
  have hother : ∀ {c : Char} {cs : List Char}, c ≠ ' ' →
      startsWith " \"b/".toList (c :: cs) = false := by
    intro c cs hc
    exact congrArg Option.isSome (if_neg (Ne.symm hc))
  induction h with
  | nil => rfl
  | @char c bs cs hquote hslash h ih =>
    refine cutLast?_cons ?_ ih
    -- Behind a space stands another character of the path, a backslash, or the closing quote.
    by_cases hc : c = ' '
    · subst hc
      cases cs with
      | nil => rfl
      | cons d cs =>
        have hd : ¬ '"' = d := Ne.symm h.head
        simp [startsWith, after?, hd]
    · exact hother hc
  | letter he h ih =>
    refine cutLast?_cons (hother (by decide)) (cutLast?_cons (hother ?_) ih)
    rintro rfl
    cases he
  | octal ho h ih =>
    obtain ⟨hx, hy, hz⟩ := octalByte?_isOctal ho
    have hdigit : ∀ {x : Char}, isOctal x = true → x ≠ ' ' := by
      rintro x hx rfl
      exact absurd hx (by decide)
    exact cutLast?_cons (hother (by decide)) (cutLast?_cons (hother (hdigit hx))
      (cutLast?_cons (hother (hdigit hy)) (cutLast?_cons (hother (hdigit hz)) ih)))

theorem QuotedSide.cutLast? (h : QuotedSide 'b' q cs) (u : List Char) :
    Text.cutLast? " \"b/".toList (u ++ ' ' :: cs) = some (u, ' ' :: cs) := by
  obtain @⟨body, h⟩ := h
  refine cutLast?_last rfl ?_ u
  exact cutLast?_cons rfl (cutLast?_cons rfl (cutLast?_cons rfl h.cutLast?))

theorem trimEnd_append_cons (hc : isBlank c = false) (u v : List Char) :
    trimEnd (u ++ c :: v) = u ++ c :: trimEnd v := by
  have hstop : (c :: u.reverse).dropWhile isBlank = c :: u.reverse :=
    List.dropWhile_cons_of_neg (by rw [hc]; exact Bool.false_ne_true)
  rw [trimEnd, trimEnd, List.reverse_append, List.reverse_cons, List.append_assoc,
    List.singleton_append, List.dropWhile_append, hstop]
  split
  next hempty =>
    rw [List.isEmpty_iff.mp hempty]
    simp
  next => simp

theorem paths?_of_quotedSides? (hquoted : (startsWith ['"'] cs || (before? ['"'] cs).isSome) = true)
    (htrim : trimEnd names = cs)
    (hsides : quotedSides? cs = some ("a/".toList ++ p, "b/".toList ++ q)) :
    paths? names = some (forward p, forward q) := by
  rw [paths?, htrim]
  simp only [hquoted, if_true, sides?, hsides, Option.bind_eq_bind, Option.bind_some,
    after?_eq_some.mpr rfl]

theorem Quoted.startsWith (h : Quoted s cs) (rest : List Char) :
    startsWith ['"'] (cs ++ rest) = true := by
  obtain ⟨h⟩ := h
  rfl

theorem Quoted.trimEnd (h : Quoted s cs) (u : List Char) : Text.trimEnd (u ++ cs) = u ++ cs := by
  obtain @⟨body, h⟩ := h
  have hend := trimEnd_append_cons (c := '"') (by decide) (u ++ '"' :: body) []
  simpa [Text.trimEnd] using hend

theorem Quoted.before? (h : Quoted s cs) (u : List Char) :
    (Text.before? ['"'] (u ++ cs)).isSome = true := by
  obtain @⟨body, h⟩ := h
  simp [Text.before?, after?]

theorem Quoted.quotedNew (h : Quoted s cs) : Diff.quoted? cs = some (s, []) := by
  have hread := h.quoted? []
  rwa [List.append_nil] at hread

theorem paths?_quotedOld {a : List Char} (ha : Quoted ("a/".toList ++ p) a) :
    paths? (a ++ (" b/".toList ++ q)) = some (forward p, forward (trimEnd q)) := by
  have htrim : trimEnd (a ++ (" b/".toList ++ q)) = a ++ (" b/".toList ++ trimEnd q) := by
    have hslash := trimEnd_append_cons (c := '/') (by decide) (a ++ " b".toList) q
    simpa using hslash
  refine paths?_of_quotedSides? (by rw [ha.startsWith, Bool.true_or]) htrim ?_
  rw [quotedSides?, if_pos (ha.startsWith _), ha.quoted?]
  rfl

theorem paths?_quotedNew {b : List Char} (hb : QuotedSide 'b' q b) :
    paths? ("a/".toList ++ p ++ ' ' :: b) = some (forward p, forward q) := by
  have hquoted : Quoted ("b/".toList ++ q) b := hb.quoted (by decide) (by decide)
  have hsplit : "a/".toList ++ p ++ ' ' :: b = ("a/".toList ++ p ++ [' ']) ++ b := by simp
  have hstarts : startsWith ['"'] b = true := List.append_nil b ▸ hquoted.startsWith []
  refine paths?_of_quotedSides? ?_ (hsplit ▸ hquoted.trimEnd _) ?_
  · rw [hsplit, hquoted.before?, Bool.or_true]
  · have hplain : startsWith ['"'] ("a/".toList ++ p ++ ' ' :: b) = false := rfl
    rw [quotedSides?, hplain, if_neg Bool.false_ne_true, hb.cutLast?]
    simp [hstarts, hquoted.quotedNew]

theorem paths?_quotedBoth {a b : List Char} (ha : Quoted ("a/".toList ++ p) a)
    (hb : Quoted ("b/".toList ++ q) b) : paths? (a ++ ' ' :: b) = some (forward p, forward q) := by
  have hsplit : a ++ ' ' :: b = (a ++ [' ']) ++ b := by simp
  have hstarts : startsWith ['"'] b = true := List.append_nil b ▸ hb.startsWith []
  refine paths?_of_quotedSides? (by rw [ha.startsWith, Bool.true_or]) (hsplit ▸ hb.trimEnd _) ?_
  rw [quotedSides?, if_pos (ha.startsWith _), ha.quoted?]
  simp [after?, hstarts, hb.quotedNew]

theorem not_quoted (h : '"' ∉ cs) :
    (startsWith ['"'] cs || (before? ['"'] cs).isSome) = false := by
  rw [Bool.or_eq_false_iff, Bool.eq_false_iff, Bool.eq_false_iff]
  constructor
  · intro hstart
    obtain ⟨rest, rfl⟩ := startsWith_iff.mp hstart
    exact h (by simp)
  · intro hend
    obtain ⟨a, ha⟩ := Option.isSome_iff_exists.mp hend
    rw [before?_eq_some.mp ha] at h
    exact h (by simp)

theorem mem_of_mem_trimEnd (h : c ∈ trimEnd cs) : c ∈ cs := by
  have hsuffix := (List.dropWhile_suffix isBlank).mem (List.mem_reverse.mp h)
  exact List.mem_reverse.mp hsuffix

theorem trimEnd_plain (p q : List Char) : trimEnd ("a/".toList ++ p ++ (" b/".toList ++ q)) =
    "a/".toList ++ p ++ (" b/".toList ++ trimEnd q) := by
  have hslash := trimEnd_append_cons (c := '/') (by decide) ("a/".toList ++ p ++ " b".toList) q
  simpa using hslash

theorem not_quoted_plain (hp : '"' ∉ p) (hq : '"' ∉ q) :
    (startsWith ['"'] ("a/".toList ++ p ++ (" b/".toList ++ trimEnd q)) ||
      (before? ['"'] ("a/".toList ++ p ++ (" b/".toList ++ trimEnd q))).isSome) = false := by
  refine not_quoted ?_
  have hend : '"' ∉ trimEnd q := fun hmem => hq (mem_of_mem_trimEnd hmem)
  simp [hp, hend]

theorem paths?_plain (hp : '"' ∉ p) (hq : '"' ∉ q) :
    (paths? ("a/".toList ++ p ++ (" b/".toList ++ q))).isSome = true := by
  have hunquoted := not_quoted_plain hp hq
  have hmark : " b/".toList ≠ [] := by decide
  obtain ⟨a, b, hcut⟩ := cutLast?_append hmark ("a/".toList ++ p) (trimEnd q)
  rw [paths?, trimEnd_plain]
  simp only [hunquoted, Bool.false_eq_true, if_false, sides?, hcut]
  split
  · rfl
  · simp [after?]

/-- Every line with two names is read. -/
theorem NamesText.paths? (h : NamesText p q names) : (Diff.paths? names).isSome = true := by
  cases h with
  | plain hp hq => exact paths?_plain hp hq
  | quotedOld ha => rw [paths?_quotedOld (ha.quoted (by decide) (by decide))]; rfl
  | quotedNew hp hb => rw [paths?_quotedNew hb]; rfl
  | quotedBoth ha hb =>
    rw [paths?_quotedBoth (ha.quoted (by decide) (by decide)) (hb.quoted (by decide) (by decide))]
    rfl

theorem backslash_not_mem_forward (cs : List Char) : '\\' ∉ forward cs := by
  intro h
  obtain ⟨c, -, hc⟩ := List.mem_map.mp h
  split at hc
  · exact absurd hc (by decide)
  next hne => exact hne hc

theorem forward_eq_self (h : '\\' ∉ cs) : forward cs = cs := by
  have hsame : cs.map (fun c => if c = '\\' then '/' else c) = cs.map id :=
    List.map_congr_left fun c hc => if_neg (ne_of_mem_of_not_mem hc h)
  rw [forward, hsame, List.map_id]

theorem backslash_not_mem_paths? {a b : List Char} (h : paths? names = some (a, b)) :
    '\\' ∉ a ∧ '\\' ∉ b := by
  rw [paths?] at h
  split at h
  · cases h
    exact ⟨backslash_not_mem_forward _, backslash_not_mem_forward _⟩
  · obtain ⟨⟨u, v⟩, -, h⟩ := Option.bind_eq_some_iff.mp h
    obtain ⟨old, -, h⟩ := Option.bind_eq_some_iff.mp h
    obtain ⟨new, -, h⟩ := Option.bind_eq_some_iff.mp h
    cases h
    exact ⟨backslash_not_mem_forward _, backslash_not_mem_forward _⟩

end SourceDelta.Diff
