import SourceDelta.Proofs.PlainNames

/-!
# Names between quotes

A name between quotes is read as it is meant, whichever of its bytes are escaped,
and beside another name with quotes or without. Where a text between quotes does
not end, or has an escape that stands for no byte, or names bytes of no text, the
whole line is refused.
-/

set_option autoImplicit false

namespace SourceDelta.Diff
open SourceDelta.Text

/-- Two names as they follow the marker, one of them quoted at least. A name without quotes has none
inside, and no blank characters at the end of the line. Behind such a name the other side is found
by the prefix after its opening quote, so that stands there as it is. -/
inductive QuotedNames (p q : List Char) : List Char → Prop
  | old {a : List Char} (ha : Quoted ("a/".toList ++ p) a) (hq : '"' ∉ q) (hend : trimEnd q = q) :
      QuotedNames p q (a ++ (" b/".toList ++ q))
  | new {b : List Char} (hp : '"' ∉ p) (hb : QuotedSide 'b' q b) :
      QuotedNames p q ("a/".toList ++ p ++ ' ' :: b)
  | both {a b : List Char} (ha : Quoted ("a/".toList ++ p) a) (hb : Quoted ("b/".toList ++ q) b) :
      QuotedNames p q (a ++ ' ' :: b)

/-- What follows a backslash is no escape: neither a letter that stands for a byte nor three octal
digits that do. -/
def NoEscape (cs : List Char) : Prop :=
  (∀ e b rest, cs = e :: rest → escape? e ≠ some b) ∧
    ∀ x y z b rest, cs = x :: y :: z :: rest → octalByte? x y z ≠ some b

/-- What follows an opening quote is no quoted text: it has no closing quote, or a backslash without
an escape before that, or its bytes are not those of a text. -/
inductive Spoiled : List Char → Prop
  | unclosed {bs : Bytes} {cs : List Char} (h : Escaped bs cs) : Spoiled cs
  | escape {bs : Bytes} {cs rest : List Char} (h : Escaped bs cs) (hno : NoEscape rest) :
      Spoiled (cs ++ '\\' :: rest)
  | bytes {bs : Bytes} {cs : List Char} (h : Escaped bs cs) (hno : ∀ s, Utf8.encode s ≠ bs)
      (rest : List Char) : Spoiled (cs ++ '"' :: rest)

/-- The line starts with a quote, and one of its quoted names is spoiled. -/
inductive SpoiledNames : List Char → Prop
  | old {cs : List Char} (h : Spoiled cs) : SpoiledNames ('"' :: cs)
  | new {s a cs : List Char} (ha : Quoted s a) (h : Spoiled cs) :
      SpoiledNames (a ++ ' ' :: '"' :: cs)

variable {p q s a cs rest names line : List Char} {bs : Bytes}

theorem QuotedNames.paths? (hp : '\\' ∉ p) (hq : '\\' ∉ q) (h : QuotedNames p q names) :
    Diff.paths? names = some (p, q) := by
  have hforward : forward p = p ∧ forward q = q := ⟨forward_eq_self hp, forward_eq_self hq⟩
  cases h with
  | old ha _ hend => rw [paths?_quotedOld ha, hend, hforward.1, hforward.2]
  | new _ hb => rw [paths?_quotedNew hb, hforward.1, hforward.2]
  | both ha hb => rw [paths?_quotedBoth ha hb, hforward.1, hforward.2]

/-- What reading stops at: the end, a closing quote, or a backslash without an escape. -/
inductive Stop : List Char → Prop
  | ended : Stop []
  | closed (rest : List Char) : Stop ('"' :: rest)
  | stuck {rest : List Char} (h : NoEscape rest) : Stop ('\\' :: rest)

theorem NoEscape.quotedBytes? (h : NoEscape rest) : Diff.quotedBytes? ('\\' :: rest) = none := by
  rw [Diff.quotedBytes?.eq_def]
  simp only [Char.reduceEq, if_false, if_true]
  cases rest with
  | nil => rfl
  | cons e rest =>
    dsimp only
    split
    · rcases rest with _ | ⟨y, _ | ⟨z, rest⟩⟩
      · rfl
      · rfl
      · have hnone : octalByte? e y z = none :=
          Option.eq_none_iff_forall_ne_some.mpr fun b => h.2 e y z b rest rfl
        simp [hnone]
    · have hnone : escape? e = none :=
        Option.eq_none_iff_forall_ne_some.mpr fun b => h.1 e b rest rfl
      simp [hnone]

def Stops (cs : List Char) : Prop :=
  ∃ bs body rest, Escaped bs body ∧ Stop rest ∧ cs = body ++ rest

theorem Stop.stops (h : Stop cs) : Stops cs := ⟨[], [], cs, .nil, h, rfl⟩

theorem Stops.behind (h : Stops cs) (front : List Char) (w : Bytes)
    (hfront : ∀ {bs body}, Escaped bs body → Escaped (w ++ bs) (front ++ body)) :
    Stops (front ++ cs) := by
  obtain ⟨bs, body, rest, hbody, hrest, rfl⟩ := h
  exact ⟨w ++ bs, front ++ body, rest, hfront hbody, hrest, (List.append_assoc _ _ _).symm⟩

theorem noEscape_octal {e : Char} (he : isOctal e = true)
    (h : ∀ y z b more, rest = y :: z :: more → octalByte? e y z ≠ some b) :
    NoEscape (e :: rest) := by
  refine ⟨?_, ?_⟩
  · rintro _ b _ ⟨⟩ hletter
    rw [escape?_not_octal hletter] at he
    cases he
  · rintro _ y z b more ⟨⟩
    exact h y z b more rfl

theorem noEscape_letter {e : Char} (he : ¬ isOctal e = true) (h : escape? e = none) :
    NoEscape (e :: rest) := by
  refine ⟨?_, ?_⟩
  · rintro _ b _ ⟨⟩ hletter
    rw [h] at hletter
    cases hletter
  · rintro _ y z b more ⟨⟩ ho
    exact he (octalByte?_isOctal ho).1

/-- Reading always stops somewhere. -/
theorem stops (cs : List Char) : Stops cs := by
  induction cs using quotedBytes?.induct with
  | case1 => exact Stop.ended.stops
  | case2 rest => exact (Stop.closed rest).stops
  | case3 => exact (Stop.stuck ⟨by simp, by simp⟩).stops
  | case4 e hoctal y z rest _ ih =>
    cases ho : octalByte? e y z with
    | some b => exact ih.behind ['\\', e, y, z] [b] fun h => .octal ho h
    | none =>
      refine (Stop.stuck (noEscape_octal hoctal ?_)).stops
      rintro _ _ b _ ⟨⟩ hb
      rw [ho] at hb
      cases hb
  | case5 e rest hoctal hshort _ =>
    refine (Stop.stuck (noEscape_octal hoctal ?_)).stops
    exact fun y z _ more h => (hshort y z more h).elim
  | case6 e rest hoctal _ ih =>
    cases he : escape? e with
    | some b => exact ih.behind ['\\', e] [b] fun h => .letter he h
    | none => exact (Stop.stuck (noEscape_letter hoctal he)).stops
  | case7 c rest hquote hslash ih =>
    exact ih.behind [c] _ fun h => .char hquote hslash h

theorem quotedBytes?_eq_some :
    quotedBytes? cs = some (bs, rest) ↔ ∃ body, Escaped bs body ∧ cs = body ++ '"' :: rest := by
  constructor
  · intro h
    obtain ⟨bs', body, stop, hbody, hstop, rfl⟩ := stops cs
    cases hstop with
    | ended =>
      rw [hbody.quotedBytes?_append] at h
      cases h
    | closed more =>
      rw [hbody.quotedBytes?] at h
      cases h
      exact ⟨body, hbody, rfl⟩
    | stuck hno =>
      rw [hbody.quotedBytes?_append, hno.quotedBytes?] at h
      cases h
  · rintro ⟨body, hbody, rfl⟩
    exact hbody.quotedBytes?

theorem quoted?_cons (cs : List Char) : quoted? ('"' :: cs) = (quotedBytes? cs).bind fun r =>
    (Utf8.decode? r.1).map fun s => (s.toList, r.2) := by
  rw [quoted?]
  cases quotedBytes? cs with
  | none => rfl
  | some r => cases h : Utf8.decode? r.1 <;> simp [h]

theorem quoted?_eq_none : quoted? ('"' :: cs) = none ↔ Spoiled cs := by
  rw [quoted?_cons]
  constructor
  · intro h
    obtain ⟨bs, body, stop, hbody, hstop, rfl⟩ := stops cs
    cases hstop with
    | ended =>
      rw [List.append_nil]
      exact .unclosed hbody
    | closed rest =>
      rw [hbody.quotedBytes?, Option.bind_some, Option.map_eq_none_iff] at h
      refine .bytes hbody (fun s hs => ?_) rest
      rw [← hs, Utf8.decode?_encode] at h
      cases h
    | stuck hno => exact .escape hbody hno
  · intro h
    cases h with
    | unclosed h =>
      rw [← List.append_nil cs, h.quotedBytes?_append]
      rfl
    | escape h hno =>
      rw [h.quotedBytes?_append, hno.quotedBytes?]
      rfl
    | bytes h hno =>
      have hnone : Utf8.decode? _ = none := Option.eq_none_iff_forall_ne_some.mpr
        fun s hs => hno s (Utf8.encode_of_decode? hs)
      rw [h.quotedBytes?, Option.bind_some, hnone]
      rfl

theorem quoted?_append {t : List Char} (h : quoted? ('"' :: cs) = some (s, rest)) :
    quoted? ('"' :: cs ++ t) = some (s, rest ++ t) := by
  rw [quoted?_cons] at h
  obtain ⟨⟨bs, more⟩, hbytes, h⟩ := Option.bind_eq_some_iff.mp h
  obtain ⟨text, htext, h⟩ := Option.map_eq_some_iff.mp h
  cases h
  obtain ⟨body, hbody, rfl⟩ := quotedBytes?_eq_some.mp hbytes
  rw [List.cons_append, quoted?_cons, List.append_assoc, List.cons_append, hbody.quotedBytes?,
    Option.bind_some, htext]
  rfl

theorem Spoiled.quoted?_trimEnd (h : Spoiled cs) : Diff.quoted? ('"' :: trimEnd cs) = none := by
  obtain ⟨t, ht, -⟩ := exists_trimEnd cs
  rw [Option.eq_none_iff_forall_ne_some]
  rintro ⟨s, rest⟩ hread
  have hlonger := quoted?_append (t := t) hread
  rw [List.cons_append, ← ht, quoted?_eq_none.mpr h] at hlonger
  cases hlonger

theorem paths?_of_quotedSides?_eq_none (hstart : startsWith ['"'] (trimEnd line) = true)
    (h : quotedSides? (trimEnd line) = none) : paths? line = none := by
  rw [paths?, hstart]
  simp only [Bool.true_or, if_true, sides?, hstart, h]
  rfl

theorem SpoiledNames.paths? (h : SpoiledNames line) : Diff.paths? line = none := by
  cases h with
  | @old cs h =>
    have htrim : trimEnd ('"' :: cs) = '"' :: trimEnd cs := trimEnd_append_cons (by decide) [] cs
    have hstart : startsWith ['"'] ('"' :: trimEnd cs) = true := rfl
    refine paths?_of_quotedSides?_eq_none (htrim ▸ hstart) ?_
    rw [htrim, quotedSides?, if_pos hstart, h.quoted?_trimEnd]
    rfl
  | @new s a cs ha h =>
    have htrim : trimEnd (a ++ ' ' :: '"' :: cs) = a ++ ' ' :: '"' :: trimEnd cs := by
      have hquote := trimEnd_append_cons (c := '"') (by decide) (a ++ [' ']) cs
      simpa using hquote
    refine paths?_of_quotedSides?_eq_none (htrim ▸ ha.startsWith _) ?_
    rw [htrim, quotedSides?, if_pos (ha.startsWith _), ha.quoted?]
    simp [after?, startsWith, h.quoted?_trimEnd]

end SourceDelta.Diff
