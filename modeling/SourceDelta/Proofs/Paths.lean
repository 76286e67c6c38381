import Mathlib.Data.List.Induction
import SourceDelta.Path
import SourceDelta.Proofs.TextLines

/-!
# Joined paths

A name below a directory: the lookup of the joined path passes the names of the
directory and then the name, and the parent of the path is the directory,
written without the slashes and dots at its end.
-/

set_option autoImplicit false

namespace SourceDelta.Path
open SourceDelta.Text

/-- A part of a path that counts: a name, or two dots. -/
structure IsPart (n : String) : Prop where
  ne_empty : n ≠ ""
  noSlash : '/' ∉ n.toList
  ne_dot : n ≠ "."

/-- A name that a directory can hold. -/
structure IsName (n : String) : Prop extends IsPart n where
  ne_dots : n ≠ ".."

def trimmed (d : String) : String :=
  String.ofList ((cutHead d).1 ++ Text.join '/' (dropEmptyNames (cutHead d).2))

variable {d n : String}

theorem IsPart.toList_ne_nil (h : IsPart n) : n.toList ≠ [] :=
  fun he => h.ne_empty (String.toList_eq_nil_iff.mp he)

theorem IsPart.not_absolute (h : IsPart n) : isAbsolute n = false := by
  have hs := h.noSlash
  cases hn : n.toList with
  | nil => simp [isAbsolute, hn]
  | cons c cs =>
    rw [hn, List.mem_cons, not_or] at hs
    simp [isAbsolute, hn, Ne.symm hs.1]

theorem IsPart.not_empty_name (h : IsPart n) : isEmptyName n.toList = false := by
  have hd : n.toList ≠ ['.'] := fun he => h.ne_dot (String.toList_injective (by rw [he]; rfl))
  simp [isEmptyName, h.toList_ne_nil, hd]

theorem toList_join (h : IsPart n) :
    d = "" ∧ (join d n).toList = n.toList ∨
    (∃ cs, d.toList = cs ++ ['/'] ∧ (join d n).toList = cs ++ '/' :: n.toList) ∨
    (d ≠ "" ∧ (join d n).toList = d.toList ++ '/' :: n.toList) := by
  by_cases hd : d = ""
  · exact .inl ⟨hd, by simp [join, hd]⟩
  by_cases hl : d.toList.getLast? = some '/'
  · obtain ⟨cs, hcs⟩ := List.getLast?_eq_some_iff.mp hl
    refine .inr (.inl ⟨cs, hcs, ?_⟩)
    simp [join, h.not_absolute, hd, hcs]
  · refine .inr (.inr ⟨hd, ?_⟩)
    simp [join, h.not_absolute, hd, hl]

theorem isAbsolute_join (h : IsPart n) : isAbsolute (join d n) = isAbsolute d := by
  rcases toList_join (d := d) h with ⟨rfl, hj⟩ | ⟨cs, hd, hj⟩ | ⟨hd, hj⟩
  · have := h.not_absolute
    simp only [isAbsolute] at this ⊢
    rw [hj, this]
    rfl
  · cases cs <;> simp [isAbsolute, hd, hj]
  · have hne : d.toList ≠ [] := fun he => hd (String.toList_eq_nil_iff.mp he)
    cases hl : d.toList with
    | nil => exact absurd hl hne
    | cons c cs => simp [isAbsolute, hl, hj]

theorem join_ne_empty (h : IsPart n) : join d n ≠ "" := by
  intro he
  have hn := h.toList_ne_nil
  rcases toList_join (d := d) h with ⟨-, hj⟩ | ⟨cs, -, hj⟩ | ⟨-, hj⟩ <;> simp [he, hn] at hj

theorem names_join (h : IsPart n) : names (join d n) = ((names d).1 ++ [n], false) := by
  have hn : pieces '/' n.toList = [n.toList] := pieces_of_not_mem h.noSlash
  have hne := h.toList_ne_nil
  rcases toList_join (d := d) h with ⟨rfl, hj⟩ | ⟨cs, hd, hj⟩ | ⟨-, hj⟩
  · simp [names, hj, hn, hne, pieces]
  · simp [names, hj, hd, hn, hne, pieces_append_sep, pieces]
  · simp [names, hj, hn, hne, pieces_append_sep]

theorem hasNul_join (h : IsPart n) :
    hasNul (join d n) = true ↔ hasNul d = true ∨ hasNul n = true := by
  rcases toList_join (d := d) h with ⟨rfl, hj⟩ | ⟨cs, hd, hj⟩ | ⟨-, hj⟩
  · simp [hasNul, hj]
  · simp [hasNul, hj, hd]
  · simp [hasNul, hj]

theorem join_size (h : IsPart n) :
    (join d n).utf8ByteSize = (join d "x").utf8ByteSize - 1 + n.utf8ByteSize := by
  have hx : isAbsolute "x" = false := by decide
  simp only [join, h.not_absolute, hx, Bool.false_or, decide_eq_true_eq]
  have h1 : "x".utf8ByteSize = 1 := by decide
  have h2 : "/".utf8ByteSize = 1 := by decide
  split
  · omega
  · split <;> simp only [String.utf8ByteSize_append] <;> omega

theorem join_join_size {m : String} (hm : IsPart m) (hn : IsPart n) :
    (join (join d m) n).utf8ByteSize = (join d m).utf8ByteSize + 1 + n.utf8ByteSize := by
  have h1 : "/".utf8ByteSize = 1 := by decide
  have hlast : ∀ cs, (join d m).toList ≠ cs ++ ['/'] := by
    intro cs hcs
    have hs : '/' ∉ m.toList := hm.noSlash
    obtain ⟨c, ms, hms⟩ := List.exists_cons_of_ne_nil hm.toList_ne_nil
    have hget : m.toList.getLast? = some '/' := by
      have hl := congrArg List.getLast? hcs
      rcases toList_join (d := d) hm with ⟨-, hj⟩ | ⟨ds, -, hj⟩ | ⟨-, hj⟩ <;>
        simp [hj, hms] at hl ⊢ <;> exact hl
    exact hs (List.mem_of_getLast? hget)
  rcases toList_join (d := join d m) hn with ⟨he, -⟩ | ⟨cs, hcs, -⟩ | ⟨-, hj⟩
  · exact absurd he (join_ne_empty hm)
  · exact absurd hcs (hlast cs)
  · have : join (join d m) n = join d m ++ "/" ++ n := String.toList_injective (by simp [hj])
    rw [this, String.utf8ByteSize_append, String.utf8ByteSize_append, h1]

theorem cutHead_append {p q : String} {ys : List Char} (hp : p.toList = q.toList ++ '/' :: ys)
    (hq : q ≠ "") : cutHead p = ((cutHead q).1, (cutHead q).2 ++ pieces '/' ys) := by
  have hne : q.toList ≠ [] := fun he => hq (String.toList_eq_nil_iff.mp he)
  rw [cutHead, cutHead, hp]
  match q.toList, hne with
  | '/' :: rest, _ => simp [pieces_append_sep]
  | ['.'], _ => simp [pieces]
  | '.' :: '/' :: rest, _ =>
    have := pieces_append_sep '/' ('/' :: rest) ys
    simpa using this
  | [c], _ =>
    by_cases h1 : c = '/'
    · simp [h1, pieces]
    by_cases h2 : c = '.'
    · simp [h2, pieces]
    · have := pieces_append_sep '/' [c] ys
      simp_all
  | c :: b :: rest, _ =>
    have := pieces_append_sep '/' (c :: b :: rest) ys
    by_cases h1 : c = '/'
    · simp [h1, ← pieces_append_sep]
    by_cases h2 : c = '.' ∧ b = '/'
    · obtain ⟨rfl, rfl⟩ := h2
      simpa using pieces_append_sep '/' ('/' :: rest) ys
    · simp_all

theorem dropEmptyNames_concat {ps : List (List Char)} {p : List Char}
    (h : isEmptyName p = false) : dropEmptyNames (ps ++ [p]) = ps ++ [p] := by
  simp [dropEmptyNames, h]

theorem dropEmptyNames_empty (ps : List (List Char)) :
    dropEmptyNames (ps ++ [[]]) = dropEmptyNames ps := by
  simp [dropEmptyNames, isEmptyName]

theorem cutHead_join (h : IsPart n) :
    ∃ ps, cutHead (join d n) = ((cutHead d).1, ps ++ [n.toList]) ∧
      dropEmptyNames ps = dropEmptyNames (cutHead d).2 := by
  have hn : pieces '/' n.toList = [n.toList] := pieces_of_not_mem h.noSlash
  rcases toList_join (d := d) h with ⟨rfl, hj⟩ | ⟨cs, hd, hj⟩ | ⟨hd, hj⟩
  · refine ⟨[], ?_, rfl⟩
    have hs := h.noSlash
    have hdot : n.toList ≠ ['.'] := fun he => h.ne_dot (String.toList_injective (by rw [he]; rfl))
    rw [← hn, cutHead, hj]
    split
    next rest hl => simp [hl] at hs
    next hl => exact absurd hl hdot
    next rest hl => simp [hl] at hs
    next => rfl
  · by_cases hcs : cs = []
    · subst hcs
      refine ⟨[], ?_, ?_⟩
      · simp [cutHead, hj, hd, hn]
      · simp [cutHead, hd, pieces, dropEmptyNames, isEmptyName]
    · have hq : String.ofList cs ≠ "" := fun he => hcs (by
        rw [← String.toList_ofList (l := cs), he]; rfl)
      have h1 := @cutHead_append (join d n) (String.ofList cs) n.toList
        (by simpa using hj) hq
      have h2 := @cutHead_append d (String.ofList cs) [] (by simpa using hd) hq
      refine ⟨(cutHead (String.ofList cs)).2, ?_, ?_⟩
      · rw [h1, h2, hn]
      · rw [h2]
        exact (dropEmptyNames_empty _).symm
  · exact ⟨(cutHead d).2, by rw [cutHead_append hj hd, hn], rfl⟩

theorem parent?_join (h : IsPart n) : parent? (join d n) = some (trimmed d) := by
  obtain ⟨ps, hcut, hps⟩ := cutHead_join (d := d) h
  have hne : ps ++ [n.toList] ≠ [] := by simp
  rw [parent?, hcut]
  simp only [dropEmptyNames_concat h.not_empty_name]
  cases hl : ps ++ [n.toList] with
  | nil => exact absurd hl hne
  | cons q qs =>
    rw [← hl]
    simp [parent?.join, trimmed, hps]

theorem fileName?_join (h : IsName n) : fileName? (join d n) = some n := by
  obtain ⟨ps, hcut, -⟩ := cutHead_join (d := d) h.toIsPart
  have hd : n.toList ≠ ['.', '.'] := fun he => h.ne_dots (String.toList_injective (by rw [he]; rfl))
  simp [fileName?, hcut, dropEmptyNames_concat h.not_empty_name, hd]

theorem isPart_dots : IsPart ".." := ⟨by decide, by decide, by decide⟩

theorem fileName?_join_dots : fileName? (join d "..") = none := by
  obtain ⟨ps, hcut, -⟩ := cutHead_join (d := d) isPart_dots
  have hd : isEmptyName "..".toList = false := by decide
  rw [fileName?, hcut]
  simp only [dropEmptyNames_concat hd, List.getLast?_append, List.getLast?_singleton,
    Option.some_or]
  decide

def counted (ps : List (List Char)) : List String := (ps.filter (· ≠ [])).map String.ofList

def cut (p : String) (qs : List (List Char)) : String :=
  String.ofList ((cutHead p).1 ++ Text.join '/' qs)

theorem pieces_join {sep : Char} {qs : List (List Char)} (hne : qs ≠ [])
    (h : ∀ q ∈ qs, sep ∉ q) : pieces sep (Text.join sep qs) = qs := by
  induction qs with
  | nil => exact absurd rfl hne
  | cons q qs ih =>
    have hq := pieces_of_not_mem (h q (by simp))
    cases qs with
    | nil => exact hq
    | cons r rs =>
      have := ih (by simp) (fun x hx => h x (by simp [hx]))
      rw [Text.join, pieces_append_sep, this, hq]
      · rfl
      · simp

theorem counted_pieces_join {qs : List (List Char)} (h : ∀ q ∈ qs, '/' ∉ q) :
    counted (pieces '/' (Text.join '/' qs)) = counted qs := by
  cases qs with
  | nil => rfl
  | cons q qs => rw [pieces_join (by simp) h]

theorem counted_nil_cons (ps : List (List Char)) : counted ([] :: ps) = counted ps := by
  simp [counted]

theorem counted_dot_cons (ps : List (List Char)) : counted (['.'] :: ps) = "." :: counted ps := by
  simp only [counted]
  rfl

theorem counted_append (ps qs : List (List Char)) :
    counted (ps ++ qs) = counted ps ++ counted qs := by
  simp [counted]

theorem names_eq (p : String) : (names p).1 = counted (pieces '/' p.toList) := rfl

theorem join_head_of_prefix {cs : List Char} {qs : List (List Char)} (h : cs.head? ≠ some '/')
    (hqs : qs <+: pieces '/' cs) (hl : ∀ x ∈ qs.getLast?, isEmptyName x = false) :
    (Text.join '/' qs).head? ≠ some '/' := by
  cases cs with
  | nil =>
    rcases List.prefix_cons_iff.mp hqs with rfl | ⟨t, rfl, ht⟩
    · simp [Text.join]
    · rw [List.prefix_nil] at ht
      subst ht
      simp [isEmptyName] at hl
  | cons c cs =>
    have hc : c ≠ '/' := by simpa using h
    obtain ⟨q, ps, hp⟩ : ∃ q ps, pieces '/' (c :: cs) = (c :: q) :: ps := by
      simp only [pieces, hc, if_false]
      cases pieces '/' cs with
      | nil => exact ⟨[], [], rfl⟩
      | cons q ps => exact ⟨q, ps, rfl⟩
    rw [hp] at hqs
    rcases List.prefix_cons_iff.mp hqs with rfl | ⟨t, rfl, -⟩
    · simp [Text.join]
    · cases t <;> simp [Text.join, hc]

theorem names_cut (p : String) :
    ∃ front : List String, (∀ x ∈ front, x = ".") ∧
      (names p).1 = front ++ counted (cutHead p).2 ∧
      ∀ qs, qs <+: (cutHead p).2 → (∀ x ∈ qs.getLast?, isEmptyName x = false) →
        (names (cut p qs)).1 = front ++ counted qs ∧ isAbsolute (cut p qs) = isAbsolute p := by
  have hslash : ∀ cs, ∀ q ∈ pieces '/' cs, '/' ∉ q := fun cs q hq => not_mem_of_mem_pieces hq
  simp only [names_eq, cut, isAbsolute, String.toList_ofList, cutHead]
  split
  next rest hp =>
    refine ⟨[], by simp, by simp [hp, pieces, counted_nil_cons], fun qs hqs _ => ⟨?_, by simp [hp]⟩⟩
    have := @counted_pieces_join qs fun q hq => hslash _ q (hqs.subset hq)
    simpa [pieces, counted_nil_cons] using this
  next hp =>
    refine ⟨["."], by simp, by simp [hp, pieces, counted_nil_cons, counted_dot_cons],
      fun qs hqs hl => ?_⟩
    rcases List.prefix_cons_iff.mp hqs with rfl | ⟨t, rfl, ht⟩
    · exact ⟨rfl, by simp [hp, Text.join]⟩
    · rw [List.prefix_nil] at ht
      subst ht
      simp [isEmptyName] at hl
  next rest hp =>
    refine ⟨["."], by simp, by simp [hp, pieces, counted_nil_cons, counted_dot_cons],
      fun qs hqs hl => ?_⟩
    simp only [pieces, if_true] at hqs
    rcases List.prefix_cons_iff.mp hqs with rfl | ⟨t, rfl, ht⟩
    · exact ⟨rfl, by simp [hp, Text.join]⟩
    · cases t with
      | nil => simp [isEmptyName] at hl
      | cons q t =>
        have := @counted_pieces_join (q :: t) fun x hx => hslash _ x (ht.subset hx)
        refine ⟨?_, by simp [hp]⟩
        simp [Text.join, pieces, counted_nil_cons, counted_dot_cons, this]
  next h1 h2 h3 =>
    have hp : p.toList.head? ≠ some '/' := by
      intro he
      obtain ⟨rest, hr⟩ := List.head?_eq_some_iff.mp he
      exact h1 rest hr
    refine ⟨[], by simp, by simp, fun qs hqs hl => ⟨?_, ?_⟩⟩
    · simpa using @counted_pieces_join qs fun q hq => hslash _ q (hqs.subset hq)
    · have hq := join_head_of_prefix hp hqs hl
      simp [hp, hq]

theorem dropEmptyNames_spec (ps : List (List Char)) :
    (∃ es, ps = dropEmptyNames ps ++ es ∧ ∀ e ∈ es, isEmptyName e = true) ∧
      ∀ x ∈ (dropEmptyNames ps).getLast?, isEmptyName x = false := by
  induction ps using List.reverseRecOn with
  | nil => exact ⟨⟨[], rfl, by simp⟩, by simp [dropEmptyNames]⟩
  | append_singleton ps p ih =>
    obtain ⟨⟨es, hes, hempty⟩, hlast⟩ := ih
    cases hp : isEmptyName p with
    | false =>
      rw [dropEmptyNames_concat hp]
      exact ⟨⟨[], by simp, by simp⟩, by simp [hp]⟩
    | true =>
      have hd : dropEmptyNames (ps ++ [p]) = dropEmptyNames ps := by simp [dropEmptyNames, hp]
      rw [hd]
      refine ⟨⟨es ++ [p], ?_, ?_⟩, hlast⟩
      · rw [← List.append_assoc, ← hes]
      · intro e he
        rcases List.mem_append.mp he with he | he
        · exact hempty e he
        · rwa [List.mem_singleton.mp he]

theorem prefix_dropEmptyNames (ps : List (List Char)) : dropEmptyNames ps <+: ps := by
  obtain ⟨⟨es, hes, -⟩, -⟩ := dropEmptyNames_spec ps
  exact ⟨es, hes.symm⟩

theorem counted_dots {es : List (List Char)} (h : ∀ e ∈ es, isEmptyName e = true) :
    ∀ x ∈ counted es, x = "." := by
  intro x hx
  simp only [counted, List.mem_map, List.mem_filter, decide_eq_true_eq] at hx
  obtain ⟨e, ⟨he, hne⟩, rfl⟩ := hx
  have := h e he
  simp only [isEmptyName, hne, decide_false, Bool.false_or, decide_eq_true_eq] at this
  rw [this]

theorem prefix_counted {qs ps : List (List Char)} (h : qs <+: ps) : counted qs <+: counted ps := by
  obtain ⟨rest, rfl⟩ := h
  rw [counted_append]
  exact List.prefix_append _ _

theorem isAbsolute_trimmed (d : String) : isAbsolute (trimmed d) = isAbsolute d := by
  obtain ⟨front, -, -, h⟩ := names_cut d
  exact (h _ (prefix_dropEmptyNames _) (dropEmptyNames_spec _).2).2

theorem prefix_join {sep : Char} {qs ps : List (List Char)} (h : qs <+: ps) :
    Text.join sep qs <+: Text.join sep ps := by
  induction qs generalizing ps with
  | nil => exact List.nil_prefix
  | cons q qs ih =>
    obtain ⟨rest, rfl⟩ := h
    cases qs with
    | nil =>
      cases rest with
      | nil => exact List.prefix_rfl
      | cons r rs => exact List.prefix_append _ _
    | cons r rs =>
      have := @ih ((r :: rs) ++ rest) (List.prefix_append _ _)
      simp only [List.cons_append, Text.join] at this ⊢
      exact List.prefix_append_right_inj q |>.mpr (List.cons_prefix_cons.mpr ⟨rfl, this⟩)

theorem cutHead_chars (p : String) : (cutHead p).1 ++ Text.join '/' (cutHead p).2 = p.toList := by
  rw [cutHead]
  split
  next rest hp => simp [hp, join_pieces]
  next hp => simp [hp, Text.join]
  next rest hp =>
    have := join_pieces '/' ('/' :: rest)
    rw [hp]
    simpa using this
  next => simp [join_pieces]

theorem prefix_trimmed (d : String) : (trimmed d).toList <+: d.toList := by
  rw [trimmed, String.toList_ofList, ← cutHead_chars d]
  exact List.prefix_append_right_inj _ |>.mpr (prefix_join (prefix_dropEmptyNames _))

theorem trimmed_join (h : IsPart n) : trimmed (join d n) = join d n := by
  obtain ⟨ps, hcut, -⟩ := cutHead_join (d := d) h
  have hchars := cutHead_chars (join d n)
  rw [hcut] at hchars
  rw [trimmed, hcut]
  simp only [dropEmptyNames_concat h.not_empty_name]
  rw [hchars, String.ofList_toList]

theorem size_le_of_prefix {p q : String} (h : p.toList <+: q.toList) :
    p.utf8ByteSize ≤ q.utf8ByteSize := by
  obtain ⟨rest, hr⟩ := h
  have : q = p ++ String.ofList rest := String.toList_injective (by simp [hr])
  rw [this, String.utf8ByteSize_append]
  omega

theorem hasNul_of_prefix {p q : String} (h : p.toList <+: q.toList) (hq : hasNul q = false) :
    hasNul p = false := by
  obtain ⟨rest, hr⟩ := h
  simp only [hasNul, ← hr, List.contains_eq_mem, List.mem_append, decide_eq_false_iff_not,
    not_or] at hq ⊢
  exact hq.1

theorem names_trimmed (d : String) :
    ∃ dots, (names d).1 = (names (trimmed d)).1 ++ dots ∧ ∀ x ∈ dots, x = "." := by
  obtain ⟨front, -, hd, h⟩ := names_cut d
  obtain ⟨⟨es, hes, hempty⟩, hlast⟩ := dropEmptyNames_spec (cutHead d).2
  refine ⟨counted es, ?_, counted_dots hempty⟩
  have ht := (h _ (prefix_dropEmptyNames _) hlast).1
  rw [trimmed, ← cut, ht, hd, List.append_assoc, ← counted_append, ← hes]

theorem names_of_parent? {p q : String} (h : parent? p = some q) :
    (names q).1 <+: (names p).1 ∧ (q ≠ "" → isAbsolute q = isAbsolute p) := by
  obtain ⟨front, -, hp, hcut⟩ := names_cut p
  simp only [parent?] at h
  split at h
  next =>
    split at h
    · cases h
      exact ⟨List.nil_prefix, fun hne => absurd rfl hne⟩
    · cases h
  next qs _ =>
    cases h
    have hpre : dropEmptyNames (dropEmptyNames (cutHead p).2).dropLast <+: (cutHead p).2 :=
      ((prefix_dropEmptyNames _).trans (List.dropLast_prefix _)).trans (prefix_dropEmptyNames _)
    obtain ⟨hn, ha⟩ := hcut _ hpre (dropEmptyNames_spec _).2
    have : String.ofList ((cutHead p).1 ++
        parent?.join '/' (dropEmptyNames (dropEmptyNames (cutHead p).2).dropLast)) =
      cut p (dropEmptyNames (dropEmptyNames (cutHead p).2).dropLast) := rfl
    rw [this]
    refine ⟨?_, fun _ => ha⟩
    rw [hn, hp]
    exact List.prefix_append_right_inj front |>.mpr (prefix_counted hpre)

end SourceDelta.Path
