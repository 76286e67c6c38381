import SourceDelta.Store.Layout

/-!
# The file names of code artifacts

A path and its file name determine each other: the name of a path is read back
as that path, and a name that is read as a path is the name of it. No file name
has a slash, and none looks like a staged file as long as the extension does not
end as those do.
-/

set_option autoImplicit false

namespace SourceDelta.FileName
open SourceDelta.Text

/-- An extension with which no artifact has the name of a staged file, and every artifact has a name
in the directory of its area. -/
structure Storable (ext : List Char) : Prop where
  ne_nil : ext ≠ []
  noSlash : '/' ∉ ext
  ne_tmp : ext ≠ "tmp".toList
  not_numbered : ∀ front (n : Nat),
    '.' :: ext ≠ front ++ '.' :: (toString n).toList ++ ".tmp".toList

/-- An extension with which every artifact is listed as well. -/
structure Usable (ext : List Char) : Prop where
  ne_nil : ext ≠ []
  noSlash : '/' ∉ ext
  ne_tmp : ext ≠ "tmp".toList
  not_tmp : ∀ front, ext ≠ front ++ ".tmp".toList

theorem slash_not_mem_encodeChar (c : Char) : '/' ∉ encodeChar c := by
  unfold encodeChar
  split
  · decide
  split
  · decide
  split
  · decide
  next h => simpa using Ne.symm h

theorem slash_not_mem_stem (path : List Char) : '/' ∉ stem path := by
  intro h
  obtain ⟨c, -, hc⟩ := List.mem_flatMap.mp h
  exact slash_not_mem_encodeChar c hc

theorem decodeStem_plain {c : Char} (cs : List Char) (h1 : c ≠ '%') (h2 : c ≠ '#') :
    decodeStem (c :: cs) = (decodeStem cs).map (c :: ·) := by
  rw [decodeStem]
  · simp [h1]
  · simpa using h2
  · rintro rest rfl
    exact fun _ => h1 rfl
  · rintro rest rfl
    exact fun _ => h1 rfl

theorem decodeStem_encodeChar (c : Char) (cs : List Char) :
    decodeStem (encodeChar c ++ cs) = (decodeStem cs).map (c :: ·) := by
  unfold encodeChar
  split
  next h => subst h; rfl
  split
  next h => subst h; rfl
  split
  next h => subst h; rfl
  next h1 h2 _ => exact decodeStem_plain cs h1 h2

theorem decodeStem_stem (path : List Char) : decodeStem (stem path) = some path := by
  induction path with
  | nil => rfl
  | cons c cs ih =>
    rw [stem, List.flatMap_cons, decodeStem_encodeChar, ← stem, ih]
    rfl

theorem stem_of_decodeStem {name path : List Char} (hs : '/' ∉ name)
    (h : decodeStem name = some path) : stem path = name := by
  fun_induction decodeStem name generalizing path with
  | case1 => cases h; rfl
  | case2 cs ih =>
    obtain ⟨p, hp, rfl⟩ := Option.map_eq_some_iff.mp h
    have := ih (by simpa using hs) hp
    rw [stem, List.flatMap_cons, ← stem, this]
    rfl
  | case3 cs ih =>
    obtain ⟨p, hp, rfl⟩ := Option.map_eq_some_iff.mp h
    have := ih (by simp_all) hp
    rw [stem, List.flatMap_cons, ← stem, this]
    rfl
  | case4 cs ih =>
    obtain ⟨p, hp, rfl⟩ := Option.map_eq_some_iff.mp h
    have := ih (by simp_all) hp
    rw [stem, List.flatMap_cons, ← stem, this]
    rfl
  | case5 cs h1 h2 h3 => cases h
  | case6 c cs h1 h2 h3 h4 ih =>
    obtain ⟨p, hp, rfl⟩ := Option.map_eq_some_iff.mp h
    have hc : c ≠ '/' ∧ '/' ∉ cs := by
      rw [List.mem_cons, not_or] at hs
      exact ⟨Ne.symm hs.1, hs.2⟩
    have hsharp : c ≠ '#' := by
      rintro rfl
      exact h1 rfl
    have := ih hc.2 hp
    rw [stem, List.flatMap_cons, ← stem, this]
    simp [encodeChar, h4, hsharp, hc.1]

variable {ext : List Char}

theorem slash_not_mem_encode (h : '/' ∉ ext) (path : List Char) : '/' ∉ encode ext path := by
  simp [encode, slash_not_mem_stem, h]

theorem tmp_of_encode (h : ext ≠ "tmp".toList) {path front : List Char}
    (he : encode ext path = front ++ ".tmp".toList) :
    ∃ a rest, front = stem path ++ a :: rest ∧ '.' :: ext = a :: rest ++ ".tmp".toList := by
  have he : stem path ++ '.' :: ext = front ++ ".tmp".toList := he
  rcases List.append_eq_append_iff.mp he with ⟨as, hfront, has⟩ | ⟨bs, -, hbs⟩
  · cases as with
    | nil => exact absurd (by simpa using has) h
    | cons a as => exact ⟨a, as, hfront, has⟩
  · cases bs with
    | nil => exact absurd (by simpa using hbs.symm) h
    | cons b bs =>
      -- the extension would start inside `.tmp`, after another dot
      have hm : '.' ∈ "tmp".toList := by
        have := (List.cons.inj hbs).2
        show '.' ∈ "tmp".toList
        rw [show "tmp".toList = bs ++ '.' :: ext from this]
        simp
      exact absurd hm (by decide)

theorem dot_not_mem_digits (n : Nat) : '.' ∉ (toString n).toList := by
  intro hm
  have := Nat.isDigit_of_mem_toDigits (b := 10) (n := n) (c := '.') (by decide) (by decide)
    (by simpa using hm)
  revert this
  decide

theorem Storable.not_staged (h : Storable ext) (path front : List Char) (n : Nat) :
    encode ext path ≠ front ++ '.' :: (toString n).toList ++ ".tmp".toList := by
  intro he
  obtain ⟨a, rest, hfront, hext⟩ := tmp_of_encode h.ne_tmp he
  obtain rfl : '.' = a := (List.cons.inj hext).1
  rcases List.append_eq_append_iff.mp hfront with ⟨as, -, has⟩ | ⟨bs, -, hbs⟩
  · cases as with
    | nil => exact h.not_numbered [] n (by rw [hext, List.nil_append]; simpa using has.symm)
    | cons b as =>
      have hm : '.' ∈ (toString n).toList := by
        rw [(List.cons.inj has).2]
        simp
      exact dot_not_mem_digits n hm
  · exact h.not_numbered bs n (by rw [hext, hbs])

theorem Usable.storable (h : Usable ext) : Storable ext := by
  refine ⟨h.ne_nil, h.noSlash, h.ne_tmp, fun front n he => ?_⟩
  rw [List.append_assoc] at he
  cases front with
  | nil =>
    rw [List.nil_append, List.cons_append] at he
    exact h.not_tmp _ (List.cons.inj he).2
  | cons c front =>
    rw [List.cons_append, ← List.append_assoc] at he
    exact h.not_tmp _ (List.cons.inj he).2

theorem not_temporary_encode (hne : ext ≠ "tmp".toList)
    (htmp : ∀ front, ext ≠ front ++ ".tmp".toList) (path : List Char) :
    isTemporary (encode ext path) = false := by
  have hb : before? ".tmp".toList (encode ext path) = none := by
    rw [Option.eq_none_iff_forall_ne_some]
    intro front hf
    obtain ⟨a, rest, -, hext⟩ := tmp_of_encode hne (before?_eq_some.mp hf)
    exact htmp rest (List.cons.inj hext).2
  rw [isTemporary, hb]
  simp

theorem Usable.not_temporary (h : Usable ext) (path : List Char) :
    isTemporary (encode ext path) = false := not_temporary_encode h.ne_tmp h.not_tmp path

theorem decode?_encode {path : List Char} (h : isTemporary (encode ext path) = false) :
    decode? ext (encode ext path) = some path := by
  have h1 : before? ext (encode ext path) = some (stem path ++ ['.']) :=
    before?_eq_some.mpr (by simp [encode])
  have h2 : before? ['.'] (stem path ++ ['.']) = some (stem path) := before?_eq_some.mpr rfl
  simp [decode?, h, h1, h2, decodeStem_stem]

theorem encode_injective {p q : List Char} (he : encode ext p = encode ext q) : p = q := by
  have hstem : stem p = stem q := List.append_cancel_right he
  have := decodeStem_stem p
  rw [hstem, decodeStem_stem] at this
  exact (Option.some.inj this).symm

theorem encode_of_decode? {name path : List Char} (hs : '/' ∉ name)
    (h : decode? ext name = some path) : isTemporary name = false ∧ encode ext path = name := by
  unfold decode? at h
  split at h
  · cases h
  next hplain =>
    refine ⟨by simpa using hplain, ?_⟩
    obtain ⟨n, hn, h⟩ := Option.bind_eq_some_iff.mp h
    obtain ⟨s, hs', h⟩ := Option.bind_eq_some_iff.mp h
    have hname : name = s ++ '.' :: ext := by
      rw [before?_eq_some.mp hn, before?_eq_some.mp hs']
      simp
    have hslash : '/' ∉ s := fun hm => hs (by simp [hname, hm])
    rw [encode, stem_of_decodeStem hslash h, hname]

theorem decode?_eq_some {name path : List Char} (hs : '/' ∉ name) :
    decode? ext name = some path ↔ isTemporary name = false ∧ encode ext path = name := by
  refine ⟨encode_of_decode? hs, ?_⟩
  rintro ⟨hplain, rfl⟩
  exact decode?_encode hplain

theorem nodup_filterMap_decode? {names : List (List Char)} (hdistinct : names.Nodup)
    (hs : ∀ name ∈ names, '/' ∉ name) : (names.filterMap (decode? ext)).Nodup := by
  rw [List.Nodup, List.pairwise_filterMap]
  refine hdistinct.imp_of_mem ?_
  intro name other hname hother hne path hpath path' hpath' he
  obtain ⟨-, hread⟩ := encode_of_decode? (hs name hname) hpath
  obtain ⟨-, hread'⟩ := encode_of_decode? (hs other hother) hpath'
  exact hne (hread.symm.trans (he ▸ hread'))

/-- Paths and file names determine each other. No two paths have one name, whatever the extension;
a path is read back from its name unless the extension ends as staged files do; and a name is read
as a path exactly when it is the name of that path and not one of a staged file, so no two files of
a directory are read as one path. -/
theorem file_names_tell_paths (ext : List Char) :
    (∀ p q, encode ext p = encode ext q → p = q) ∧
    (ext ≠ "tmp".toList → (∀ front, ext ≠ front ++ ".tmp".toList) →
      ∀ p, decode? ext (encode ext p) = some p) ∧
    ('/' ∉ ext → ∀ p, '/' ∉ encode ext p) ∧
    (∀ name p, '/' ∉ name →
      (decode? ext name = some p ↔ isTemporary name = false ∧ encode ext p = name)) ∧
    ∀ names : List (List Char), names.Nodup → (∀ name ∈ names, '/' ∉ name) →
      (names.filterMap (decode? ext)).Nodup := by
  refine ⟨fun p q => encode_injective, fun hne htmp p => ?_, slash_not_mem_encode,
    fun name p => decode?_eq_some, fun names => nodup_filterMap_decode?⟩
  exact decode?_encode (not_temporary_encode hne htmp p)

/-- A hidden file whose path holds separators, what looks like an escape, and the extension. -/
theorem file_names_tell_paths_of_hidden :
    encode "cache".toList ".a/%23#.cache".toList = ".a#%2523%23.cache.cache".toList ∧
    decode? "cache".toList ".a#%2523%23.cache.cache".toList = some ".a/%23#.cache".toList ∧
    '/' ∉ encode "cache".toList ".a/%23#.cache".toList := by
  obtain ⟨-, hback, hslash, -, -⟩ := file_names_tell_paths "cache".toList
  have hshort : ∀ front, "cache".toList ≠ front ++ ".tmp".toList := by
    intro front h
    have hnone : before? ".tmp".toList "cache".toList = none := by decide
    rw [before?_eq_some.mpr h] at hnone
    cases hnone
  have hname : encode "cache".toList ".a/%23#.cache".toList = ".a#%2523%23.cache.cache".toList := by
    decide
  refine ⟨hname, ?_, hslash (by decide) _⟩
  rw [← hname]
  exact hback (by decide) hshort _

end SourceDelta.FileName
