import Mathlib.Data.List.Nodup
import SourceDelta.Proofs.Lookup

/-!
# The map of a file system

What stands at a place after a change, and the names that a directory lists.
Making directories adds directories where nothing stood, and nowhere but on the
way to the new directory.
-/

set_option autoImplicit false

namespace SourceDelta.FileSystem

variable {fs fs' : FileSystem} {cwd p q : Place}

theorem node?_of_ne_nil (h : p ≠ []) : fs.node? p = fs.nodes.lookup p := by
  cases p with
  | nil => exact absurd rfl h
  | cons n d => rfl

theorem lookup_filter_self {α β : Type} [BEq α] [LawfulBEq α] (f : α → Bool)
    (l : List (α × β)) (a : α) :
    (l.filter fun x => f x.1).lookup a = if f a then l.lookup a else none := by
  induction l with
  | nil => simp
  | cons x xs ih =>
    obtain ⟨k, v⟩ := x
    rw [List.filter_cons]
    by_cases hk : a = k
    · subst hk
      cases hf : f a with
      | true => simp
      | false =>
        rw [hf] at ih
        simpa [hf] using ih
    · have hak : (a == k) = false := by simpa using hk
      cases hf : f k <;> simp [List.lookup_cons, hak, ih]

theorem node?_erase (p q : Place) (hp : p ≠ []) :
    (fs.erase p).node? q = if q = p then none else fs.node? q := by
  by_cases hq : q = []
  · subst hq
    simp [node?, Ne.symm hp]
  · rw [node?_of_ne_nil hq, node?_of_ne_nil hq, erase]
    have := lookup_filter_self (fun x => decide (x ≠ p)) fs.nodes q
    simp only [ne_eq] at this ⊢
    rw [this]
    by_cases h : q = p <;> simp [h]

theorem node?_put (p q : Place) (n : Node) (hp : p ≠ []) :
    (fs.put p n).node? q = if q = p then some n else fs.node? q := by
  by_cases hq : q = []
  · subst hq
    simp [node?, Ne.symm hp]
  · have he : (fs.erase p).node? q = if q = p then none else fs.node? q := node?_erase p q hp
    rw [node?_of_ne_nil hq] at he ⊢
    rw [put, List.lookup_cons]
    by_cases h : q = p
    · simp [h]
    · have hb : (q == p) = false := by simpa using h
      simp only [hb, h, if_false] at he ⊢
      exact he

theorem node?_eraseTree (p q : Place) (hp : p ≠ []) :
    (fs.eraseTree p).node? q = if within p q then none else fs.node? q := by
  by_cases hq : q = []
  · subst hq
    have : within p [] = false := by
      rw [within, Bool.eq_false_iff, ne_eq, List.isSuffixOf_iff_suffix, List.suffix_nil]
      exact hp
    simp [node?, this]
  · rw [node?_of_ne_nil hq, node?_of_ne_nil hq, eraseTree]
    have := lookup_filter_self (fun x => !within p x) fs.nodes q
    rw [this]
    cases within p q <;> rfl

def below (d p : Place) : Bool := within d p && p ≠ d

/-- No place below a directory is entered twice. -/
def DistinctBelow (fs : FileSystem) (d : Place) : Prop :=
  ((fs.nodes.map Prod.fst).filter (below d)).Nodup

theorem below_iff {d p : Place} : below d p = true ↔ d <:+ p ∧ p ≠ d := by
  simp [below, within]

theorem below_cons {d e : Place} (h : d <:+ e) (n : String) : below d (n :: e) = true := by
  refine below_iff.mpr ⟨h.trans (List.suffix_cons _ _), ?_⟩
  rintro rfl
  have hlength := h.length_le
  rw [List.length_cons] at hlength
  omega

theorem below_ne_nil {d p : Place} (h : below d p = true) : p ≠ [] := by
  rintro rfl
  obtain ⟨hs, hne⟩ := below_iff.mp h
  exact hne (List.suffix_nil.mp hs).symm

theorem mem_names {d : Place} {n : String} :
    n ∈ fs.names d ↔ fs.node? (n :: d) ≠ none := by
  rw [node?_of_ne_nil (by simp), names, List.mem_filterMap]
  constructor
  · rintro ⟨⟨r, x⟩, hm, hr⟩ hnone
    cases r with
    | nil => simp at hr
    | cons m e =>
      simp only at hr
      split at hr
      next he =>
        cases hr
        subst he
        rw [List.lookup_eq_none_iff] at hnone
        simpa using hnone _ hm
      next => cases hr
  · intro h
    obtain ⟨x, hx⟩ := Option.ne_none_iff_exists'.mp h
    obtain ⟨l₁, l₂, hl, -⟩ := List.lookup_eq_some_iff.mp hx
    exact ⟨(n :: d, x), by simp [hl], by simp⟩

theorem names_sublist (l : List (Place × Node)) {d e : Place} (he : within d e = true) :
    ((l.filterMap fun (p, _) => match p with
      | n :: c => if c = e then some n else none
      | [] => none).map (· :: e)).Sublist ((l.map Prod.fst).filter (below d)) := by
  induction l with
  | nil => simp
  | cons x xs ih =>
    obtain ⟨r, v⟩ := x
    rw [List.map_cons, List.filter_cons]
    cases r with
    | nil =>
      simp only [List.filterMap_cons]
      split
      · exact ih.cons _
      · exact ih
    | cons m c =>
      simp only [List.filterMap_cons]
      by_cases hc : c = e
      · subst hc
        have hw : below d (m :: c) = true := below_cons (List.isSuffixOf_iff_suffix.mp he) m
        simp only [if_true, List.map_cons, hw]
        exact ih.cons_cons _
      · simp only [hc, if_false]
        split
        · exact ih.cons _
        · exact ih

theorem names_nodup {d e : Place} (h : fs.DistinctBelow d) (he : within d e = true) :
    (fs.names e).Nodup :=
  List.Nodup.of_map _ ((names_sublist fs.nodes he).nodup h)

theorem DistinctBelow.erase (h : fs.DistinctBelow q) (p : Place) :
    (fs.erase p).DistinctBelow q :=
  h.sublist ((List.filter_sublist.map _).filter _)

theorem DistinctBelow.eraseTree (h : fs.DistinctBelow q) (p : Place) :
    (fs.eraseTree p).DistinctBelow q :=
  h.sublist ((List.filter_sublist.map _).filter _)

theorem DistinctBelow.put (h : fs.DistinctBelow q) (p : Place) (n : Node) :
    (fs.put p n).DistinctBelow q := by
  have he := h.erase p
  rw [DistinctBelow, FileSystem.put, List.map_cons, List.filter_cons]
  split
  · refine List.nodup_cons.mpr ⟨?_, he⟩
    simp [FileSystem.erase]
  · exact he

/-- Directories are made one after another, each where nothing stood, either in a directory or
where something stands below already. -/
inductive Makes (way : Place → Prop) (fs : FileSystem) : FileSystem → Prop
  | refl : Makes way fs fs
  | put {fs' : FileSystem} {p : Place} (before : Makes way fs fs') (onWay : way p)
      (none : fs'.node? p = none)
      (around : fs'.node? p.tail = some .directory ∨ ∃ n, fs'.node? (n :: p) = some .directory) :
      Makes way fs (fs'.put p .directory)

theorem Makes.trans {way : Place → Prop} {fs'' : FileSystem} (h : Makes way fs fs')
    (h' : Makes way fs' fs'') : Makes way fs fs'' := by
  induction h' with
  | refl => exact h
  | put _ onWay none around ih => exact ih.put onWay none around

theorem Makes.mono {way way' : Place → Prop} (h : Makes way fs fs')
    (hw : ∀ p, way p → way' p) : Makes way' fs fs' := by
  induction h with
  | refl => exact .refl
  | put _ onWay none around ih => exact ih.put (hw _ onWay) none around

theorem ne_nil_of_node?_none (h : fs.node? p = none) : p ≠ [] := by
  rintro rfl
  cases h

theorem Makes.node? {way : Place → Prop} (h : Makes way fs fs') (q : Place) :
    fs'.node? q = fs.node? q ∨
      fs.node? q = none ∧ fs'.node? q = some .directory ∧ way q := by
  induction h with
  | refl => exact .inl rfl
  | put _ onWay none around ih =>
    rw [node?_put _ _ _ (ne_nil_of_node?_none none)]
    split
    next hq =>
      subst hq
      rcases ih with ih | ⟨h1, h2, h3⟩
      · exact .inr ⟨ih ▸ none, rfl, onWay⟩
      · exact .inr ⟨h1, rfl, h3⟩
    next => exact ih

theorem Makes.directoriesStay {way : Place → Prop} (h : Makes way fs fs') :
    DirectoriesStay fs fs' := by
  intro q hq
  rcases h.node? q with h | ⟨h, -⟩
  · exact h.trans hq
  · rw [h] at hq; cases hq

theorem Makes.distinctBelow {way : Place → Prop} (h : Makes way fs fs')
    (hd : fs.DistinctBelow q) : fs'.DistinctBelow q := by
  induction h with
  | refl => exact hd
  | put _ _ _ _ ih => exact ih.put _ _

/-- The places that the lookup of a path passes, and the one that it names. -/
def OnWay (cwd : Place) (path : String) (p : Place) : Prop :=
  ∃ xs, xs <+: (Path.names path).1 ∧ p = lead (startOf cwd path) xs

theorem onWay_placeOf (cwd : Place) (path : String) : OnWay cwd path (placeOf cwd path) :=
  ⟨_, List.prefix_rfl, rfl⟩

theorem createDirectory_eq_ok {path : String} (h : fs.createDirectory cwd path = .ok fs') :
    ∃ t, fs.target cwd path = .ok t ∧ fs.step t.directory t.last = .ok (placeOf cwd path) ∧
      fs.node? (placeOf cwd path) = none ∧ fs' = fs.put (placeOf cwd path) .directory := by
  simp only [createDirectory] at h
  split at h
  · cases h
  next p hp =>
    split at h
    · cases h
    next hnone =>
      cases h
      simp only [place] at hp
      split at hp
      · cases hp
      next t ht =>
        obtain ⟨-, -, hf, -⟩ := target_eq_ok.mp ht
        obtain rfl : p = placeOf cwd path := walk_eq_ok (follow_eq_ok hf hp)
        exact ⟨t, ht, hp, hnone, rfl⟩

theorem createDirectory_makes {path : String} (h : fs.createDirectory cwd path = .ok fs') :
    Makes (OnWay cwd path) fs fs' := by
  obtain ⟨t, ht, hp, hnone, rfl⟩ := createDirectory_eq_ok h
  obtain ⟨-, -, -, hdir⟩ := target_eq_ok.mp ht
  refine .put .refl (onWay_placeOf cwd path) hnone ?_
  rw [(step_eq_ok hp).2] at hnone ⊢
  cases hl : t.last with
  | here => rw [hl, onward, hdir] at hnone; cases hnone
  | up =>
    rw [hl] at hnone
    cases hd : t.directory with
    | nil => rw [hd] at hnone; cases hnone
    | cons n d => exact .inr ⟨n, hd ▸ hdir⟩
  | name s => exact .inl hdir

theorem onWay_parent {path parent : String} (h : Path.parent? path = some parent)
    (hne : parent ≠ "") {p : Place} (hp : OnWay cwd parent p) : OnWay cwd path p := by
  obtain ⟨hn, ha⟩ := Path.names_of_parent? h
  obtain ⟨xs, hxs, rfl⟩ := hp
  exact ⟨xs, hxs.trans hn, by rw [startOf, startOf, ha hne]⟩

theorem createDirectories_makes (depth : Nat) (path : String) (fs : FileSystem) :
    Makes (OnWay cwd path) fs (createDirectories cwd depth path fs).2 := by
  induction depth generalizing path fs with
  | zero => exact .refl
  | succ depth ih =>
    simp only [createDirectories]
    split
    · exact .refl
    split
    next fs' h => exact createDirectory_makes h
    next =>
      split
      · exact .refl
      next parent hparent =>
        have hm : Makes (OnWay cwd path) fs (createDirectories cwd depth parent fs).2 := by
          by_cases hne : parent = ""
          · subst hne
            cases depth with
            | zero => exact .refl
            | succ depth => simpa [createDirectories] using Makes.refl
          · exact (ih parent fs).mono fun p hp => onWay_parent hparent hne hp
        split
        next e fs' he =>
          rw [he] at hm
          exact hm
        next fs' he =>
          rw [he] at hm
          split
          · exact hm
          split
          next fs'' h => exact hm.trans (createDirectory_makes h)
          next => exact hm
    next => exact .refl

theorem createDirAll_makes (path : String) :
    Makes (OnWay cwd path) fs (fs.createDirAll cwd path).2 :=
  createDirectories_makes _ path fs

theorem isDirectory_createDirectory {path : String} (h : fs.createDirectory cwd path = .ok fs') :
    fs'.isDirectory cwd path = true := by
  have hm := (createDirectory_makes h).directoriesStay
  obtain ⟨t, ht, hp, hnone, rfl⟩ := createDirectory_eq_ok h
  obtain ⟨hfits, hne, hf, -⟩ := target_eq_ok.mp ht
  refine isDirectory_iff.mpr ⟨⟨hm.walk (follow_eq_ok hf hp), ?_⟩, hfits, hne⟩
  rw [node?_put _ _ _ (ne_nil_of_node?_none hnone), if_pos rfl]

theorem isDirectory_createDirAll {path : String} (hne : path ≠ "")
    (h : (fs.createDirAll cwd path).1 = .ok ()) :
    (fs.createDirAll cwd path).2.isDirectory cwd path = true := by
  revert h
  simp only [createDirAll, createDirectories]
  split
  next hd =>
    intro _
    simpa [hne] using hd
  split
  next fs' h => exact fun _ => isDirectory_createDirectory h
  next =>
    split
    · intro h; cases h
    next parent _ =>
      split
      · intro h; cases h
      next fs' _ =>
        split
        next hd => exact fun _ => hd
        split
        next fs'' h => exact fun _ => isDirectory_createDirectory h
        next => intro h; cases h
  next => intro h; cases h

theorem createDirAll_of_isDirectory {path : String} (h : fs.isDirectory cwd path = true) :
    fs.createDirAll cwd path = (.ok (), fs) := by
  simp [createDirAll, createDirectories, h]

theorem createDirAll_empty : fs.createDirAll cwd "" = (.ok (), fs) := by
  simp [createDirAll, createDirectories]

def ensureDirectory (fs : FileSystem) (p : Place) : FileSystem :=
  match fs.node? p with
  | none => fs.put p .directory
  | some _ => fs

variable {d n m : String}

theorem createDirectories_join (depth : Nat) (ho : fs.Opens cwd d) (hn : Path.IsName n)
    (hfits : Fits (Path.join d n)) (hshort : n.utf8ByteSize ≤ maxName)
    (hfile : ∀ c, fs.node? (n :: placeOf cwd d) ≠ some (.file c)) :
    createDirectories cwd (depth + 1) (Path.join d n) fs =
      (.ok (), fs.ensureDirectory (n :: placeOf cwd d)) := by
  have hr := ho.reaches hn hfits hshort
  rw [createDirectories, ensureDirectory]
  cases hx : fs.node? (n :: placeOf cwd d) with
  | some x =>
    cases x with
    | directory => simp [hr.isDirectory.mpr hx]
    | file c => exact absurd hx (hfile c)
  | none =>
    have hd : fs.isDirectory cwd (Path.join d n) = false := by
      rw [Bool.eq_false_iff, ne_eq, hr.isDirectory, hx]
      simp
    simp [hd, Path.join_ne_empty hn.toIsPart, hr.createDirectory hx]

theorem ensureDirectory_node? (p q : Place) :
    (fs.ensureDirectory p).node? q =
      if q = p then some ((fs.node? p).getD .directory) else fs.node? q := by
  rw [ensureDirectory]
  cases h : fs.node? p with
  | some x =>
    simp only [Option.getD_some]
    split
    next hq => rw [hq, h]
    next => rfl
  | none =>
    simp only [Option.getD_none]
    rw [node?_put _ _ _ (ne_nil_of_node?_none h)]

theorem Opens.ensureDirectory (ho : fs.Opens cwd d) (hn : Path.IsName n)
    (hshort : n.utf8ByteSize ≤ maxName)
    (hfile : ∀ c, fs.node? (n :: placeOf cwd d) ≠ some (.file c)) :
    (fs.ensureDirectory (n :: placeOf cwd d)).Opens cwd (Path.join d n) := by
  have hstay : DirectoriesStay fs (fs.ensureDirectory (n :: placeOf cwd d)) := by
    intro q hq
    rw [ensureDirectory_node?]
    split
    next he => rw [← he, hq]; rfl
    next => exact hq
  constructor
  · rw [startOf, Path.isAbsolute_join hn.toIsPart, ← startOf, Path.names_join hn.toIsPart, walk_append,
      hstay.walk ho.walks, placeOf_join hn]
    simp [walk, ofName_of_isName hn, step, hstay _ ho.directory, Nat.not_lt.mpr hshort]
  · rw [placeOf_join hn, ensureDirectory_node?, if_pos rfl]
    cases hx : fs.node? (n :: placeOf cwd d) with
    | none => rfl
    | some x =>
      cases x with
      | directory => rfl
      | file c => exact absurd hx (hfile c)

theorem Opens.join (ho : fs.Opens cwd d) (hn : Path.IsName n) (hshort : n.utf8ByteSize ≤ maxName)
    (hdir : fs.node? (n :: placeOf cwd d) = some .directory) : fs.Opens cwd (Path.join d n) := by
  have h := ho.ensureDirectory hn hshort (by simp [hdir])
  rwa [FileSystem.ensureDirectory, hdir] at h

theorem Fits.of_join (hn : Path.IsPart n) (h : Fits (Path.join d n)) : Fits d := by
  constructor
  · have := h.noNul
    rw [Bool.eq_false_iff, ne_eq, Path.hasNul_join hn, not_or] at this
    simpa using this.1
  · refine Nat.le_trans (Path.size_le_of_prefix ?_) h.short
    rcases Path.toList_join (d := d) hn with ⟨rfl, -⟩ | ⟨cs, hd, hj⟩ | ⟨-, hj⟩
    · exact List.nil_prefix
    · rw [hd, hj]
      exact List.prefix_append_right_inj cs |>.mpr (by simp)
    · rw [hj]
      exact List.prefix_append _ _

theorem Opens.target_missing (ho : fs.Opens cwd d) (hn : Path.IsName n) (hm : Path.IsName m)
    (hfits : Fits (Path.join (Path.join d n) m)) (hns : n.utf8ByteSize ≤ maxName)
    (hnone : fs.node? (n :: placeOf cwd d) = none) :
    fs.target cwd (Path.join (Path.join d n) m) = .error .noEntry := by
  have hwalk : fs.walk (startOf cwd d) ((Path.names d).1 ++ [n]) = .ok (n :: placeOf cwd d) := by
    rw [walk_append, ho.walks]
    simp [walk, ofName_of_isName hn, step, ho.directory, Nat.not_lt.mpr hns]
  have hfollow := follow_append false m hwalk
  rw [startOf] at hfollow
  rw [target, hfits.noNul, Path.names_join hm.toIsPart, Path.names_join hn.toIsPart,
    Path.isAbsolute_join hm.toIsPart, Path.isAbsolute_join hn.toIsPart]
  simp only [Bool.false_eq_true, if_false, Path.join_ne_empty hm.toIsPart,
    Nat.not_lt.mpr hfits.short, hfollow, hnone]

theorem createDirAll_join_join (ho : fs.Opens cwd d) (hn : Path.IsName n) (hm : Path.IsName m)
    (hfits : Fits (Path.join (Path.join d n) m)) (hns : n.utf8ByteSize ≤ maxName)
    (hms : m.utf8ByteSize ≤ maxName)
    (hfile : ∀ c, fs.node? (n :: placeOf cwd d) ≠ some (.file c))
    (hfile' : ∀ c, fs.node? (m :: n :: placeOf cwd d) ≠ some (.file c))
    (hshape : fs.node? (m :: n :: placeOf cwd d) ≠ none →
      fs.node? (n :: placeOf cwd d) = some .directory) :
    fs.createDirAll cwd (Path.join (Path.join d n) m) =
      (.ok (), (fs.ensureDirectory (n :: placeOf cwd d)).ensureDirectory
        (m :: n :: placeOf cwd d)) := by
  have hfitsn := Fits.of_join hm.toIsPart hfits
  have ho' := ho.ensureDirectory hn hns hfile
  have hm' : ∀ c, (fs.ensureDirectory (n :: placeOf cwd d)).node? (m :: placeOf cwd (Path.join d n))
      ≠ some (.file c) := by
    intro c
    rw [placeOf_join hn, ensureDirectory_node?, if_neg (by simp)]
    exact hfile' c
  have hlast := fun depth => createDirectories_join depth ho' hm hfits hms hm'
  rw [placeOf_join hn] at hlast
  rw [createDirAll]
  cases hx : fs.node? (n :: placeOf cwd d) with
  | some x =>
    have he : fs.ensureDirectory (n :: placeOf cwd d) = fs := by rw [ensureDirectory, hx]
    rw [he] at hlast ⊢
    exact hlast _
  | none =>
    have hmn : fs.node? (m :: n :: placeOf cwd d) = none := by
      by_contra hne
      rw [hshape hne] at hx
      cases hx
    have ht := ho.target_missing hn hm hfits hns hx
    have hd : fs.isDirectory cwd (Path.join (Path.join d n) m) = false := by
      simp [isDirectory, find, ht]
    have hc : fs.createDirectory cwd (Path.join (Path.join d n) m) = .error .noEntry := by
      simp [createDirectory, place, ht]
    have hparent : Path.parent? (Path.join (Path.join d n) m) = some (Path.join d n) := by
      rw [Path.parent?_join hm.toIsPart, Path.trimmed_join hn.toIsPart]
    have hlen : (Path.join (Path.join d n) m).length ≠ 0 := by
      rw [← String.length_toList, ne_eq, List.length_eq_zero_iff, String.toList_eq_nil_iff]
      exact Path.join_ne_empty hm.toIsPart
    obtain ⟨depth, hdepth⟩ := Nat.exists_eq_succ_of_ne_zero hlen
    have hfirst := createDirectories_join depth ho hn hfitsn hns hfile
    have hr := ho'.reaches hm hfits hms
    rw [placeOf_join hn] at hr
    have hnone : (fs.ensureDirectory (n :: placeOf cwd d)).node? (m :: n :: placeOf cwd d) = none := by
      rw [ensureDirectory_node?, if_neg (by simp), hmn]
    have hd' : (fs.ensureDirectory (n :: placeOf cwd d)).isDirectory cwd
        (Path.join (Path.join d n) m) = false := by
      rw [Bool.eq_false_iff, ne_eq, hr.isDirectory, hnone]
      simp
    rw [hdepth, createDirectories]
    simp only [hd, Path.join_ne_empty hm.toIsPart, hc, hparent, hfirst, hd', hr.createDirectory hnone,
      decide_false, Bool.or_self, Bool.false_eq_true, if_false]
    generalize fs.ensureDirectory (n :: placeOf cwd d) = fs' at hnone
    rw [ensureDirectory, hnone]

end SourceDelta.FileSystem
