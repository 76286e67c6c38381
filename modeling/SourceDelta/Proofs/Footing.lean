import SourceDelta.Proofs.Sites

/-!
# The files of a store

What holds of the file system below the root of a store whatever the store has
done, and whatever of it has failed: there are the directories of the store and
no others, files stand in directories, and a file that stands at the site of an
artifact can be reached there. Areas may be missing and staged files may be left.
-/

set_option autoImplicit false

namespace SourceDelta.Layout
open SourceDelta.FileSystem (Fits Opens placeOf startOf lead within below maxName maxPath
  DirectoriesStay Reaches)

variable {l : Layout} {cwd : Place} {a b : Area} {k : Key}

/-- The path of an artifact is one that the system takes. -/
structure Holdable (l : Layout) (a : Area) (k : Key) : Prop where
  name : Path.IsName (l.fileName k)
  short : (l.fileName k).utf8ByteSize ≤ maxName
  fits : Fits (l.artifactPath a k)

/-- What a layout needs: an extension that tells its artifacts apart, a root that is not too long,
and a path to the root that does not lead through the store itself. -/
structure Ground (l : Layout) (cwd : Place) : Prop where
  storable : FileName.Storable l.extension.toList
  fits : ∀ a, Fits (l.codePath a)
  outside : ∀ xs, xs <+: (Path.names l.root).1 →
    below (l.rootPlace cwd) (lead (startOf cwd l.root) xs) = false

structure Sound (l : Layout) (cwd : Place) (fs : FileSystem) : Prop extends Ground l cwd where
  opens : fs.Opens cwd l.root
  tree : ∀ n d, l.rootPlace cwd <:+ d → fs.node? (n :: d) ≠ none → fs.node? d = some .directory
  fixture : ∀ p, below (l.rootPlace cwd) p = true → fs.node? p = some .directory →
    Fixture (l.rootPlace cwd) p
  noFile : ∀ p, Fixture (l.rootPlace cwd) p → ∀ c, fs.node? p ≠ some (.file c)
  names : ∀ n d, l.rootPlace cwd <:+ d → fs.node? (n :: d) ≠ none → Path.IsName n
  holdable : ∀ a k, fs.node? (l.site cwd a k) ≠ none → Holdable l a k
  flagsFit : fs.node? (l.flagsPlace cwd) ≠ none → Fits l.flagsPath
  distinct : fs.DistinctBelow (l.rootPlace cwd)
  current : fs.node? ("code" :: Area.current.name :: l.rootPlace cwd) = some .directory

theorem Fits.of_size {d m n : String} (hm : Path.IsPart m) (hn : Path.IsPart n)
    (hs : n.utf8ByteSize ≤ m.utf8ByteSize) (hnul : Path.hasNul n = false)
    (h : Fits (Path.join d m)) : Fits (Path.join d n) := by
  have hd := (FileSystem.Fits.of_join hm h).noNul
  constructor
  · rw [Bool.eq_false_iff, ne_eq, Path.hasNul_join hn, hd, hnul]
    simp
  · have h1 := h.short
    rw [Path.join_size hm] at h1
    rw [Path.join_size hn]
    omega

theorem Ground.fits_area (h : Ground l cwd) (a : Area) : Fits (l.areaPath a) :=
  FileSystem.Fits.of_join isName_code.toIsPart (h.fits a)

theorem Ground.fits_records (h : Ground l cwd) : Fits (Path.join l.root "meta") :=
  Fits.of_size (isName_area .previous).toIsPart isName_meta.toIsPart (by decide) (by decide)
    (h.fits_area .previous)

theorem Folder.fits {R D B : Place} {d : String} (hd : Folder l R d D B) (h : Ground l cwd) :
    Fits d := by
  cases hd with
  | area a => exact h.fits_area a
  | code a => exact h.fits a
  | records => exact h.fits_records

theorem area_size (l : Layout) (a : Area) :
    (l.areaPath a).utf8ByteSize = (Path.join l.root "x").utf8ByteSize - 1 + a.name.utf8ByteSize :=
  Path.join_size (isName_area a).toIsPart

theorem folder_size (hs : b.name.utf8ByteSize ≤ a.name.utf8ByteSize) (k : Key) :
    (l.folder b k).utf8ByteSize ≤ (l.folder a k).utf8ByteSize := by
  have ha := area_size l a
  have hb := area_size l b
  cases k with
  | code p =>
    simp only [folder, codePath, areaPath] at ha hb ⊢
    rw [Path.join_join_size (isName_area a).toIsPart isName_code.toIsPart,
      Path.join_join_size (isName_area b).toIsPart isName_code.toIsPart]
    omega
  | build => simp only [folder]; omega
  | variability => simp only [folder]; omega

theorem artifact_size (hn : Path.IsPart (l.fileName k)) (a : Area) :
    (l.artifactPath a k).utf8ByteSize =
      (l.folder a k).utf8ByteSize + 1 + (l.fileName k).utf8ByteSize := by
  rw [artifactPath_eq]
  cases k with
  | code p => exact Path.join_join_size isName_code.toIsPart hn
  | build => exact Path.join_join_size (isName_area a).toIsPart hn
  | variability => exact Path.join_join_size (isName_area a).toIsPart hn

theorem hasNul_artifact (hn : Path.IsPart (l.fileName k)) (a : Area) :
    Path.hasNul (l.artifactPath a k) = true ↔
      Path.hasNul l.root = true ∨ Path.hasNul (l.fileName k) = true := by
  have ha : Path.hasNul a.name = false := by cases a <;> decide
  have hc : Path.hasNul "code" = false := by decide
  rw [artifactPath_eq, Path.hasNul_join hn]
  cases k <;> simp [folder, codePath, areaPath, Path.hasNul_join (isName_area a).toIsPart,
    Path.hasNul_join isName_code.toIsPart, ha, hc]

theorem Holdable.of_size (hs : b.name.utf8ByteSize ≤ a.name.utf8ByteSize) (h : Holdable l a k) :
    Holdable l b k := by
  have hp := h.name.toIsPart
  refine ⟨h.name, h.short, ?_, ?_⟩
  · have hnul := h.fits.noNul
    rw [Bool.eq_false_iff, ne_eq, hasNul_artifact hp] at hnul ⊢
    exact hnul
  · have hsize := h.fits.short
    have hf := folder_size (l := l) hs k
    rw [artifact_size hp] at hsize ⊢
    omega

theorem Holdable.current (h : Holdable l a k) : Holdable l .current k :=
  h.of_size (by cases a <;> decide)

theorem Holdable.swap (h : Holdable l .previous k) : Holdable l .baseline k :=
  h.of_size (by decide)

variable {fs fs' fs'' : FileSystem} {R D B p q : Place} {d n : String}

theorem suffix_cons_self (n : String) (R : Place) : R <:+ n :: R := List.suffix_cons n R

theorem Fixture.root_suffix (h : Fixture R p) : R <:+ p := by
  cases h
  · exact suffix_cons_self _ R
  · exact (suffix_cons_self _ R).trans (suffix_cons_self _ _)
  · exact suffix_cons_self _ R

theorem Fixture.isName (h : Fixture R (n :: D)) : Path.IsName n := by
  generalize hq : n :: D = q at h
  cases h with
  | area a => exact (List.cons.inj hq).1 ▸ isName_area a
  | code a => exact (List.cons.inj hq).1 ▸ isName_code
  | records => exact (List.cons.inj hq).1 ▸ isName_meta

theorem Sound.area_of_code (h : Sound l cwd fs)
    (hc : fs.node? ("code" :: a.name :: l.rootPlace cwd) ≠ none) :
    fs.node? (a.name :: l.rootPlace cwd) = some .directory :=
  h.tree _ _ (suffix_cons_self _ _) hc

theorem Sound.opens_folder (h : Sound l cwd fs) (hd : Folder l (l.rootPlace cwd) d D B)
    (hD : fs.node? D = some .directory) : fs.Opens cwd d := by
  have hshort : ∀ a : Area, a.name.utf8ByteSize ≤ maxName := by
    intro a
    cases a <;> decide
  cases hd with
  | area a => exact h.opens.join (isName_area a) (hshort a) hD
  | code a =>
    have ha := h.area_of_code (a := a) (by simp [hD])
    refine (h.opens.join (isName_area a) (hshort a) ha).join isName_code (by decide) ?_
    rw [FileSystem.placeOf_join (isName_area a)]
    exact hD
  | records => exact h.opens.join isName_meta (by decide) hD

theorem Sound.reaches (h : Sound l cwd fs) (hd : Folder l (l.rootPlace cwd) d D B)
    (hD : fs.node? D = some .directory) (hn : Path.IsName n) (hs : n.utf8ByteSize ≤ maxName)
    (hf : Fits (Path.join d n)) : fs.Reaches cwd (Path.join d n) D n := by
  have := (h.opens_folder hd hD).reaches hn hf hs
  rwa [hd.placeOf] at this

/-- Only staged files and directories of the store are touched, and only on one branch. -/
def Aside (R B : Place) (fs fs' : FileSystem) : Prop :=
  ∀ q, fs'.node? q = fs.node? q ∨
    within B q = true ∧ (Fixture R q ∨ ∃ n d, q = n :: d ∧ Temporary n)

theorem Aside.refl (R B : Place) (fs : FileSystem) : Aside R B fs fs := fun _ => .inl rfl

theorem Aside.trans (h : Aside R B fs fs') (h' : Aside R B fs' fs'') : Aside R B fs fs'' := by
  intro q
  rcases h' q with h' | h'
  · rw [h']
    exact h q
  · exact .inr h'

theorem Aside.node? (h : Aside R B fs fs') (hf : ¬ Fixture R (n :: D)) (ht : ¬ Temporary n) :
    fs'.node? (n :: D) = fs.node? (n :: D) := by
  rcases h (n :: D) with h | ⟨-, h | ⟨m, d, h, hm⟩⟩
  · exact h
  · exact absurd h hf
  · cases h
    exact absurd hm ht

theorem Aside.off (h : Aside R B fs fs') (hq : within B q = false) : fs'.node? q = fs.node? q := by
  rcases h q with h | ⟨hw, -⟩
  · exact h
  · rw [hq] at hw
    cases hw

theorem Sound.not_directory (h : Sound l cwd fs) (hp : below (l.rootPlace cwd) p = true)
    (hf : ¬ Fixture (l.rootPlace cwd) p) : fs.node? p ≠ some .directory :=
  fun hd => hf (h.fixture p hp hd)

/-- One node is set: a directory where the store has one, a file anywhere else. -/
theorem Sound.set (h : Sound l cwd fs) {x : Node}
    (hset : ∀ q, fs'.node? q = if q = n :: D then some x else fs.node? q)
    (hstay : DirectoriesStay fs fs') (hdistinct : fs'.DistinctBelow (l.rootPlace cwd))
    (hdir : fs.node? D = some .directory) (hn : Path.IsName n)
    (hx : x = .directory ↔ Fixture (l.rootPlace cwd) (n :: D))
    (hk : ∀ a k, l.site cwd a k = n :: D → Holdable l a k)
    (hm : l.flagsPlace cwd = n :: D → Fits l.flagsPath) : Sound l cwd fs' := by
  have hother : ∀ {q}, q ≠ n :: D → fs'.node? q = fs.node? q := fun hq => by rw [hset, if_neg hq]
  have hself : fs'.node? (n :: D) = some x := by rw [hset, if_pos rfl]
  refine { h.toGround with
    opens := hstay.opens h.opens
    tree := ?_, fixture := ?_, noFile := ?_, names := ?_, holdable := ?_, flagsFit := ?_
    distinct := hdistinct
    current := hstay _ h.current }
  · intro m e he hm
    by_cases hq : m :: e = n :: D
    · cases hq
      exact hstay _ hdir
    · rw [hother hq] at hm
      exact hstay _ (h.tree m e he hm)
  · intro q hq hd
    by_cases he : q = n :: D
    · subst he
      exact hx.mp (Option.some.inj (hself.symm.trans hd))
    · exact h.fixture q hq (hother he ▸ hd)
  · intro q hq c hc
    by_cases he : q = n :: D
    · subst he
      rw [hself, hx.mpr hq] at hc
      cases hc
    · exact h.noFile q hq c (hother he ▸ hc)
  · intro m e he hm
    by_cases hq : m :: e = n :: D
    · cases hq
      exact hn
    · exact h.names m e he (hother hq ▸ hm)
  · intro a k hs
    by_cases hq : l.site cwd a k = n :: D
    · exact hk a k hq
    · exact h.holdable a k (hother hq ▸ hs)
  · intro hs
    by_cases hq : l.flagsPlace cwd = n :: D
    · exact hm hq
    · exact h.flagsFit (hother hq ▸ hs)

theorem Sound.put (h : Sound l cwd fs) {c : Bytes} (hD : l.rootPlace cwd <:+ D)
    (hdir : fs.node? D = some .directory) (hn : Path.IsName n)
    (hf : ¬ Fixture (l.rootPlace cwd) (n :: D))
    (hk : ∀ a k, l.site cwd a k = n :: D → Holdable l a k)
    (hm : l.flagsPlace cwd = n :: D → Fits l.flagsPath) :
    Sound l cwd (fs.put (n :: D) (.file c)) := by
  have hput : ∀ q, (fs.put (n :: D) (.file c)).node? q =
      if q = n :: D then some (.file c) else fs.node? q :=
    fun q => FileSystem.node?_put _ q _ (by simp)
  have hstay : DirectoriesStay fs (fs.put (n :: D) (.file c)) := by
    intro q hq
    rw [hput, if_neg]
    · exact hq
    · rintro rfl
      exact h.not_directory (FileSystem.below_cons hD n) hf hq
  exact h.set hput hstay (h.distinct.put _ _) hdir hn ⟨nofun, fun h => absurd h hf⟩ hk hm

theorem Sound.erase (h : Sound l cwd fs) {c : Bytes} (hp : fs.node? p = some (.file c)) :
    Sound l cwd (fs.erase p) := by
  have hne : p ≠ [] := by
    rintro rfl
    cases hp
  have herase : ∀ q, (fs.erase p).node? q = if q = p then none else fs.node? q :=
    fun q => FileSystem.node?_erase p q hne
  have hstay : DirectoriesStay fs (fs.erase p) := by
    intro q hq
    rw [herase, if_neg]
    · exact hq
    · rintro rfl
      rw [hp] at hq
      cases hq
  have hless : ∀ q, (fs.erase p).node? q ≠ none → fs.node? q ≠ none := by
    intro q hq
    rw [herase] at hq
    split at hq
    · exact absurd rfl hq
    · exact hq
  have heq : ∀ q x, (fs.erase p).node? q = some x → fs.node? q = some x := by
    intro q x hq
    rw [herase] at hq
    split at hq
    · cases hq
    · exact hq
  exact { h.toGround with
    opens := hstay.opens h.opens
    tree := fun m e he hm => hstay _ (h.tree m e he (hless _ hm))
    fixture := fun q hq hd => h.fixture q hq (heq _ _ hd)
    noFile := fun q hq c' hc => h.noFile q hq c' (heq _ _ hc)
    names := fun m e he hm => h.names m e he (hless _ hm)
    holdable := fun a k hs => h.holdable a k (hless _ hs)
    flagsFit := fun hs => h.flagsFit (hless _ hs)
    distinct := h.distinct.erase _
    current := hstay _ h.current }

theorem Sound.ensure (h : Sound l cwd fs) (hf : Fixture (l.rootPlace cwd) (n :: D))
    (hdir : fs.node? D = some .directory) :
    Sound l cwd (fs.ensureDirectory (n :: D)) ∧
      (fs.ensureDirectory (n :: D)).node? (n :: D) = some .directory := by
  have hget : (fs.node? (n :: D)).getD .directory = .directory := by
    cases hx : fs.node? (n :: D) with
    | none => rfl
    | some x =>
      cases x with
      | directory => rfl
      | file c => exact absurd hx (h.noFile _ hf c)
  have hput : ∀ q, (fs.ensureDirectory (n :: D)).node? q =
      if q = n :: D then some .directory else fs.node? q := by
    intro q
    rw [FileSystem.ensureDirectory_node?, hget]
  have hstay : DirectoriesStay fs (fs.ensureDirectory (n :: D)) := by
    intro q hq
    rw [hput]
    split
    · rfl
    · exact hq
  have hdistinct : (fs.ensureDirectory (n :: D)).DistinctBelow (l.rootPlace cwd) := by
    rw [FileSystem.ensureDirectory]
    split
    · exact h.distinct.put _ _
    · exact h.distinct
  exact ⟨h.set hput hstay hdistinct hdir hf.isName (iff_of_true rfl hf)
    (fun _ k hq => absurd (hq ▸ hf) (not_fixture_site k))
    (fun hq => absurd (hq ▸ hf) not_fixture_flagsPlace), by rw [hput, if_pos rfl]⟩

def Built (R B : Place) (fs fs' : FileSystem) : Prop :=
  ∀ q, fs'.node? q = fs.node? q ∨
    within B q = true ∧ Fixture R q ∧ fs'.node? q = some .directory

theorem Built.aside (h : Built R B fs fs') : Aside R B fs fs' := by
  intro q
  rcases h q with h | ⟨hw, hf, -⟩
  · exact .inl h
  · exact .inr ⟨hw, .inl hf⟩

theorem Built.trans (h : Built R B fs fs') (h' : Built R B fs' fs'') : Built R B fs fs'' := by
  intro q
  rcases h' q with h' | h'
  · rw [h']
    exact h q
  · exact .inr h'

theorem built_ensureDirectory (hf : Fixture R p) (hw : within B p = true)
    (hdir : (fs.ensureDirectory p).node? p = some .directory) :
    Built R B fs (fs.ensureDirectory p) := by
  intro q
  by_cases hq : q = p
  · subst hq
    exact .inr ⟨hw, hf, hdir⟩
  · rw [FileSystem.ensureDirectory_node?, if_neg hq]
    exact .inl rfl

theorem Sound.createDirAll (h : Sound l cwd fs) (hd : Folder l (l.rootPlace cwd) d D B) :
    ∃ fs', fs.createDirAll cwd d = (.ok (), fs') ∧ Sound l cwd fs' ∧
      fs'.node? D = some .directory ∧ Built (l.rootPlace cwd) B fs fs' := by
  have hroot : fs.node? (l.rootPlace cwd) = some .directory := h.opens.directory
  have hself : ∀ n : String, within (n :: l.rootPlace cwd) (n :: l.rootPlace cwd) = true := by
    intro n
    simp [within]
  have hdepth : ∀ path : String, fs.createDirAll cwd path =
      FileSystem.createDirectories cwd (path.length + 1) path fs := fun _ => rfl
  cases hd with
  | area a =>
    obtain ⟨hs, hdir⟩ := h.ensure (.area a) hroot
    refine ⟨_, ?_, hs, hdir, built_ensureDirectory (.area a) (hself _) hdir⟩
    rw [hdepth]
    exact FileSystem.createDirectories_join _ h.opens (isName_area a) (h.fits_area a)
      (by cases a <;> decide) (h.noFile _ (.area a))
  | records =>
    obtain ⟨hs, hdir⟩ := h.ensure .records hroot
    refine ⟨_, ?_, hs, hdir, built_ensureDirectory .records (hself _) hdir⟩
    rw [hdepth]
    exact FileSystem.createDirectories_join _ h.opens isName_meta h.toGround.fits_records
      (by decide) (h.noFile _ .records)
  | code a =>
    obtain ⟨hs, hdir⟩ := h.ensure (.area a) hroot
    obtain ⟨hs', hdir'⟩ := hs.ensure (.code a) hdir
    have hw : within (a.name :: l.rootPlace cwd) ("code" :: a.name :: l.rootPlace cwd) = true := by
      simp only [within, List.isSuffixOf_iff_suffix]
      exact suffix_cons_self _ _
    refine ⟨_, ?_, hs', hdir', (built_ensureDirectory (.area a) (hself _) hdir).trans
      (built_ensureDirectory (.code a) hw hdir')⟩
    exact FileSystem.createDirAll_join_join h.opens (isName_area a) isName_code (h.fits a)
      (by cases a <;> decide) (by decide) (h.noFile _ (.area a)) (h.noFile _ (.code a))
      fun hne => h.area_of_code hne

end SourceDelta.Layout
