import SourceDelta.Proofs.Contents
import SourceDelta.Proofs.Endings

/-!
# Writing files of a store whole

Content is staged next to its target and then renamed onto it. Until then the
store holds what it held; afterwards the target holds the content. What may be
left behind when a step is refused is a staged file or an empty directory, and
neither counts.
-/

set_option autoImplicit false

namespace SourceDelta

def Failure.directory? : Failure → Option String
  | .file (.createParent d) _ | .file (.createDestination d) _ => some d
  | .file (.createTemporary p) _ | .file (.writeTemporary p) _ | .file (.replace p) _
  | .file (.move _ p) _ => Path.parent? p
  | _ => none

namespace Layout
open SourceDelta.FileSystem (Fits Opens placeOf within maxName)

/-- The files of a store in a world. -/
structure Footing (l : Layout) (cwd : Place) (w : World) : Prop where
  place : w.place = cwd
  sound : Sound l cwd w.files

variable {l : Layout} {cwd R D B p : Place} {fs fs' : FileSystem} {w w' : World} {d n t : String}
  {a b : Area} {k : Key} {c : Bytes} {v : Weather}

theorem ne_site_of_temporary (hu : FileName.Storable l.extension.toList) (ht : Temporary t)
    (a : Area) (k : Key) : l.site cwd a k ≠ t :: D := by
  intro h
  have hn := (List.cons.inj h).1
  exact not_temporary_fileName hu k (hn ▸ ht)

theorem Sound.putTemporary (h : Sound l cwd fs) (hd : Folder l (l.rootPlace cwd) d D B)
    (hD : fs.node? D = some .directory) (ht : Temporary t) (hn : Path.IsName t) (c : Bytes) :
    Sound l cwd (fs.put (t :: D) (.file c)) :=
  h.put hd.fixture.root_suffix hD hn (not_fixture_of_dot ht.dot_mem)
    (fun a k he => absurd he (ne_site_of_temporary h.storable ht a k))
    fun he => absurd ((List.cons.inj he).1 ▸ ht) not_temporary_flags

theorem aside_put (hd : Folder l R d D B) (ht : Temporary t) (x : Node) :
    Aside R B fs (fs.put (t :: D) x) := by
  intro q
  rw [FileSystem.node?_put _ _ _ (by simp)]
  split
  next he => exact .inr ⟨he ▸ hd.within t, .inr ⟨t, D, he, ht⟩⟩
  next => exact .inl rfl

theorem aside_erase (hd : Folder l R d D B) (ht : Temporary t) :
    Aside R B fs (fs.erase (t :: D)) := by
  intro q
  rw [FileSystem.node?_erase _ _ (by simp)]
  split
  next he => exact .inr ⟨he ▸ hd.within t, .inr ⟨t, D, he, ht⟩⟩
  next => exact .inl rfl

/-- A staged file, and the way to its target. -/
structure Pending (fs : FileSystem) (d n : String) (D : Place) (t : String) (c : Bytes) :
    Prop where
  temporary : Temporary t
  isName : Path.IsName t
  fits : Fits (Path.join d t)
  short : t.utf8ByteSize ≤ maxName
  targetFits : Fits (Path.join d n)
  targetShort : n.utf8ByteSize ≤ maxName
  directory : fs.node? D = some .directory
  file : fs.node? (t :: D) = some (.file c)

theorem temporary_name (n : String) (process fresh : Nat) :
    Temporary (Staged.temporaryName n process fresh) := by
  exact ⟨n, process, fresh, rfl⟩

theorem isName_temporary (hn : '/' ∉ n.toList) (process fresh : Nat) :
    Path.IsName (Staged.temporaryName n process fresh) := by
  have hdigits : ∀ m : Nat, '/' ∉ Nat.toDigits 10 m := by
    intro m hm
    have := Nat.isDigit_of_mem_toDigits (by decide) (by decide) hm
    revert this
    decide
  have h := toList_temporaryName n process fresh
  refine ⟨⟨?_, ?_, ?_⟩, ?_⟩
  · intro he
    rw [he] at h
    cases h
  · rw [h]
    simp [hn, hdigits]
  · intro he
    rw [he] at h
    simp at h
  · intro he
    have := congrArg List.length h
    rw [he] at this
    simp at this
    omega

theorem size_le_temporary (n : String) (process fresh : Nat) :
    n.utf8ByteSize ≤ (Staged.temporaryName n process fresh).utf8ByteSize := by
  simp only [Staged.temporaryName, String.utf8ByteSize_append]
  omega

theorem fits_of_temporary (hn : Path.IsPart n) (process fresh : Nat)
    (h : Fits (Path.join d (Staged.temporaryName n process fresh))) : Fits (Path.join d n) := by
  have ht := isName_temporary hn.noSlash process fresh
  refine Fits.of_size ht.toIsPart hn (size_le_temporary n process fresh) ?_ h
  have hnul := h.noNul
  rw [Bool.eq_false_iff, ne_eq, Path.hasNul_join ht.toIsPart, not_or] at hnul
  have := hnul.2
  rw [Bool.eq_false_iff, ne_eq]
  intro hx
  apply this
  simp only [Path.hasNul, List.contains_eq_mem, decide_eq_true_eq] at hx ⊢
  simp [Staged.temporaryName, hx]

theorem Footing.pathExists (hf : Footing l cwd w) (q : String) :
    w.answer (.pathExists q) = (w.files.pathExists cwd q, w) := by
  rw [World.answer, hf.place]

theorem Footing.pathExists_artifact (hf : Footing l cwd w) (hn : l.fileName k ≠ "..") (a : Area) :
    w.answer (.pathExists (l.artifactPath a k)) = ((l.held cwd w.files a k).isSome, w) := by
  rw [hf.pathExists, hf.sound.pathExists hn]

theorem Footing.createDirAll (hf : Footing l cwd w) (hd : Folder l (l.rootPlace cwd) d D B) :
    ∃ w', w.answer (.createDirAll d) = (.ok (), w') ∧ Footing l cwd w' ∧
      w'.files.node? D = some .directory ∧ Built (l.rootPlace cwd) B w.files w'.files := by
  obtain ⟨fs', hmade, hs, hD, ha⟩ := hf.sound.createDirAll hd
  refine ⟨{ w with files := fs' }, ?_, ⟨hf.place, hs⟩, hD, ha⟩
  rw [World.answer, hf.place, hmade]

theorem ensureParent_ends (hf : Footing l cwd w) (hd : Folder l (l.rootPlace cwd) d D B)
    (hn : Path.IsPart n) :
    (Staged.ensureParent (Path.join d n)).Ends v (fun o w' => Footing l cwd w' ∧
      Aside (l.rootPlace cwd) B w.files w'.files ∧ match o with
        | .error e => v.Rough ∧ e.directory? = some d
        | .ok () => w'.files.node? D = some .directory) w := by
  unfold Staged.ensureParent
  rw [hd.parent? hn]
  simp only [hd.ne_empty, if_false]
  apply Task.ends_bind
  apply Task.ends_ask (fun _ => rfl)
  simp only [hf.pathExists]
  split
  next he =>
    exact Task.ends_pure ⟨hf, .refl _ _ _, (hf.sound.pathExists_folder hd).mp he⟩
  next =>
    apply Task.ends_attempt
    · intro _
      obtain ⟨w', hmade, hf', hD, ha⟩ := hf.createDirAll hd
      simp only [hmade]
      exact ⟨hf', ha.aside, hD⟩
    · intro hr e b _ hb
      cases hb
      exact ⟨hf, .refl _ _ _, hr, rfl⟩

theorem Footing.reaches (hf : Footing l cwd w) (hd : Folder l (l.rootPlace cwd) d D B)
    (hD : w.files.node? D = some .directory) (hn : Path.IsName n) (hs : n.utf8ByteSize ≤ maxName)
    (hfits : Fits (Path.join d n)) : w.files.Reaches w.place (Path.join d n) D n := by
  rw [hf.place]
  exact hf.sound.reaches hd hD hn hs hfits

theorem removeTemporary_ends {α : Type} {Q : Except Failure α → World → Prop} {next : Task α}
    (hf : Footing l cwd w) (hd : Folder l (l.rootPlace cwd) d D B) (hp : Pending w.files d n D t c)
    (hnext : ∀ w', Footing l cwd w' → Aside (l.rootPlace cwd) B w.files w'.files →
      next.Ends v Q w') :
    (do let _ ← Task.ask (.removeFile (Path.join d t)); next : Task α).Ends v Q w := by
  apply Task.ends_bind
  refine Task.ends_reply (fun _ => ?_) (fun _ e b _ hb => ?_)
  · have hr := hf.reaches hd hp.directory hp.isName hp.short hp.fits
    simp only [World.answer, World.change, hr.removeFile hp.file]
    exact hnext _ ⟨hf.place, hf.sound.erase hp.file⟩ (aside_erase hd hp.temporary)
  · cases hb
    exact hnext _ hf (.refl _ _ _)

theorem writeOut_ends (hf : Footing l cwd w) (hd : Folder l (l.rootPlace cwd) d D B)
    (hp : Pending w.files d n D t []) (c : Bytes) :
    (Staged.writeOut (Path.join d t) c).Ends v (fun o w' => Footing l cwd w' ∧
      Aside (l.rootPlace cwd) B w.files w'.files ∧ match o with
        | .error e => v.Rough ∧ e.directory? = some d
        | .ok () => Pending w'.files d n D t c) w := by
  have hparent : Path.parent? (Path.join d t) = some d := hd.parent? hp.isName.toIsPart
  have hput : ∀ {w : World} {x y : Bytes}, Footing l cwd w → Pending w.files d n D t x →
      Footing l cwd { w with files := w.files.put (t :: D) (.file y) } ∧
        Pending (w.files.put (t :: D) (.file y)) d n D t y := by
    intro w x y hf hp
    have hne : D ≠ t :: D := fun he => by simpa using congrArg List.length he
    refine ⟨⟨hf.place, hf.sound.putTemporary hd hp.directory hp.temporary hp.isName y⟩,
      { hp with directory := ?_, file := ?_ }⟩
    · rw [FileSystem.node?_put _ _ _ (by simp), if_neg hne]
      exact hp.directory
    · rw [FileSystem.node?_put _ _ _ (by simp), if_pos rfl]
  unfold Staged.writeOut
  apply Task.ends_bind
  refine Task.ends_reply (fun _ => ?_) (fun hr e b hv hb => ?_)
  · have hr := hf.reaches hd hp.directory hp.isName hp.short hp.fits
    simp only [World.answer, World.change, hr.modifyFile _ hp.file, List.nil_append]
    obtain ⟨hf', hp'⟩ := hput (y := c) hf hp
    apply Task.ends_bind
    refine Task.ends_reply (fun _ => ?_) (fun hr e b hv hb => ?_)
    · have hr' := hf'.reaches hd hp'.directory hp'.isName hp'.short hp'.fits
      simp only [World.answer, World.change, hr'.modifyFile _ hp'.file, id]
      obtain ⟨hf'', hp''⟩ := hput (y := c) hf' hp'
      exact Task.ends_pure ⟨hf'', (aside_put hd hp.temporary _).trans (aside_put hd hp.temporary _), hp''⟩
    · cases hb
      apply removeTemporary_ends hf' hd hp'
      intro w' hw' ha
      exact Task.ends_fail ⟨hw', (aside_put hd hp.temporary _).trans ha, hr, hparent⟩
  · cases hb
    apply removeTemporary_ends hf hd hp
    intro w' hw' ha
    exact Task.ends_fail ⟨hw', ha, hr, hparent⟩

structure Draft (d n t : String) : Prop where
  temporary : Temporary t
  isName : Path.IsName t
  fits : Fits (Path.join d t) → Fits (Path.join d n)
  size : n.utf8ByteSize ≤ t.utf8ByteSize

theorem temporaryPath_ends (hf : Footing l cwd w) (hd : Folder l (l.rootPlace cwd) d D B)
    (hn : Path.IsName n) :
    (Staged.temporaryPath (Path.join d n)).Ends v (fun o w' => Footing l cwd w' ∧
      w'.files = w.files ∧ ∃ t, o = .ok (Path.join d t) ∧ Draft d n t) w := by
  unfold Staged.temporaryPath
  rw [Path.fileName?_join hn, hd.parent? hn.toIsPart]
  apply Task.ends_bind
  apply Task.ends_ask (fun _ => rfl)
  exact Task.ends_pure ⟨⟨hf.place, hf.sound⟩, rfl, _, rfl, temporary_name _ _ _,
    isName_temporary hn.noSlash _ _, fits_of_temporary hn.toIsPart _ _, size_le_temporary _ _ _⟩

theorem createTemporary_ends (hf : Footing l cwd w) (hd : Folder l (l.rootPlace cwd) d D B)
    (hD : w.files.node? D = some .directory) (ht : Draft d n t) :
    (Task.attempt (.createFile (Path.join d t)) (.file (.createTemporary (Path.join d t)))).Ends v
      (fun o w' => Footing l cwd w' ∧ Aside (l.rootPlace cwd) B w.files w'.files ∧ match o with
        | .error e => v.Rough ∧ e.directory? = some d
        | .ok () => Pending w'.files d n D t []) w := by
  have hparent : Path.parent? (Path.join d t) = some d := hd.parent? ht.isName.toIsPart
  apply Task.ends_attempt
  · intro hroom
    simp only [World.answer, hf.place] at hroom ⊢
    cases hx : w.files.openFile (fun _ => []) cwd (Path.join d t) with
    | error e =>
      simp only [hx, World.change, Request.lacksRoom] at hroom ⊢
      exact ⟨hf, .refl _ _ _, hroom.resolve_right (by decide), hparent⟩
    | ok fs' =>
      obtain ⟨hfits, hshort⟩ := FileSystem.openFile_join ht.isName hx
      have hr := hf.sound.reaches hd hD ht.isName hshort hfits
      have hnot := hf.sound.not_directory
        (FileSystem.below_cons hd.fixture.root_suffix t) (not_fixture_of_dot ht.temporary.dot_mem)
      rw [hr.createFile hnot] at hx
      cases hx
      simp only [World.change, Except.mapError]
      have hne : D ≠ t :: D := fun he => by simpa using congrArg List.length he
      refine ⟨⟨hf.place, hf.sound.putTemporary hd hD ht.temporary ht.isName []⟩,
        aside_put hd ht.temporary _, ht.temporary, ht.isName, hfits, hshort, ht.fits hfits,
        Nat.le_trans ht.size hshort, ?_, ?_⟩
      · rw [FileSystem.node?_put _ _ _ (by simp), if_neg hne]
        exact hD
      · rw [FileSystem.node?_put _ _ _ (by simp), if_pos rfl]
  · intro hr e b _ hb
    cases hb
    exact ⟨hf, .refl _ _ _, hr, hparent⟩

theorem stage_ends (hf : Footing l cwd w) (hd : Folder l (l.rootPlace cwd) d D B)
    (hn : Path.IsName n) (c : Bytes) :
    (Staged.stage (Path.join d n) c).Ends v (fun o w' => Footing l cwd w' ∧
      Aside (l.rootPlace cwd) B w.files w'.files ∧ match o with
        | .error e => v.Rough ∧ e.directory? = some d
        | .ok s => ∃ t, s = ⟨Path.join d t, Path.join d n⟩ ∧ Pending w'.files d n D t c) w := by
  unfold Staged.stage
  apply Task.ends_bind
  apply Task.ends_mono (ensureParent_ends hf hd hn.toIsPart)
  rintro (e | ⟨⟩) w₁ ⟨hf₁, ha₁, ho⟩
  · exact ⟨hf₁, ha₁, ho⟩
  apply Task.ends_bind
  apply Task.ends_mono (temporaryPath_ends hf₁ hd hn)
  rintro _ w₂ ⟨hf₂, hsame, t, rfl, ht⟩
  rw [← hsame] at ha₁ ho
  apply Task.ends_bind
  apply Task.ends_mono (createTemporary_ends hf₂ hd ho ht)
  rintro (e | ⟨⟩) w₃ ⟨hf₃, ha₃, ho₃⟩
  · exact ⟨hf₃, ha₁.trans ha₃, ho₃⟩
  apply Task.ends_bind
  apply Task.ends_mono (writeOut_ends hf₃ hd ho₃ c)
  rintro (e | ⟨⟩) w₄ ⟨hf₄, ha₄, ho₄⟩
  · exact ⟨hf₄, (ha₁.trans ha₃).trans ha₄, ho₄⟩
  · exact Task.ends_pure ⟨hf₄, (ha₁.trans ha₃).trans ha₄, t, rfl, ho₄⟩

def Puts (R B p : Place) (c : Bytes) (fs fs' : FileSystem) : Prop :=
  ∃ fs₁, Aside R B fs fs₁ ∧ fs'.node? p = some (.file c) ∧ ∀ q, q ≠ p → fs'.node? q = fs₁.node? q

theorem Puts.after {fs₁ : FileSystem} (ha : Aside R B fs fs₁) (h : Puts R B p c fs₁ fs') :
    Puts R B p c fs fs' := by
  obtain ⟨fs₂, ha₂, hp, ho⟩ := h
  exact ⟨fs₂, ha.trans ha₂, hp, ho⟩

theorem Puts.off (h : Puts R B p c fs fs') {q : Place} (hp : within B p = true)
    (hq : within B q = false) : fs'.node? q = fs.node? q := by
  obtain ⟨fs₁, ha, -, ho⟩ := h
  rw [ho, ha.off hq]
  rintro rfl
  rw [hp] at hq
  cases hq

theorem Puts.held (h : Puts (l.rootPlace cwd) B (l.site cwd a k) c fs fs')
    (hu : FileName.Storable l.extension.toList) :
    l.held cwd fs' = (l.held cwd fs).set a k (some c) := by
  obtain ⟨fs₁, ha, hp, ho⟩ := h
  rw [← ha.held hu]
  exact held_of_site (FileSystem.content?_eq_some.mpr hp) ho

theorem Puts.records_of_site (h : Puts (l.rootPlace cwd) B (l.site cwd a k) c fs fs') :
    RecordsStay l cwd fs fs' := by
  obtain ⟨fs₁, ha, -, ho⟩ := h
  exact ha.records.trans (Layout.records_of_site ho)

theorem Puts.held_of_flags (h : Puts (l.rootPlace cwd) B (l.flagsPlace cwd) c fs fs')
    (hu : FileName.Storable l.extension.toList) : l.held cwd fs' = l.held cwd fs := by
  obtain ⟨fs₁, ha, -, ho⟩ := h
  rw [← ha.held hu]
  funext a k
  exact FileSystem.content?_congr (ho _ site_ne_flagsPlace)

theorem Puts.document (h : Puts R B (l.flagsPlace cwd) c fs fs') :
    l.document cwd fs' = some c := by
  obtain ⟨fs₁, -, hp, -⟩ := h
  exact FileSystem.content?_eq_some.mpr hp

structure Slot (l : Layout) (cwd : Place) (d n : String) (D : Place) : Prop where
  name : Path.IsName n
  not_temporary : ¬ Temporary n
  not_fixture : ¬ Fixture (l.rootPlace cwd) (n :: D)
  holdable : Fits (Path.join d n) → n.utf8ByteSize ≤ maxName →
    ∀ a k, l.site cwd a k = n :: D → Holdable l a k
  flagsFit : Fits (Path.join d n) → l.flagsPlace cwd = n :: D → Fits l.flagsPath

theorem discard_ends (hf : Footing l cwd w) (hd : Folder l (l.rootPlace cwd) d D B)
    (hp : Pending w.files d n D t c) :
    (Staged.discard ⟨Path.join d t, Path.join d n⟩).Ends v (fun o w' => o = .ok () ∧
      Footing l cwd w' ∧ Aside (l.rootPlace cwd) B w.files w'.files) w := by
  apply removeTemporary_ends hf hd hp
  intro w' hw' ha
  exact Task.ends_pure ⟨rfl, hw', ha⟩

theorem commit_ends (hf : Footing l cwd w) (hd : Folder l (l.rootPlace cwd) d D B)
    (hs : Slot l cwd d n D) (hp : Pending w.files d n D t c) :
    (Staged.commit ⟨Path.join d t, Path.join d n⟩).Ends v (fun o w' => Footing l cwd w' ∧
      match o with
        | .error e => v.Rough ∧ (∃ e', e = .file (.replace (Path.join d n)) e') ∧
          Aside (l.rootPlace cwd) B w.files w'.files
        | .ok () => Puts (l.rootPlace cwd) B (n :: D) c w.files w'.files) w := by
  have hne : n ≠ t := by
    rintro rfl
    exact hs.not_temporary hp.temporary
  have hplace : (n :: D : Place) ≠ t :: D := fun he => hne (List.cons.inj he).1
  have hdir : D ≠ t :: D := fun he => by simpa using congrArg List.length he
  have hroot : l.rootPlace cwd <:+ D := hd.fixture.root_suffix
  unfold Staged.commit
  apply Task.ends_bind
  refine Task.ends_reply (fun _ => ?_) (fun hr e b hv hb => ?_)
  · have hr := hf.reaches hd hp.directory hp.isName hp.short hp.fits
    have hr' := hf.reaches hd hp.directory hs.name hp.targetShort hp.targetFits
    have hnot := hf.sound.not_directory (FileSystem.below_cons hroot n) hs.not_fixture
    simp only [World.answer, World.change, hr.rename hr' hp.file hnot rfl (Ne.symm hplace),
      ne_eq, not_true_eq_false, if_false]
    have he := hf.sound.erase hp.file
    have hdir' : (w.files.erase (t :: D)).node? D = some .directory := by
      rw [FileSystem.node?_erase _ _ (by simp), if_neg hdir]
      exact hp.directory
    refine Task.ends_pure ⟨⟨hf.place, he.put hroot hdir' hs.name hs.not_fixture
      (hs.holdable hp.targetFits hp.targetShort) (hs.flagsFit hp.targetFits)⟩, _, aside_erase hd hp.temporary, ?_, ?_⟩
    · rw [FileSystem.node?_put _ _ _ (by simp), if_pos rfl]
    · intro q hq
      rw [FileSystem.node?_put _ _ _ (by simp), if_neg hq]
  · cases hb
    apply Task.ends_bind
    apply Task.ends_mono (discard_ends hf hd hp)
    rintro o w' ⟨rfl, hw', ha⟩
    exact Task.ends_fail ⟨hw', hr, ⟨_, rfl⟩, ha⟩

theorem atomicWrite_ends (hf : Footing l cwd w) (hd : Folder l (l.rootPlace cwd) d D B)
    (hs : Slot l cwd d n D) (c : Bytes) :
    (atomicWrite (Path.join d n) c).Ends v (fun o w' => Footing l cwd w' ∧
      match o with
        | .error e => (v.Rough ∧ e.directory? = some d) ∧ Aside (l.rootPlace cwd) B w.files w'.files
        | .ok () => Puts (l.rootPlace cwd) B (n :: D) c w.files w'.files ∧
          Fits (Path.join d n) ∧ n.utf8ByteSize ≤ maxName) w := by
  unfold atomicWrite
  apply Task.ends_bind
  apply Task.ends_mono (stage_ends hf hd hs.name c)
  rintro (e | s) w₁ ⟨hf₁, ha₁, ho⟩
  · exact ⟨hf₁, ho, ha₁⟩
  obtain ⟨t, rfl, hp⟩ := ho
  apply Task.ends_mono (commit_ends hf₁ hd hs hp)
  rintro (e | ⟨⟩) w₂ ⟨hf₂, ho₂⟩
  · obtain ⟨hr, ⟨e', rfl⟩, ha₂⟩ := ho₂
    exact ⟨hf₂, ⟨hr, hd.parent? hs.name.toIsPart⟩, ha₁.trans ha₂⟩
  · exact ⟨hf₂, ho₂.after ha₁, hp.targetFits, hp.targetShort⟩

theorem slot_site (hu : FileName.Storable l.extension.toList) (hn : l.fileName k ≠ "..") :
    Slot l cwd (l.folder a k) (l.fileName k) (l.folderPlace cwd a k) where
  name := isName_fileName hu hn
  not_temporary := not_temporary_fileName hu k
  not_fixture := not_fixture_of_dot (dot_mem_fileName k)
  holdable := by
    intro hf hs b j he
    obtain ⟨rfl, rfl⟩ := site_injective he
    exact ⟨isName_fileName hu hn, hs, artifactPath_eq l b j ▸ hf⟩
  flagsFit := fun _ he => absurd he.symm site_ne_flagsPlace

theorem slot_flags (l : Layout) (cwd : Place) :
    Slot l cwd (Path.join l.root "meta") "flags.json" ("meta" :: l.rootPlace cwd) where
  name := isName_flags
  not_temporary := not_temporary_flags
  not_fixture := not_fixture_flagsPlace
  holdable := fun _ _ _ _ he => absurd he site_ne_flagsPlace
  flagsFit := fun hf _ => hf

end Layout

end SourceDelta
