import SourceDelta.Proofs.Staging

/-!
# Moving, removing and emptying

A value is moved from one area to another, by a rename or, where another device
forbids that, by writing it there and then removing it here. A move that fails
has moved nothing, or has copied the value and not removed it.
-/

set_option autoImplicit false

namespace SourceDelta.Layout
open SourceDelta.FileSystem (Fits Opens placeOf within below maxName)

variable {l : Layout} {cwd p : Place} {fs fs' fs'' : FileSystem} {w w' : World} {a b : Area}
  {k : Key} {c : Bytes} {v : Weather}

/-- Nothing is touched outside an area, but the site that is given. -/
def Near (l : Layout) (cwd : Place) (b : Area) (p : Place) (fs fs' : FileSystem) : Prop :=
  ∀ q, within (b.name :: l.rootPlace cwd) q = false → q ≠ p → fs'.node? q = fs.node? q

theorem Near.trans (h : Near l cwd b p fs fs') (h' : Near l cwd b p fs' fs'') :
    Near l cwd b p fs fs'' :=
  fun q hq hp => (h' q hq hp).trans (h q hq hp)

theorem Aside.near (h : Aside (l.rootPlace cwd) (b.name :: l.rootPlace cwd) fs fs') :
    Near l cwd b p fs fs' :=
  fun _ hq _ => h.off hq

theorem within_site (b : Area) (k : Key) :
    within (b.name :: l.rootPlace cwd) (l.site cwd b k) = true :=
  (folder_folder l cwd b k).within _

theorem Puts.near (h : Puts (l.rootPlace cwd) (b.name :: l.rootPlace cwd) (l.site cwd b k) c
    fs fs') : Near l cwd b p fs fs' :=
  fun _ hq _ => h.off (within_site b k) hq

theorem not_within_of_length {n m : String} {R q : Place} (hnm : n ≠ m) (xs : Place)
    (hq : q = xs ++ m :: R) : within (n :: R) q = false := by
  subst hq
  rw [Bool.eq_false_iff, ne_eq, within, List.isSuffixOf_iff_suffix]
  intro h
  have h' : m :: R <:+ xs ++ m :: R := List.suffix_append _ _
  have := List.suffix_of_suffix_length_le h h' (by simp)
  have := this.eq_of_length (by simp)
  exact hnm (List.cons.inj this).1

theorem not_within_flags (b : Area) :
    within (b.name :: l.rootPlace cwd) (l.flagsPlace cwd) = false :=
  not_within_of_length (area_name_ne_meta b) ["flags.json"] rfl

theorem not_within_journal (b : Area) :
    within (b.name :: l.rootPlace cwd) (l.journalPlace cwd) = false :=
  not_within_of_length (m := "journal.ndjson") (by cases b <;> decide) [] rfl

theorem site_eq_append (l : Layout) (cwd : Place) (a : Area) (k : Key) :
    ∃ xs, l.site cwd a k = xs ++ a.name :: l.rootPlace cwd ∧
      l.folderPlace cwd a k = xs.tail ++ a.name :: l.rootPlace cwd ∧ xs ≠ [] := by
  cases k with
  | code path => exact ⟨[l.fileName (.code path), "code"], rfl, rfl, by simp⟩
  | build => exact ⟨[l.fileName .build], rfl, rfl, by simp⟩
  | variability => exact ⟨[l.fileName .variability], rfl, rfl, by simp⟩

theorem not_within_site (h : a ≠ b) : within (b.name :: l.rootPlace cwd) (l.site cwd a k) = false := by
  obtain ⟨xs, hxs, -, -⟩ := site_eq_append l cwd a k
  exact not_within_of_length (fun he => h (area_name_injective he).symm) xs hxs

theorem not_within_folder (h : a ≠ b) :
    within (b.name :: l.rootPlace cwd) (l.folderPlace cwd a k) = false := by
  obtain ⟨xs, -, hxs, -⟩ := site_eq_append l cwd a k
  exact not_within_of_length (fun he => h (area_name_injective he).symm) _ hxs

theorem Near.records (h : Near l cwd b (l.site cwd a k) fs fs') : RecordsStay l cwd fs fs' :=
  recordsStay_of_node? (h _ (not_within_flags b) (Ne.symm site_ne_flagsPlace))
    (h _ (not_within_journal b) (Ne.symm site_ne_journalPlace))

theorem Sound.erase_site (h : Sound l cwd fs) (hk : l.held cwd fs a k = some c) :
    Sound l cwd (fs.erase (l.site cwd a k)) ∧
      (∀ q, q ≠ l.site cwd a k → (fs.erase (l.site cwd a k)).node? q = fs.node? q) ∧
      l.held cwd (fs.erase (l.site cwd a k)) = (l.held cwd fs).set a k none := by
  have hp := h.held_eq_some.mp hk
  have hne : l.site cwd a k ≠ [] := by simp [site]
  have ho : ∀ q, q ≠ l.site cwd a k → (fs.erase (l.site cwd a k)).node? q = fs.node? q := by
    intro q hq
    rw [FileSystem.node?_erase _ _ hne, if_neg hq]
  refine ⟨h.erase hp, ho, held_of_site ?_ ho⟩
  rw [FileSystem.content?, FileSystem.node?_erase _ _ hne, if_pos rfl]

theorem removeFile_held (hf : Footing l cwd w) (hk : l.held cwd w.files a k = some c) :
    w.files.removeFile w.place (l.artifactPath a k) = .ok (w.files.erase (l.site cwd a k)) := by
  rw [hf.place]
  exact (hf.sound.reaches_held (by simp [hk])).removeFile (hf.sound.held_eq_some.mp hk)

theorem removeFile_site {fs' : FileSystem} (h : Sound l cwd fs)
    (hr : fs.removeFile cwd (l.artifactPath a k) = .ok fs') : ∃ c, l.held cwd fs a k = some c := by
  simp only [FileSystem.removeFile] at hr
  split at hr
  · cases hr
  · cases hr
  next p c hp => exact ⟨c, h.held_of_find hp⟩

theorem removeIfPresent_ends (hf : Footing l cwd w)
    (hdir : w.files.node? (l.folderPlace cwd a k) = some .directory) :
    (removeIfPresent (l.artifactPath a k)).Ends v (fun o w' => Footing l cwd w' ∧
      (∀ q, q ≠ l.site cwd a k → w'.files.node? q = w.files.node? q) ∧ match o with
        | .error _ => (v.Rough ∨ ¬ Holdable l a k) ∧ l.held cwd w'.files = l.held cwd w.files
        | .ok _ => l.held cwd w'.files = (l.held cwd w.files).set a k none ∨
          v .noEntry ∧ l.held cwd w'.files = l.held cwd w.files) w := by
  unfold removeIfPresent
  apply Task.ends_bind
  refine Task.ends_reply (fun _ => ?_) (fun hr e b hv hb => ?_)
  · cases hk : l.held cwd w.files a k with
    | some c =>
      simp only [World.answer, World.change, removeFile_held hf hk]
      obtain ⟨hs, ho, hh⟩ := hf.sound.erase_site hk
      exact Task.ends_pure ⟨⟨hf.place, hs⟩, ho, .inl hh⟩
    | none =>
      cases hx : w.files.removeFile w.place (l.artifactPath a k) with
      | ok fs' =>
        rw [hf.place] at hx
        obtain ⟨c, hc⟩ := removeFile_site hf.sound hx
        rw [hk] at hc
        cases hc
      | error e =>
        simp only [World.answer, World.change, hx]
        by_cases hh : Holdable l a k
        · have hr := hf.sound.reaches_site hh hdir
          rw [hf.place, hr.removeFile_none (hf.sound.site_of_none hk)] at hx
          cases hx
          exact Task.ends_pure ⟨hf, fun _ _ => rfl, .inl (Holdings.set_held hk).symm⟩
        · cases e
          case noEntry => exact Task.ends_pure ⟨hf, fun _ _ => rfl, .inl (Holdings.set_held hk).symm⟩
          all_goals exact Task.ends_fail ⟨hf, fun _ _ => rfl, .inr hh, rfl⟩
  · cases hb
    cases e
    case noEntry => exact Task.ends_pure ⟨hf, fun _ _ => rfl, .inr ⟨hv, rfl⟩⟩
    all_goals exact Task.ends_fail ⟨hf, fun _ _ => rfl, .inl hr, rfl⟩

/-- The failure of a move that has left the value where it was. -/
def Unmoved (l : Layout) (a b : Area) (k : Key) (e : Failure) : Prop :=
  e.directory? = some (l.folder b k) ∨ ∃ i j, e = .readForMove (l.artifactPath a k) i j

/-- How a move ends: the value is at its new site alone, or the move has failed. -/
def Moved (v : Weather) (l : Layout) (cwd : Place) (a b : Area) (k : Key) (c : Bytes)
    (fs fs' : FileSystem) : Except Failure Unit → Prop
  | .ok () => l.held cwd fs' = ((l.held cwd fs).set b k (some c)).set a k none
  | .error e => (v.Rough ∨ ¬ Holdable l b k) ∧ l.held cwd fs' = l.held cwd fs ∧ Unmoved l a b k e ∨
      v.Rough ∧ l.held cwd fs' = (l.held cwd fs).set b k (some c) ∧
        ∃ e', e = .file (.deleteMoved (l.artifactPath a k)) e'

theorem Moved.key {o : Except Failure Unit} {j : Key} (hm : Moved v l cwd a b k c fs fs' o)
    (hj : j ≠ k) (area : Area) : l.held cwd fs' area j = l.held cwd fs area j := by
  cases o with
  | ok _ => rw [show l.held cwd fs' = _ from hm, Holdings.set_key hj, Holdings.set_key hj]
  | error e =>
    rcases hm with ⟨-, hm, -⟩ | ⟨-, hm, -⟩
    · rw [hm]
    · rw [hm, Holdings.set_key hj]

theorem moveAcross_ends (hf : Footing l cwd w) (hab : a ≠ b)
    (hk : l.held cwd w.files a k = some c) (refused : IoError) :
    (moveAcross (l.artifactPath a k) (l.artifactPath b k) refused).Ends v (fun o w' =>
      Footing l cwd w' ∧ Near l cwd b (l.site cwd a k) w.files w'.files ∧
        Moved v l cwd a b k c w.files w'.files o) w := by
  have hname : Path.IsName (l.fileName k) := (hf.sound.holdable_of_held (a := a) (by simp [hk])).name
  unfold moveAcross
  apply Task.ends_bind
  apply Task.ends_attempt
  · intro _
    simp only [World.answer, hf.place, hf.sound.readFile hk, Except.mapError]
    apply Task.ends_bind
    rw [artifactPath_eq l b]
    apply Task.ends_mono (atomicWrite_ends hf (folder_folder l cwd b k)
      (slot_site hf.sound.storable hname.ne_dots) c)
    rintro (e | ⟨⟩) w₁ ⟨hf₁, ho⟩
    · exact ⟨hf₁, ho.2.near, .inl ⟨.inl ho.1.1, ho.2.held hf.sound.storable, .inl ho.1.2⟩⟩
    obtain ⟨hp, hfits, hshort⟩ := ho
    have hheld := Puts.held (l := l) (k := k) hp hf.sound.storable
    have hk₁ : l.held cwd w₁.files a k = some c := by
      rw [hheld, Holdings.set_area hab]
      exact hk
    have hnear : Near l cwd b (l.site cwd a k) w.files w₁.files := Puts.near (k := k) hp
    apply Task.ends_attempt
    · intro _
      simp only [World.answer, World.change, removeFile_held hf₁ hk₁, Except.mapError]
      obtain ⟨hs, ho, hh⟩ := hf₁.sound.erase_site hk₁
      refine ⟨⟨hf₁.place, hs⟩, hnear.trans fun q _ hq => ho q hq, ?_⟩
      rw [Moved, hh, hheld]
    · intro hr e b _ hb
      cases hb
      exact ⟨hf₁, hnear, .inr ⟨hr, hheld, _, rfl⟩⟩
  · intro hr e b _ hb
    cases hb
    exact ⟨hf, fun _ _ _ => rfl, .inl ⟨.inl hr, rfl, .inr ⟨_, _, rfl⟩⟩⟩

def afterRename (source target : String) : Except IoError Unit → SourceDelta.Task Unit
  | .ok () => pure ()
  | .error .crossDevice => moveAcross source target .crossDevice
  | .error e => Task.fail (.file (.move source target) e)

theorem afterRename_error_ends (hf : Footing l cwd w) (hab : a ≠ b)
    (hk : l.held cwd w.files a k = some c) (e : IoError) (he : v.Rough ∨ ¬ Holdable l b k) :
    (afterRename (l.artifactPath a k) (l.artifactPath b k) (.error e)).Ends v (fun o w' =>
      Footing l cwd w' ∧ Near l cwd b (l.site cwd a k) w.files w'.files ∧
        Moved v l cwd a b k c w.files w'.files o) w := by
  have hname : Path.IsName (l.fileName k) := (hf.sound.holdable_of_held (a := a) (by simp [hk])).name
  have hparent : Path.parent? (l.artifactPath b k) = some (l.folder b k) := by
    rw [artifactPath_eq, (folder_folder l cwd b k).parent? hname.toIsPart]
  cases e
  case crossDevice => exact moveAcross_ends hf hab hk .crossDevice
  all_goals exact Task.ends_fail ⟨hf, fun _ _ _ => rfl, .inl ⟨he, rfl, .inl hparent⟩⟩

theorem Sound.relocate (h : Sound l cwd fs) (hab : a ≠ b) (hk : l.held cwd fs a k = some c)
    (hb : Holdable l b k) (hD : fs.node? (l.folderPlace cwd b k) = some .directory) :
    Sound l cwd ((fs.erase (l.site cwd a k)).put (l.site cwd b k) (.file c)) ∧
      Near l cwd b (l.site cwd a k) fs
        ((fs.erase (l.site cwd a k)).put (l.site cwd b k) (.file c)) ∧
      l.held cwd ((fs.erase (l.site cwd a k)).put (l.site cwd b k) (.file c)) =
        ((l.held cwd fs).set b k (some c)).set a k none := by
  obtain ⟨hs, ho, hheld⟩ := h.erase_site hk
  have hfile := h.held_eq_some.mp hk
  have hne : l.site cwd b k ≠ [] := by simp [site]
  have hput : ∀ q, ((fs.erase (l.site cwd a k)).put (l.site cwd b k) (.file c)).node? q =
      if q = l.site cwd b k then some (.file c) else (fs.erase (l.site cwd a k)).node? q :=
    fun q => FileSystem.node?_put _ _ _ hne
  have hD' : (fs.erase (l.site cwd a k)).node? (l.folderPlace cwd b k) = some .directory := by
    rw [ho]
    · exact hD
    · intro he
      rw [he, hfile] at hD
      cases hD
  refine ⟨?_, ?_, ?_⟩
  · refine hs.put (folder_folder l cwd b k).fixture.root_suffix hD' hb.name (not_fixture_site k)
      ?_ fun he => absurd he.symm site_ne_flagsPlace
    intro a' k' he
    obtain ⟨rfl, rfl⟩ := site_injective (b := b) he
    exact hb
  · intro q hq hp
    rw [hput, if_neg, ho q hp]
    rintro rfl
    rw [within_site] at hq
    cases hq
  · rw [Holdings.set_comm (Ne.symm hab), ← hheld]
    apply held_of_site
    · rw [FileSystem.content?, hput, if_pos rfl]
    · intro q hq
      rw [hput, if_neg hq]

theorem relocate_ends (hf : Footing l cwd w) (hab : a ≠ b)
    (hk : l.held cwd w.files a k = some c)
    (hD : w.files.node? (l.folderPlace cwd b k) = some .directory) :
    Task.Ends v (fun o w' => Footing l cwd w' ∧ Near l cwd b (l.site cwd a k) w.files w'.files ∧
        Moved v l cwd a b k c w.files w'.files o)
      (Task.ask (.rename (l.artifactPath a k) (l.artifactPath b k)) >>=
        afterRename (l.artifactPath a k) (l.artifactPath b k)) w := by
  have hh : Holdable l a k := hf.sound.holdable_of_held (by simp [hk])
  apply Task.ends_bind
  refine Task.ends_reply (fun _ => ?_) (fun hr e b hv hb => ?_)
  · have hanswer : w.answer (.rename (l.artifactPath a k) (l.artifactPath b k)) =
        w.change (w.files.rename cwd (l.artifactPath a k) (l.artifactPath b k)) := by
      rw [World.answer, hf.place]
    simp only [hanswer]
    by_cases hb : Holdable l b k
    · have hr := hf.sound.reaches_held (a := a) (k := k) (by simp [hk])
      have hr' := hf.sound.reaches_site hb hD
      have hne : l.site cwd a k ≠ l.site cwd b k :=
        fun he => hab (site_injective he).1
      have hlen : (l.folderPlace cwd a k).length = (l.folderPlace cwd b k).length := by
        cases k <;> simp [folderPlace]
      have hrename : w.files.rename cwd (l.artifactPath a k) (l.artifactPath b k) =
          if w.files.device (l.folderPlace cwd a k) ≠ w.files.device (l.folderPlace cwd b k) then
            .error .crossDevice
          else .ok ((w.files.erase (l.site cwd a k)).put (l.site cwd b k) (.file c)) :=
        hr.rename hr' (hf.sound.held_eq_some.mp hk) (hf.sound.site_not_directory b k) hlen hne
      by_cases hdevice : w.files.device (l.folderPlace cwd a k) ≠
          w.files.device (l.folderPlace cwd b k)
      · rw [hrename, if_pos hdevice]
        exact moveAcross_ends hf hab hk .crossDevice
      · rw [hrename, if_neg hdevice]
        obtain ⟨hs, hnear, hheld⟩ := hf.sound.relocate hab hk hb hD
        exact Task.ends_pure ⟨⟨hf.place, hs⟩, hnear, hheld⟩
    · cases hx : w.files.rename cwd (l.artifactPath a k) (l.artifactPath b k) with
      | error e => exact afterRename_error_ends hf hab hk e (.inr hb)
      | ok fs' =>
        rw [artifactPath_eq l b] at hx
        obtain ⟨h1, h2⟩ := FileSystem.rename_join hh.name hx
        exact absurd ⟨hh.name, h2, artifactPath_eq l b k ▸ h1⟩ hb
  · cases hb
    exact afterRename_error_ends hf hab hk e (.inl hr)

theorem moveFile_ends (hf : Footing l cwd w) (hab : a ≠ b)
    (hk : l.held cwd w.files a k = some c) :
    (moveFile (l.artifactPath a k) (l.artifactPath b k)).Ends v (fun o w' =>
      Footing l cwd w' ∧ Near l cwd b (l.site cwd a k) w.files w'.files ∧
        Moved v l cwd a b k c w.files w'.files o) w := by
  have hname : Path.IsName (l.fileName k) := (hf.sound.holdable_of_held (a := a) (by simp [hk])).name
  have hd := folder_folder l cwd b k
  unfold moveFile
  rw [show Path.parent? (l.artifactPath b k) = some (l.folder b k) by
    rw [artifactPath_eq, hd.parent? hname.toIsPart]]
  apply Task.ends_bind
  apply Task.ends_attempt
  · intro _
    obtain ⟨w₁, hmade, hf₁, hD, ha⟩ := hf.createDirAll hd
    have hheld : l.held cwd w₁.files = l.held cwd w.files := ha.aside.held hf.sound.storable
    simp only [hmade, Except.mapError]
    show Task.Ends _ _ (Task.ask _ >>= afterRename _ _) _
    apply Task.ends_mono (relocate_ends hf₁ hab (hheld ▸ hk) hD)
    rintro o w' ⟨h1, h2, h3⟩
    refine ⟨h1, ha.aside.near.trans h2, ?_⟩
    cases o <;> simpa only [Moved, hheld] using h3
  · intro hr e b _ hb
    cases hb
    exact ⟨hf, fun _ _ _ => rfl, .inl ⟨.inl hr, rfl, .inl rfl⟩⟩

theorem afterRename_nameless_ends (hf : Footing l cwd w) (hn : l.fileName k = "..") (a b : Area)
    (e : IoError) :
    (afterRename (l.artifactPath a k) (l.artifactPath b k) (.error e)).Ends v
      (fun o w' => w' = w ∧ ∃ e, o = .error e) w := by
  cases e
  case crossDevice =>
    show (moveAcross _ _ _).Ends _ _ _
    unfold moveAcross
    apply Task.ends_bind
    apply Task.ends_attempt
    · intro _
      simp only [World.answer, hf.place]
      cases hx : w.files.readFile cwd (l.artifactPath a k) with
      | ok c =>
        have := hf.sound.held_of_readFile hx
        rw [hf.sound.held_nameless hn] at this
        cases this
      | error e => exact ⟨trivial, _, rfl⟩
    · intro _ e b _ hb
      cases hb
      exact ⟨rfl, _, rfl⟩
  all_goals exact Task.ends_fail ⟨rfl, _, rfl⟩

theorem moveFile_nameless_ends (hf : Footing l cwd w) (hn : l.fileName k = "..") (a b : Area) :
    (moveFile (l.artifactPath a k) (l.artifactPath b k)).Ends v (fun o w' => Footing l cwd w' ∧
      l.held cwd w'.files = l.held cwd w.files ∧
      RecordsStay l cwd w.files w'.files ∧ ∃ e, o = .error e) w := by
  have hd := folder_folder l cwd b k
  unfold moveFile
  rw [show Path.parent? (l.artifactPath b k) = some (l.folder b k) by
    rw [artifactPath_eq, hd.parent? (isPart_fileName hf.sound.storable k)]]
  apply Task.ends_bind
  apply Task.ends_attempt
  · intro _
    obtain ⟨w₁, hmade, hf₁, -, ha⟩ := hf.createDirAll hd
    have hafter : ∀ e, (afterRename (l.artifactPath a k) (l.artifactPath b k) (.error e)).Ends v
        (fun o w' => Footing l cwd w' ∧ l.held cwd w'.files = l.held cwd w.files ∧
          RecordsStay l cwd w.files w'.files ∧ ∃ e, o = .error e) w₁ := by
      intro e
      apply Task.ends_mono (afterRename_nameless_ends hf₁ hn a b e)
      rintro o w' ⟨rfl, ho⟩
      exact ⟨hf₁, ha.aside.held hf.sound.storable, ha.aside.records, ho⟩
    simp only [hmade, Except.mapError]
    show Task.Ends _ _ (Task.ask _ >>= afterRename _ _) _
    apply Task.ends_bind
    refine Task.ends_reply (fun _ => ?_) (fun _ e x _ hb => ?_)
    · simp only [World.answer, World.change]
      cases hx : w₁.files.rename w₁.place (l.artifactPath a k) (l.artifactPath b k) with
      | ok fs' =>
        rw [artifactPath_eq l b, hn] at hx
        exact absurd hx FileSystem.rename_dots
      | error e => exact hafter e
    · cases hb
      exact hafter e
  · intro _ e x _ hb
    cases hb
    exact ⟨hf, rfl, .refl _, _, rfl⟩

end SourceDelta.Layout
