import SourceDelta.Proofs.JournalReading
import SourceDelta.Proofs.Moves

/-!
# Emptying areas, saving flags and keeping the journal

Emptying an area takes every file in it and touches nothing else. The flags are
saved whole or not at all. The journal never stops anything and no value depends
on it.
-/

set_option autoImplicit false

namespace SourceDelta.Layout
open SourceDelta.FileSystem (Fits Opens placeOf startOf lead within below maxName DirectoriesStay)

variable {l : Layout} {cwd p : Place} {fs fs' : FileSystem} {w w' : World} {a b : Area}
  {k : Key} {c : Bytes} {v : Weather}

theorem within_iff {d q : Place} : within d q = true ↔ d <:+ q := by
  simp [within]

theorem not_within_root (n : String) (R : Place) : within (n :: R) R = false := by
  rw [Bool.eq_false_iff, ne_eq, within_iff]
  intro h
  have hlength := h.length_le
  rw [List.length_cons] at hlength
  omega

theorem Sound.eraseArea (h : Sound l cwd fs) (ha : a ≠ .current) :
    Sound l cwd (fs.eraseTree (a.name :: l.rootPlace cwd)) := by
  have hne : (a.name :: l.rootPlace cwd : Place) ≠ [] := by simp
  have herase : ∀ q, (fs.eraseTree (a.name :: l.rootPlace cwd)).node? q =
      if within (a.name :: l.rootPlace cwd) q then none else fs.node? q :=
    fun q => FileSystem.node?_eraseTree _ q hne
  have hoff : ∀ q, (fs.eraseTree (a.name :: l.rootPlace cwd)).node? q ≠ none →
      within (a.name :: l.rootPlace cwd) q = false ∧ fs.node? q ≠ none := by
    intro q hq
    rw [herase] at hq
    split at hq
    · exact absurd rfl hq
    next hw => exact ⟨by simpa using hw, hq⟩
  have hkeep : ∀ q, within (a.name :: l.rootPlace cwd) q = false →
      (fs.eraseTree (a.name :: l.rootPlace cwd)).node? q = fs.node? q := by
    intro q hq
    rw [herase, hq]
    rfl
  refine { h.toGround with
    opens := h.opens.of_lead ?_
    tree := ?_, fixture := ?_, noFile := ?_
    names := fun m e he hm => h.names m e he (hoff _ hm).2
    holdable := fun b k hs => h.holdable b k (hoff _ hs).2
    flagsFit := fun hs => h.flagsFit (hoff _ hs).2
    distinct := h.distinct.eraseTree _
    current := ?_ }
  · intro ys hys hdir
    rw [hkeep]
    · exact hdir
    · rw [Bool.eq_false_iff, ne_eq, within_iff]
      intro hw
      have hb := h.outside ys hys
      rw [FileSystem.below_iff.mpr] at hb
      · cases hb
      · refine ⟨(suffix_cons_self _ _).trans hw, ?_⟩
        intro he
        rw [he, ← within_iff, not_within_root] at hw
        cases hw
  · intro m e he hm
    obtain ⟨hw, hnode⟩ := hoff _ hm
    rw [hkeep]
    · exact h.tree m e he hnode
    · rw [Bool.eq_false_iff, ne_eq, within_iff] at hw ⊢
      exact fun hs => hw (hs.trans (suffix_cons_self _ _))
  · intro q hq hd
    refine h.fixture q hq ?_
    rw [← hkeep q (hoff q (by simp [hd])).1, hd]
  · intro q hq c hc
    refine h.noFile q hq c ?_
    rw [← hkeep q (hoff q (by simp [hc])).1, hc]
  · rw [hkeep]
    · exact h.current
    · exact not_within_of_length (fun he => ha (area_name_injective he)) ["code"] rfl

theorem held_eraseArea : l.held cwd (fs.eraseTree (a.name :: l.rootPlace cwd)) =
    (l.held cwd fs).clear a := by
  funext b k
  rw [held, FileSystem.content?, FileSystem.node?_eraseTree _ _ (by simp), Holdings.clear]
  by_cases hab : b = a
  · subst hab
    rw [within_site, if_pos rfl, if_pos rfl]
  · rw [not_within_site hab, if_neg hab]
    rfl

/-- No file stands in the area. -/
def Emptied (l : Layout) (cwd : Place) (a : Area) (fs : FileSystem) : Prop :=
  ∀ q c, within (a.name :: l.rootPlace cwd) q = true → fs.node? q ≠ some (.file c)

theorem Built.emptied {B : Place} (h : Built (l.rootPlace cwd) B fs fs')
    (he : Emptied l cwd a fs) : Emptied l cwd a fs' := by
  intro q c hq
  rcases h q with h | ⟨-, -, h⟩
  · rw [h]
    exact he q c hq
  · simp [h]

theorem Emptied.held (h : Emptied l cwd a fs) (k : Key) : l.held cwd fs a k = none := by
  rw [Layout.held, FileSystem.content?]
  split
  next c hc => exact absurd hc (h _ c (within_site a k))
  next => rfl

theorem Sound.emptied_of_missing (h : Sound l cwd fs)
    (ha : fs.node? (a.name :: l.rootPlace cwd) ≠ some .directory) : Emptied l cwd a fs := by
  intro q c hq hc
  rw [within_iff] at hq
  obtain ⟨xs, rfl⟩ := hq
  have hup : ∀ xs : Place, fs.node? (xs ++ a.name :: l.rootPlace cwd) ≠ none →
      fs.node? (a.name :: l.rootPlace cwd) ≠ none := by
    intro xs
    induction xs with
    | nil => exact id
    | cons x xs ih =>
      intro hx
      apply ih
      have hsuffix : l.rootPlace cwd <:+ xs ++ a.name :: l.rootPlace cwd :=
        (suffix_cons_self _ _).trans (List.suffix_append _ _)
      simp [h.tree x _ hsuffix hx]
  have hn := hup xs (by simp [hc])
  cases hx : fs.node? (a.name :: l.rootPlace cwd) with
  | none => exact hn hx
  | some x =>
    cases x with
    | directory => exact ha hx
    | file c => exact h.noFile _ (.area a) c hx

def Reset (v : Weather) (l : Layout) (cwd : Place) (a : Area) (fs fs' : FileSystem) :
    Except Failure Unit → Prop
  | .ok () => l.held cwd fs' = (l.held cwd fs).clear a ∧ Emptied l cwd a fs'
  | .error _ => v.Rough ∧
      (l.held cwd fs' = l.held cwd fs ∨ l.held cwd fs' = (l.held cwd fs).clear a)

theorem Emptied.clear (h : Emptied l cwd a fs) : (l.held cwd fs).clear a = l.held cwd fs := by
  funext b k
  rw [Holdings.clear]
  split
  next hb => rw [hb, h.held]
  next => rfl

theorem recreate_ends (hf : Footing l cwd w) (he : Emptied l cwd a w.files) :
    Task.Ends v (fun o w' => Footing l cwd w' ∧
      (∀ q, within (a.name :: l.rootPlace cwd) q = false → w'.files.node? q = w.files.node? q) ∧
      Emptied l cwd a w'.files ∧ l.held cwd w'.files = l.held cwd w.files ∧
      match o with
        | .ok () => True
        | .error _ => v.Rough)
      (Task.attempt (.createDirAll (l.codePath a)) (.file (.recreateArea (l.areaPath a)))) w := by
  apply Task.ends_attempt
  · intro _
    obtain ⟨w₁, hmade, hf₁, -, hb⟩ := hf.createDirAll (.code a)
    simp only [hmade, Except.mapError]
    exact ⟨hf₁, fun q hq => hb.aside.off hq, hb.emptied he, hb.aside.held hf.sound.storable, trivial⟩
  · intro hr e b _ hb
    cases hb
    exact ⟨hf, fun _ _ => rfl, he, rfl, hr⟩

theorem emptied_eraseArea : Emptied l cwd a (fs.eraseTree (a.name :: l.rootPlace cwd)) := by
  intro q c hq
  rw [FileSystem.node?_eraseTree _ _ (by simp), hq]
  simp

theorem Footing.removeArea (hf : Footing l cwd w) (ha : a ≠ .current)
    (hdir : w.files.node? (a.name :: l.rootPlace cwd) = some .directory) :
    ∃ w', w.answer (.removeDirAll (l.areaPath a)) = (.ok (), w') ∧ Footing l cwd w' ∧
      w'.files = w.files.eraseTree (a.name :: l.rootPlace cwd) := by
  have hr := hf.sound.opens.reaches (isName_area a) (hf.sound.toGround.fits_area a)
    (by cases a <;> decide)
  refine ⟨{ w with files := w.files.eraseTree (a.name :: l.rootPlace cwd) }, ?_,
    ⟨hf.place, hf.sound.eraseArea ha⟩, rfl⟩
  rw [World.answer, hf.place, areaPath, hr.removeDirAll hdir]
  rfl

theorem reset_ends (hf : Footing l cwd w) (ha : a ≠ .current) :
    (l.reset a).Ends v (fun o w' => Footing l cwd w' ∧
      (∀ q, within (a.name :: l.rootPlace cwd) q = false → w'.files.node? q = w.files.node? q) ∧
      Reset v l cwd a w.files w'.files o) w := by
  unfold reset
  apply Task.ends_bind
  apply Task.ends_ask (fun _ => rfl)
  simp only [hf.pathExists]
  have harea : Folder l (l.rootPlace cwd) (l.areaPath a) (a.name :: l.rootPlace cwd)
    (a.name :: l.rootPlace cwd) := .area a
  by_cases hx : w.files.pathExists cwd (l.areaPath a) = true
  · have hdir := (hf.sound.pathExists_folder harea).mp hx
    rw [if_pos hx]
    apply Task.ends_bind
    apply Task.ends_attempt
    · intro _
      obtain ⟨w₁, hremove, hf₁, hfiles⟩ := hf.removeArea ha hdir
      simp only [hremove, Except.mapError]
      apply Task.ends_mono (recreate_ends hf₁ (a := a) (hfiles ▸ emptied_eraseArea))
      rintro o w' ⟨h1, h2, h3, h4, h5⟩
      have hheld : l.held cwd w'.files = (l.held cwd w.files).clear a := by
        rw [h4, hfiles, held_eraseArea]
      refine ⟨h1, ?_, ?_⟩
      · intro q hq
        rw [h2 q hq, hfiles, FileSystem.node?_eraseTree _ _ (by simp), hq]
        rfl
      · cases o with
        | ok _ => exact ⟨hheld, h3⟩
        | error e => exact ⟨h5, .inr hheld⟩
    · intro hr e b _ hb
      cases hb
      exact ⟨hf, fun _ _ => rfl, hr, .inl rfl⟩
  · have he := hf.sound.emptied_of_missing (a := a) fun hd =>
      hx ((hf.sound.pathExists_folder harea).mpr hd)
    rw [if_neg hx]
    apply Task.ends_mono (recreate_ends hf he)
    rintro o w' ⟨h1, h2, h3, h4, h5⟩
    refine ⟨h1, h2, ?_⟩
    cases o with
    | ok _ => exact ⟨by rw [h4, he.clear], h3⟩
    | error e => exact ⟨h5, .inl h4⟩

theorem save_ends (hf : Footing l cwd w) (r : FlagRegistry) :
    (r.save l.flagsPath).Ends v (fun o w' => Footing l cwd w' ∧
      (∀ q, within ("meta" :: l.rootPlace cwd) q = false → w'.files.node? q = w.files.node? q) ∧
      l.held cwd w'.files = l.held cwd w.files ∧ match o with
        | .ok () => l.document cwd w'.files = some (Utf8.encode r.toJson.indented)
        | .error e => (v.Rough ∧ e.directory? = some (Path.join l.root "meta")) ∧
          l.document cwd w'.files = l.document cwd w.files) w := by
  have hw : within ("meta" :: l.rootPlace cwd) (l.flagsPlace cwd) = true :=
    within_iff.mpr (suffix_cons_self _ _)
  unfold FlagRegistry.save
  generalize Utf8.encode r.toJson.indented = c
  have hwrite := atomicWrite_ends (v := v) hf .records (slot_flags l cwd) c
  refine Task.ends_mono hwrite ?_
  rintro (e | ⟨⟩) w' ⟨hf', ho⟩
  · exact ⟨hf', fun q hq => ho.2.off hq, ho.2.held hf.sound.storable, ho.1, ho.2.records.document⟩
  · exact ⟨hf', fun q hq => ho.1.off hw hq, Puts.held_of_flags ho.1 hf.sound.storable,
      Puts.document ho.1⟩

def JournalOnly (l : Layout) (cwd : Place) (fs fs' : FileSystem) : Prop :=
  ∀ q, q ≠ l.journalPlace cwd → fs'.node? q = fs.node? q

theorem JournalOnly.trans {fs'' : FileSystem} (h : JournalOnly l cwd fs fs')
    (h' : JournalOnly l cwd fs' fs'') : JournalOnly l cwd fs fs'' :=
  fun q hq => (h' q hq).trans (h q hq)

theorem JournalOnly.held (h : JournalOnly l cwd fs fs') : l.held cwd fs' = l.held cwd fs := by
  funext a k
  exact FileSystem.content?_congr (h _ site_ne_journalPlace)

theorem JournalOnly.document (h : JournalOnly l cwd fs fs') :
    l.document cwd fs' = l.document cwd fs :=
  FileSystem.content?_congr (h _ flagsPlace_ne_journalPlace)

theorem Sound.putJournal (h : Sound l cwd fs) (c : Bytes) :
    Sound l cwd (fs.put (l.journalPlace cwd) (.file c)) ∧
      JournalOnly l cwd fs (fs.put (l.journalPlace cwd) (.file c)) := by
  constructor
  · refine h.put List.suffix_rfl h.opens.directory isName_journal not_fixture_journalPlace
      ?_ fun he => absurd he flagsPlace_ne_journalPlace
    intro a k he
    exact absurd he site_ne_journalPlace
  · intro q hq
    rw [FileSystem.node?_put _ _ _ (by simp [journalPlace]), if_neg hq]

theorem target_journal {t : FileSystem.Target}
    (ht : fs.target cwd l.journalPath = .ok t) :
    t = ⟨l.rootPlace cwd, .name "journal.ndjson", false⟩ := by
  have := ((FileSystem.target_join isName_journal.toIsPart).mp ht).2.2
  rwa [FileSystem.ofName_of_isName isName_journal] at this

theorem Sound.openFile_journal (h : Sound l cwd fs) {change : Bytes → Bytes}
    (ho : fs.openFile change cwd l.journalPath = .ok fs') :
    Sound l cwd fs' ∧ JournalOnly l cwd fs fs' := by
  simp only [FileSystem.openFile] at ho
  split at ho
  · cases ho
  next t ht =>
    have htarget := target_journal ht
    split at ho
    · cases ho
    next p hp =>
      have hplace : p = l.journalPlace cwd := by
        rw [(FileSystem.step_eq_ok hp).2, htarget]
        rfl
      subst hplace
      split at ho
      · cases ho
      · split at ho
        · cases ho
        · cases ho
          exact h.putJournal _
      · split at ho
        · cases ho
        · cases ho
          exact h.putJournal _

theorem Sound.modifyFile_journal (h : Sound l cwd fs) {change : Bytes → Bytes}
    (ho : fs.modifyFile change cwd l.journalPath = .ok fs') :
    Sound l cwd fs' ∧ JournalOnly l cwd fs fs' := by
  simp only [FileSystem.modifyFile] at ho
  split at ho
  · cases ho
  · cases ho
  next p c hp =>
    obtain ⟨-, -, hplace, -, -⟩ := FileSystem.walk_of_find hp
    rw [journalPath, FileSystem.placeOf_join isName_journal] at hplace
    cases ho
    subst hplace
    exact h.putJournal _

theorem Sound.createDirAll_trimmed (h : Sound l cwd fs) :
    fs.createDirAll cwd (Path.trimmed l.root) = (.ok (), fs) := by
  by_cases hne : Path.trimmed l.root = ""
  · rw [hne]
    exact FileSystem.createDirAll_empty
  apply FileSystem.createDirAll_of_isDirectory
  obtain ⟨dots, hn, hdots⟩ := Path.names_trimmed l.root
  have hwalk := h.opens.walks
  rw [hn, FileSystem.walk_append] at hwalk
  split at hwalk
  next e he =>
    have hstart : startOf cwd (Path.trimmed l.root) = startOf cwd l.root := by
      rw [startOf, startOf, Path.isAbsolute_trimmed]
    have hplace : e = placeOf cwd (Path.trimmed l.root) := by
      rw [placeOf, hstart]
      exact FileSystem.walk_eq_ok he
    have hroot : placeOf cwd (Path.trimmed l.root) = l.rootPlace cwd :=
      FileSystem.placeOf_trimmed l.root
    have hfits := FileSystem.Fits.of_join (isName_area .current).toIsPart
      (h.toGround.fits_area .current)
    refine FileSystem.isDirectory_iff.mpr ⟨⟨?_, ?_⟩, ⟨?_, ?_⟩, hne⟩
    · rw [hstart, ← hplace]
      exact he
    · rw [hroot]
      exact h.opens.directory
    · exact Path.hasNul_of_prefix (Path.prefix_trimmed _) hfits.noNul
    · exact Nat.le_trans (Path.size_le_of_prefix (Path.prefix_trimmed _)) hfits.short
  next => cases hwalk

/-- The task touches nothing but the journal, however it ends. -/
def Quiet {α : Type} (v : Weather) (l : Layout) (cwd : Place) (t : SourceDelta.Task α) : Prop :=
  ∀ w, Footing l cwd w →
    t.Ends v (fun _ w' => Footing l cwd w' ∧ JournalOnly l cwd w.files w'.files) w

theorem Quiet.bind {α β : Type} {t : SourceDelta.Task α} {f : α → SourceDelta.Task β}
    (ht : Quiet v l cwd t) (hnext : ∀ x, Quiet v l cwd (f x)) : Quiet v l cwd (t >>= f) := by
  intro w hf
  apply Task.ends_bind
  apply Task.ends_mono (ht w hf)
  rintro (e | x) w₁ ⟨hf₁, hj₁⟩
  · exact ⟨hf₁, hj₁⟩
  · apply Task.ends_mono (hnext x w₁ hf₁)
    rintro o w₂ ⟨hf₂, hj₂⟩
    exact ⟨hf₂, hj₁.trans hj₂⟩

theorem Quiet.pure {α : Type} (x : α) : Quiet v l cwd (Pure.pure x) :=
  fun _ hf => Task.ends_pure ⟨hf, fun _ _ => rfl⟩

theorem Quiet.attempt {β : Type} {r : Request (Except IoError β)} {f : IoError → Failure}
    (h : ∀ w, Footing l cwd w → Footing l cwd (w.answer r).2 ∧
      JournalOnly l cwd w.files (w.answer r).2.files) : Quiet v l cwd (Task.attempt r f) :=
  fun w hf => Task.ends_attempt (fun _ => h w hf) fun _ _ _ _ _ => ⟨hf, fun _ _ => rfl⟩

theorem quiet_modify (change : Bytes → Bytes) (hf : Footing l cwd w) :
    Footing l cwd (w.change (w.files.modifyFile change w.place l.journalPath)).2 ∧
      JournalOnly l cwd w.files
        (w.change (w.files.modifyFile change w.place l.journalPath)).2.files := by
  cases hx : w.files.modifyFile change w.place l.journalPath with
  | error e => exact ⟨hf, fun _ _ => rfl⟩
  | ok fs' =>
    rw [hf.place] at hx
    obtain ⟨hs, hj⟩ := hf.sound.modifyFile_journal hx
    exact ⟨⟨hf.place, hs⟩, hj⟩

theorem quiet_append (e : Journal.Entry) : Quiet v l cwd (Journal.append l.journalPath e) := by
  have hcreate : ∀ w, Footing l cwd w → Footing l cwd
      (w.answer (.createDirAll (Path.trimmed l.root))).2 ∧ JournalOnly l cwd w.files
      (w.answer (.createDirAll (Path.trimmed l.root))).2.files := by
    intro w hf
    have hsame : (w.answer (.createDirAll (Path.trimmed l.root))).2.files = w.files := by
      rw [World.answer, hf.place, hf.sound.createDirAll_trimmed]
    have hplace : (w.answer (.createDirAll (Path.trimmed l.root))).2.place = w.place := rfl
    refine ⟨⟨hplace.trans hf.place, hsame ▸ hf.sound⟩, fun _ _ => by rw [hsame]⟩
  have hopen : ∀ w, Footing l cwd w → Footing l cwd (w.answer (.openAppend l.journalPath)).2 ∧
      JournalOnly l cwd w.files (w.answer (.openAppend l.journalPath)).2.files := by
    intro w hf
    simp only [World.answer]
    cases hx : w.files.openFile id w.place l.journalPath with
    | error e => exact ⟨hf, fun _ _ => rfl⟩
    | ok fs' =>
      rw [hf.place] at hx
      obtain ⟨hs, hj⟩ := hf.sound.openFile_journal hx
      exact ⟨⟨hf.place, hs⟩, hj⟩
  have hparent : Path.parent? l.journalPath = some (Path.trimmed l.root) :=
    Path.parent?_join isName_journal.toIsPart
  have hwrite : ∀ bytes, Quiet v l cwd (Task.attempt (.write l.journalPath bytes)
      (.file (.appendJournal l.journalPath))) :=
    fun _ => .attempt fun _ hf => quiet_modify _ hf
  have hsync : Quiet v l cwd (Task.attempt (.sync l.journalPath)
      (.file (.appendJournal l.journalPath))) :=
    .attempt fun _ hf => quiet_modify _ hf
  unfold Journal.append
  rw [hparent]
  have hask : Quiet v l cwd (Task.ask (.pathExists (Path.trimmed l.root))) :=
    fun w hf => Task.ends_ask (fun _ => rfl) ⟨hf, fun _ _ => rfl⟩
  have hrest := Quiet.bind (.attempt hopen (f := .file (.openJournal l.journalPath))) fun _ =>
    Quiet.bind (hwrite (Utf8.encode e.line)) fun _ =>
      Quiet.bind (hwrite (Utf8.encode "\n")) fun _ => hsync
  refine .bind hask fun x => ?_
  split
  · exact hrest
  · exact .bind (.attempt hcreate) fun _ => hrest

theorem Sound.reaches_journal (h : Sound l cwd fs) (hfit : Fits l.journalPath) :
    fs.Reaches cwd l.journalPath (l.rootPlace cwd) "journal.ndjson" :=
  h.opens.reaches isName_journal hfit (by decide)

theorem below_journalPlace : below (l.rootPlace cwd) (l.journalPlace cwd) = true :=
  FileSystem.below_cons List.suffix_rfl _

theorem Sound.journal_not_directory (h : Sound l cwd fs) :
    fs.node? (l.journalPlace cwd) ≠ some .directory :=
  h.not_directory below_journalPlace not_fixture_journalPlace

theorem Footing.putJournal (hf : Footing l cwd w) (c : Bytes) :
    ∃ w', w.change (.ok (w.files.put (l.journalPlace cwd) (.file c))) = (.ok (), w') ∧
      Footing l cwd w' ∧ l.journal cwd w'.files = some c := by
  refine ⟨_, rfl, ⟨hf.place, (hf.sound.putJournal c).1⟩, ?_⟩
  rw [journal, FileSystem.content?, FileSystem.node?_put _ _ _ (by simp [journalPlace]), if_pos rfl]

theorem Footing.openAppend (hf : Footing l cwd w) (hfit : Fits l.journalPath) :
    ∃ w', w.answer (.openAppend l.journalPath) = (.ok (), w') ∧ Footing l cwd w' ∧
      l.journal cwd w'.files = some ((l.journal cwd w.files).getD []) := by
  have hopen : ∃ c, w.files.openFile id cwd l.journalPath =
      .ok (w.files.put (l.journalPlace cwd) (.file c)) ∧
      c = (l.journal cwd w.files).getD [] := by
    refine ⟨_, (hf.sound.reaches_journal hfit).openFile id hf.sound.journal_not_directory, ?_⟩
    rw [journal, FileSystem.content?, ← journalPlace]
    cases w.files.node? (l.journalPlace cwd) with
    | none => rfl
    | some x => cases x <;> rfl
  obtain ⟨c, hopen, rfl⟩ := hopen
  rw [World.answer, hf.place, hopen]
  exact hf.putJournal _

theorem Footing.modifyJournal (hf : Footing l cwd w) (hfit : Fits l.journalPath)
    (hc : l.journal cwd w.files = some c) (change : Bytes → Bytes) :
    ∃ w', w.change (w.files.modifyFile change w.place l.journalPath) = (.ok (), w') ∧
      Footing l cwd w' ∧ l.journal cwd w'.files = some (change c) := by
  have hmodify :=
    (hf.sound.reaches_journal hfit).modifyFile change (FileSystem.content?_eq_some.mp hc)
  rw [← journalPlace] at hmodify
  rw [hf.place, hmodify]
  exact hf.putJournal _

theorem Footing.writeJournal (hf : Footing l cwd w) (hfit : Fits l.journalPath)
    (hc : l.journal cwd w.files = some c) (bytes : Bytes) :
    ∃ w', w.answer (.write l.journalPath bytes) = (.ok (), w') ∧ Footing l cwd w' ∧
      l.journal cwd w'.files = some (c ++ bytes) :=
  hf.modifyJournal hfit hc (· ++ bytes)

theorem Footing.syncJournal (hf : Footing l cwd w) (hfit : Fits l.journalPath)
    (hc : l.journal cwd w.files = some c) :
    ∃ w', w.answer (.sync l.journalPath) = (.ok (), w') ∧ Footing l cwd w' ∧
      l.journal cwd w'.files = some c :=
  hf.modifyJournal hfit hc id

theorem appendLines_ends (hf : Footing l cwd w) (hv : ¬ v.Rough) (hfit : Fits l.journalPath)
    (e : Journal.Entry) :
    Task.Ends v (fun _ w' => ¬ v.Rough → Fits l.journalPath → l.journal cwd w'.files =
        some ((l.journal cwd w.files).getD [] ++ Utf8.encode (Journal.text [e]))) (do
      Task.attempt (.openAppend l.journalPath) (.file (.openJournal l.journalPath))
      Task.attempt (.write l.journalPath (Utf8.encode e.line))
        (.file (.appendJournal l.journalPath))
      Task.attempt (.write l.journalPath (Utf8.encode "\n"))
        (.file (.appendJournal l.journalPath))
      Task.attempt (.sync l.journalPath) (.file (.appendJournal l.journalPath))) w := by
  have htext : Utf8.encode e.line ++ Utf8.encode "\n" = Utf8.encode (Journal.text [e]) := by
    rw [← Utf8.encode_append]
    simp [Journal.text]
  obtain ⟨w₁, hopen, hf₁, hj₁⟩ := hf.openAppend hfit
  obtain ⟨w₂, hline, hf₂, hj₂⟩ := hf₁.writeJournal hfit hj₁ (Utf8.encode e.line)
  obtain ⟨w₃, hbreak, hf₃, hj₃⟩ := hf₂.writeJournal hfit hj₂ (Utf8.encode "\n")
  obtain ⟨w₄, hsync, -, hj₄⟩ := hf₃.syncJournal hfit hj₃
  apply Task.ends_bind
  apply Task.ends_granted hv hopen
  apply Task.ends_bind
  apply Task.ends_granted hv hline
  apply Task.ends_bind
  apply Task.ends_granted hv hbreak
  apply Task.ends_granted hv hsync
  rw [hj₄, List.append_assoc, htext]
  exact fun _ _ => rfl

theorem append_ends (hf : Footing l cwd w) (e : Journal.Entry) :
    (Journal.append l.journalPath e).Ends v (fun _ w' => ¬ v.Rough → Fits l.journalPath →
      l.journal cwd w'.files =
        some ((l.journal cwd w.files).getD [] ++ Utf8.encode (Journal.text [e]))) w := by
  by_cases hcalm : ¬ v.Rough ∧ Fits l.journalPath
  case neg =>
    exact Task.ends_mono (Task.ends_place _ w) fun _ _ _ hv hfit => absurd ⟨hv, hfit⟩ hcalm
  obtain ⟨hv, hfit⟩ := hcalm
  have hparent : Path.parent? l.journalPath = some (Path.trimmed l.root) :=
    Path.parent?_join isName_journal.toIsPart
  have hcreate : w.answer (.createDirAll (Path.trimmed l.root)) = (.ok (), w) := by
    have hplace := hf.place
    subst hplace
    rw [World.answer, hf.sound.createDirAll_trimmed]
  unfold Journal.append
  rw [hparent]
  apply Task.ends_bind
  apply Task.ends_ask (fun _ => rfl)
  dsimp only
  split
  · exact appendLines_ends hf hv hfit e
  · apply Task.ends_bind
    exact Task.ends_granted hv hcreate (appendLines_ends hf hv hfit e)

/-- What has been added to the journal where nothing was refused. -/
def Noted (v : Weather) (l : Layout) (cwd : Place) (fs : FileSystem) (w' : World)
    (notes : List Journal.Note) : Prop :=
  ¬ v.Rough → Fits l.journalPath → l.journal cwd w'.files =
    some ((l.journal cwd fs).getD [] ++ Utf8.encode (Journal.text (notes.map (·.entry w'.clock))))

theorem Noted.congr {notes : List Journal.Note} (h : Noted v l cwd fs w' notes)
    (hj : l.journal cwd fs = l.journal cwd fs') : Noted v l cwd fs' w' notes := by
  rw [Noted, ← hj]
  exact h

theorem Noted.append {notes notes' : List Journal.Note} (h : Noted v l cwd fs w notes)
    (h' : Noted v l cwd w.files w' notes') (hclock : w'.clock = w.clock) :
    Noted v l cwd fs w' (notes ++ notes') := by
  intro hv hfit
  rw [h' hv hfit, h hv hfit, Option.getD_some, List.append_assoc, ← Utf8.encode_append, hclock,
    List.map_append, Journal.text_append]

theorem journal_of_records
    (h : ∀ q, within ("meta" :: l.rootPlace cwd) q = false → fs'.node? q = fs.node? q) :
    l.journal cwd fs' = l.journal cwd fs :=
  FileSystem.content?_congr (h _ (not_within_of_length (m := "journal.ndjson") (by decide) [] rfl))

end SourceDelta.Layout
