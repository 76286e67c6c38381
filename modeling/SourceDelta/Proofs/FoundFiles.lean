import SourceDelta.FileSystem.Staged
import SourceDelta.Proofs.Endings
import SourceDelta.Proofs.Nodes

/-!
# Files that a path finds

Whatever a path is like, a file that was opened for writing under it is found under
it, and so is what was written, and a file that was renamed to it. A file that was
written whole is read back.
-/

set_option autoImplicit false

namespace SourceDelta

namespace FileSystem

variable {fs fs' : FileSystem} {cwd p : Place} {path old : String} {c : Bytes} {n : Node}
  {change : Bytes → Bytes}

/-- The path leads to a file with that content. -/
def Shows (fs : FileSystem) (cwd : Place) (path : String) (c : Bytes) : Prop :=
  fs.find cwd path = .ok (placeOf cwd path, .file c)

theorem start_of_follow {d : Place} {slash : Bool} {xs : List String} {t : Target}
    (h : fs.follow slash d xs = .ok t) (ht : fs.node? t.directory = some .directory) :
    fs.node? d = some .directory := by
  cases xs with
  | nil =>
    cases h
    exact ht
  | cons x xs =>
    cases xs with
    | nil =>
      cases h
      exact ht
    | cons y ys =>
      rw [follow] at h
      split at h
      next hs => exact (step_eq_ok hs).1
      next => cases h

theorem walk_of_target {t : Target} (ht : fs.target cwd path = .ok t)
    (hs : fs.step t.directory t.last = .ok p) :
    Fits path ∧ path ≠ "" ∧ fs.node? (startOf cwd path) = some .directory ∧
      fs.walk (startOf cwd path) (Path.names path).1 = .ok p ∧ t.slash = (Path.names path).2 := by
  obtain ⟨hfits, hne, hf, hdir⟩ := target_eq_ok.mp ht
  have hstart := start_of_follow hf hdir
  have hwalk := follow_eq_ok hf hs
  obtain ⟨t', ht', hslash, -, -⟩ := follow_of_walk (Path.names path).2 hstart hwalk
  rw [hf] at ht'
  cases ht'
  exact ⟨hfits, hne, hstart, hwalk, hslash⟩

theorem find_iff : fs.find cwd path = .ok (p, n) ↔
    Fits path ∧ path ≠ "" ∧ fs.node? (startOf cwd path) = some .directory ∧
      fs.walk (startOf cwd path) (Path.names path).1 = .ok p ∧ fs.node? p = some n ∧
      (n = .directory ∨ (Path.names path).2 = false) := by
  constructor
  · intro h
    obtain ⟨t, ht, hs, hn⟩ := find_eq_ok h
    obtain ⟨hfits, hne, hstart, hwalk, hslash⟩ := walk_of_target ht hs
    refine ⟨hfits, hne, hstart, hwalk, hn, ?_⟩
    rw [← hslash]
    rw [find, ht] at h
    simp only [hs, hn] at h
    cases n with
    | directory => exact .inl rfl
    | file c =>
      cases hb : t.slash with
      | true =>
        rw [hb] at h
        cases h
      | false => exact .inr rfl
  · rintro ⟨hfits, hne, hstart, hwalk, hn, hslash⟩
    obtain ⟨t, hf, hb, hdir, hs⟩ := follow_of_walk (Path.names path).2 hstart hwalk
    rw [find, target_eq_ok.mpr ⟨hfits, hne, hf, hdir⟩]
    simp only [hs, hn, hb]
    cases n with
    | directory => rfl
    | file c => rw [hslash.resolve_left (by simp)]

theorem shows_of_find (h : fs.find cwd path = .ok (p, .file c)) : fs.Shows cwd path c := by
  rw [Shows, h, (walk_of_find h).2.2.1]

theorem Shows.node? (h : fs.Shows cwd path c) :
    fs.node? (placeOf cwd path) = some (.file c) := (walk_of_find h).2.2.2.1

theorem Shows.pathExists (h : fs.Shows cwd path c) : fs.pathExists cwd path = true := by
  rw [FileSystem.pathExists, h]

theorem Shows.readFile (h : fs.Shows cwd path c) : fs.readFile cwd path = .ok c := by
  rw [FileSystem.readFile, h]

theorem Shows.target (h : fs.Shows cwd path c) : ∃ t, fs.target cwd path = .ok t ∧
    fs.step t.directory t.last = .ok (placeOf cwd path) ∧ t.slash = false := by
  obtain ⟨t, ht, hs, -⟩ := find_eq_ok h
  have hslash := (find_iff.mp h).2.2.2.2.2.resolve_left (by simp)
  exact ⟨t, ht, hs, (walk_of_target ht hs).2.2.2.2.trans hslash⟩

theorem ne_nil_of_not_directory (h : fs.node? p ≠ some .directory) : p ≠ [] := by
  rintro rfl
  exact h rfl

theorem directoriesStay_put (hp : fs.node? p ≠ some .directory) (n : Node) :
    DirectoriesStay fs (fs.put p n) := by
  intro q hq
  rw [node?_put p q n (ne_nil_of_not_directory hp), if_neg]
  · exact hq
  · rintro rfl
    exact hp hq

/-- As long as the directories stay, a lookup goes on to find the file that stands at its end. -/
theorem shows_of_stay {t : Target} (ht : fs.target cwd path = .ok t)
    (hs : fs.step t.directory t.last = .ok p) (hslash : t.slash = false)
    (hstay : DirectoriesStay fs fs') (hn : fs'.node? p = some (.file c)) :
    fs'.Shows cwd path c := by
  obtain ⟨hfits, hne, hstart, hwalk, hnames⟩ := walk_of_target ht hs
  exact shows_of_find (find_iff.mpr
    ⟨hfits, hne, hstay _ hstart, hstay.walk hwalk, hn, .inr (hnames ▸ hslash)⟩)

theorem shows_put {t : Target} (ht : fs.target cwd path = .ok t)
    (hs : fs.step t.directory t.last = .ok p) (hslash : t.slash = false)
    (hp : fs.node? p ≠ some .directory) : (fs.put p (.file c)).Shows cwd path c := by
  refine shows_of_stay ht hs hslash (directoriesStay_put hp _) ?_
  rw [node?_put p p _ (ne_nil_of_not_directory hp), if_pos rfl]

theorem openFile_eq_ok (h : fs.openFile change cwd path = .ok fs') :
    ∃ t, fs.target cwd path = .ok t ∧ fs.step t.directory t.last = .ok (placeOf cwd path) ∧
      t.slash = false ∧ fs.node? (placeOf cwd path) ≠ some .directory ∧
      fs' = fs.put (placeOf cwd path) (.file (match fs.node? (placeOf cwd path) with
        | some (.file c) => change c
        | _ => [])) := by
  rw [openFile] at h
  split at h
  · cases h
  next t ht =>
    split at h
    · cases h
    next q hs =>
      obtain rfl : q = placeOf cwd path := walk_eq_ok (walk_of_target ht hs).2.2.2.1
      split at h
      · cases h
      next content hn =>
        split at h
        · cases h
        next hslash =>
          cases h
          exact ⟨t, ht, hs, by simpa using hslash, by simp [hn], by rw [hn]⟩
      next hn =>
        split at h
        · cases h
        next hslash =>
          cases h
          exact ⟨t, ht, hs, by simpa using hslash, by simp [hn], by rw [hn]⟩

theorem shows_openFile (h : fs.openFile change cwd path = .ok fs') :
    fs'.Shows cwd path (match fs.node? (placeOf cwd path) with
      | some (.file c) => change c
      | _ => []) := by
  obtain ⟨t, ht, hs, hslash, hfile, rfl⟩ := openFile_eq_ok h
  exact shows_put ht hs hslash hfile

theorem Shows.modifyFile_eq (h : fs.Shows cwd path c) (change : Bytes → Bytes) :
    fs.modifyFile change cwd path = .ok (fs.put (placeOf cwd path) (.file (change c))) := by
  rw [FileSystem.modifyFile, h]

theorem Shows.modifyFile (h : fs.Shows cwd path c) (hm : fs.modifyFile change cwd path = .ok fs') :
    fs'.Shows cwd path (change c) := by
  obtain ⟨t, ht, hs, hslash⟩ := h.target
  rw [h.modifyFile_eq] at hm
  cases hm
  exact shows_put ht hs hslash (by simp [h.node?])

theorem renameNode_eq_ok {source target : Place} (hfile : fs.node? source = some (.file c))
    (hne : source ≠ target) (hr : fs.renameNode source target = .ok fs') :
    fs.node? target ≠ some .directory ∧ fs' = (fs.erase source).put target (.file c) := by
  rw [renameNode, hfile] at hr
  simp only [if_neg hne] at hr
  split at hr
  · cases hr
  split at hr
  · cases hr
  cases ht : fs.node? target with
  | none =>
    rw [ht] at hr
    cases hr
    exact ⟨by simp, rfl⟩
  | some x =>
    rw [ht] at hr
    cases x with
    | directory => cases hr
    | file d =>
      cases hr
      exact ⟨by simp, rfl⟩

theorem renameNode_file {source target : Place} (hfile : fs.node? source = some (.file c))
    (hr : fs.renameNode source target = .ok fs') :
    DirectoriesStay fs fs' ∧ fs'.node? target = some (.file c) := by
  have hsource : source ≠ [] := by
    rintro rfl
    cases hfile
  by_cases hsame : source = target
  · rw [renameNode, hfile] at hr
    simp only [if_pos hsame] at hr
    cases hr
    exact ⟨fun _ hq => hq, hsame ▸ hfile⟩
  obtain ⟨htarget, rfl⟩ := renameNode_eq_ok hfile hsame hr
  have hne := ne_nil_of_not_directory htarget
  refine ⟨fun q hq => ?_, by rw [node?_put _ _ _ hne, if_pos rfl]⟩
  rw [node?_put _ _ _ hne, node?_erase _ _ hsource, if_neg, if_neg]
  · exact hq
  · rintro rfl
    rw [hfile] at hq
    cases hq
  · rintro rfl
    exact htarget hq

theorem Shows.rename_eq_ok (h : fs.Shows cwd old c) (hr : fs.rename cwd old path = .ok fs') :
    ∃ t, fs.target cwd path = .ok t ∧ fs.step t.directory t.last = .ok (placeOf cwd path) ∧
      t.slash = false ∧ fs.renameNode (placeOf cwd old) (placeOf cwd path) = .ok fs' := by
  obtain ⟨s, hs, hsource, hnode⟩ := find_eq_ok h
  rw [FileSystem.rename, hs] at hr
  simp only at hr
  split at hr
  · cases hr
  next t ht =>
    split at hr
    · cases hr
    split at hr
    · cases hr
    rw [hsource] at hr
    simp only [hnode] at hr
    split at hr
    · cases hr
    next target htarget =>
      split at hr
      · cases hr
      next hslash =>
        obtain rfl : target = placeOf cwd path := walk_eq_ok (walk_of_target ht htarget).2.2.2.1
        have hflat : t.slash = false := by simp_all
        exact ⟨t, ht, htarget, hflat, hr⟩

theorem Shows.rename (h : fs.Shows cwd old c) (hr : fs.rename cwd old path = .ok fs') :
    fs'.Shows cwd path c := by
  obtain ⟨t, ht, htarget, hslash, hnode⟩ := h.rename_eq_ok hr
  obtain ⟨hstay, hn⟩ := renameNode_file h.node? hnode
  exact shows_of_stay ht htarget hslash hstay hn

end FileSystem

theorem World.change_ok {w w' : World} {o : Except IoError FileSystem} :
    w.change o = (.ok (), w') ↔ ∃ fs, o = .ok fs ∧ w' = { w with files := fs } := by
  cases o with
  | ok fs => simp [World.change, eq_comm]
  | error e => simp [World.change]

namespace Task

variable {α β : Type} {w w' : World} {failure : IoError → Failure} {b : β}

theorem bind_ok {t : Task α} {f : α → Task β} : (t >>= f).run.run w = (.ok b, w') ↔
    ∃ a w₁, t.run.run w = (.ok a, w₁) ∧ (f a).run.run w₁ = (.ok b, w') := by
  rw [run_bind]
  constructor
  · intro h
    split at h
    next a w₁ ht => exact ⟨a, w₁, ht, h⟩
    next => cases h
  · rintro ⟨a, w₁, ht, hf⟩
    rw [ht]
    exact hf

theorem ask_ok {r : Request β} :
    (ask r).run.run w = (.ok b, w') ↔ w.answer r = (b, w') := by
  rw [run_ask]
  simp [Prod.ext_iff]

theorem attempt_ok {r : Request (Except IoError β)} :
    (attempt r failure).run.run w = (.ok b, w') ↔ w.answer r = (.ok b, w') := by
  rw [run_attempt]
  rcases w.answer r with ⟨_ | a, w₁⟩ <;> simp [Except.mapError]

theorem place_of_run {t : Task α} {o : Except Failure α} (h : t.run.run w = (o, w')) :
    w'.place = w.place := by
  have hrough : Weather.any.Rough := ⟨.busy, trivial⟩
  have hplace := Script.run_of_ends (t.run.ends_place w) hrough
  rwa [h] at hplace

end Task

variable {w w' : World} {path : String} {content : Bytes}

theorem writeOut_shows {c : Bytes} (h : (Staged.writeOut path content).run.run w = (.ok (), w'))
    (hshows : w.files.Shows w.place path c) : w'.files.Shows w.place path (c ++ content) := by
  rw [Staged.writeOut] at h
  obtain ⟨written, w₁, hwrite, h⟩ := Task.bind_ok.mp h
  cases written with
  | error e =>
    obtain ⟨_, _, -, h⟩ := Task.bind_ok.mp h
    cases h
  | ok =>
    obtain ⟨fs₁, hfs₁, rfl⟩ := World.change_ok.mp (Task.ask_ok.mp hwrite)
    obtain ⟨synced, w₂, hsync, h⟩ := Task.bind_ok.mp h
    cases synced with
    | error e =>
      obtain ⟨_, _, -, h⟩ := Task.bind_ok.mp h
      cases h
    | ok =>
      obtain ⟨fs₂, hfs₂, rfl⟩ := World.change_ok.mp (Task.ask_ok.mp hsync)
      cases h
      exact (hshows.modifyFile hfs₁).modifyFile hfs₂

theorem stage_shows {s : Staged} (h : (Staged.stage path content).run.run w = (.ok s, w')) :
    s.target = path ∧ w'.files.Shows w'.place s.temporary content := by
  have hplace := Task.place_of_run h
  rw [Staged.stage] at h
  obtain ⟨_, w₁, hparent, h⟩ := Task.bind_ok.mp h
  obtain ⟨temporary, w₂, hname, h⟩ := Task.bind_ok.mp h
  obtain ⟨_, w₃, hcreate, h⟩ := Task.bind_ok.mp h
  obtain ⟨fs, hfs, rfl⟩ := World.change_ok.mp (Task.attempt_ok.mp hcreate)
  obtain ⟨_, w₄, hwrite, h⟩ := Task.bind_ok.mp h
  cases h
  have hempty : fs.Shows w₂.place temporary [] := by
    have hopened := FileSystem.shows_openFile hfs
    split at hopened <;> exact hopened
  have hshows := writeOut_shows hwrite hempty
  refine ⟨rfl, ?_⟩
  rw [Task.place_of_run hwrite]
  exact hshows

theorem atomicWrite_shows (h : (atomicWrite path content).run.run w = (.ok (), w')) :
    w'.files.Shows w'.place path content := by
  obtain ⟨s, w₁, hstage, hcommit⟩ := Task.bind_ok.mp h
  obtain ⟨rfl, hshows⟩ := stage_shows hstage
  rw [Staged.commit] at hcommit
  obtain ⟨renamed, w₂, hrename, hcommit⟩ := Task.bind_ok.mp hcommit
  cases renamed with
  | error e =>
    obtain ⟨_, _, -, hcommit⟩ := Task.bind_ok.mp hcommit
    cases hcommit
  | ok =>
    obtain ⟨fs, hfs, rfl⟩ := World.change_ok.mp (Task.ask_ok.mp hrename)
    cases hcommit
    exact hshows.rename hfs

end SourceDelta
