import SourceDelta.Proofs.WholeWrites

/-!
# Moves to another device

A rename that crosses devices is refused; the content is then written whole at the new
path, and after that the file at the old one is removed. If nothing fails, that leaves
the files as a rename on one device leaves them. Whatever fails, the content stands at
one of the two paths.
-/

set_option autoImplicit false

namespace SourceDelta

namespace FileSystem

variable {fs fs' : FileSystem} {cwd p q d : Place} {path old new parent n : String} {c : Bytes}
  {t : Target}

theorem Shows.beside (h : fs.Shows cwd path c) (hb : Beside q fs fs') (hq : placeOf cwd path ≠ q) :
    fs'.Shows cwd path c :=
  h.stay hb.directoriesStay (hb.others _ hq)

/-- Whatever stands below the root stands in a directory. -/
def Rooted (fs : FileSystem) : Prop :=
  ∀ n d, fs.node? (n :: d) ≠ none → fs.node? d = some .directory

theorem rooted_of_nodes (h : ∀ x ∈ fs.nodes, fs.node? x.1.tail = some .directory) : fs.Rooted := by
  intro n d hn
  rw [node?_of_ne_nil (by simp)] at hn
  obtain ⟨x, hx⟩ := Option.ne_none_iff_exists'.mp hn
  obtain ⟨before, after, hnodes, -⟩ := List.lookup_eq_some_iff.mp hx
  exact h (n :: d, x) (by simp [hnodes])

theorem lead_of_follow {slash : Bool} {xs : List String} (h : fs.follow slash d xs = .ok t) :
    lead d xs = onward t.directory t.last := by
  induction xs generalizing d with
  | nil =>
    cases h
    rfl
  | cons x xs ih =>
    cases xs with
    | nil =>
      cases h
      rfl
    | cons y ys =>
      rw [follow] at h
      split at h
      next e he =>
        rw [lead, List.foldl_cons, ← lead, ← (step_eq_ok he).2]
        exact ih h
      next => cases h

namespace Rooted

variable (h : fs.Rooted)
include h

theorem tail (hp : fs.node? p = some .directory) : fs.node? p.tail = some .directory := by
  cases p with
  | nil => rfl
  | cons n d => exact h n d (by simp [hp])

theorem of_suffix (hs : p <:+ q) (hq : fs.node? q = some .directory) :
    fs.node? p = some .directory := by
  induction q with
  | nil =>
    rw [List.suffix_nil.mp hs]
    rfl
  | cons n d ih =>
    rcases List.suffix_cons_iff.mp hs with rfl | hs
    · exact hq
    · exact ih hs (h.tail hq)

theorem not_within (hp : fs.node? p ≠ some .directory) (hne : p ≠ n :: d)
    (hd : fs.node? d = some .directory) : within p (n :: d) = false := by
  rw [within, Bool.eq_false_iff, ne_eq, List.isSuffixOf_iff_suffix]
  intro hs
  exact hp (h.of_suffix ((List.suffix_cons_iff.mp hs).resolve_left hne) hd)

theorem last_name (ht : fs.target cwd path = .ok t)
    (hfile : fs.node? (placeOf cwd path) ≠ some .directory) :
    ∃ n, t.last = .name n ∧ placeOf cwd path = n :: t.directory := by
  obtain ⟨-, -, hf, hdir⟩ := target_eq_ok.mp ht
  have hplace : placeOf cwd path = onward t.directory t.last := lead_of_follow hf
  rw [hplace] at hfile ⊢
  cases hlast : t.last with
  | here =>
    rw [hlast] at hfile
    exact absurd hdir hfile
  | up =>
    rw [hlast] at hfile
    exact absurd (h.tail hdir) hfile
  | name n => exact ⟨n, rfl, rfl⟩

theorem reaches (hstay : DirectoriesStay fs' fs) (ht : fs'.target cwd path = .ok t)
    (hs : fs'.step t.directory t.last = .ok p) (hslash : t.slash = false)
    (hfile : fs.node? (placeOf cwd path) ≠ some .directory) :
    ∃ n, placeOf cwd path = n :: t.directory ∧ fs.Reaches cwd path t.directory n := by
  have ht' := hstay.target ht
  obtain ⟨n, hlast, hplace⟩ := h.last_name ht' hfile
  obtain ⟨d, last, slash⟩ := t
  subst hlast hslash
  exact ⟨n, hplace, ht', short_of_step hs⟩

end Rooted

theorem step_ne_crossDevice (d : Place) (last : Last) : fs.step d last ≠ .error .crossDevice := by
  simp only [step]
  split
  · simp
  · simp
  · cases last with
    | here => simp
    | up => simp
    | name s =>
      simp only
      split <;> simp

theorem follow_ne_crossDevice (slash : Bool) (d : Place) (xs : List String) :
    fs.follow slash d xs ≠ .error .crossDevice := by
  induction xs generalizing d with
  | nil => simp [follow]
  | cons x xs ih =>
    cases xs with
    | nil => simp [follow]
    | cons y ys =>
      rw [follow]
      split
      · exact ih _
      next e he =>
        intro hcross
        cases hcross
        exact step_ne_crossDevice _ _ he

theorem target_ne_crossDevice : fs.target cwd path ≠ .error .crossDevice := by
  intro h
  simp only [target] at h
  split at h
  · cases h
  split at h
  · cases h
  split at h
  · cases h
  split at h
  next e he =>
    cases h
    exact follow_ne_crossDevice _ _ _ he
  next =>
    split at h <;> cases h

theorem renameNode_ne_crossDevice : fs.renameNode p q ≠ .error .crossDevice := by
  rw [renameNode]
  split
  · simp
  split
  · simp
  split
  · simp
  split
  · simp
  split
  · simp
  · simp
  · split <;> simp
  · simp
  · simp

theorem rename_crossDevice (h : fs.rename cwd old new = .error .crossDevice) :
    ∃ s t, fs.target cwd old = .ok s ∧ fs.target cwd new = .ok t ∧
      fs.device s.directory ≠ fs.device t.directory := by
  rw [rename] at h
  split at h
  next e he =>
    cases h
    exact absurd he target_ne_crossDevice
  next s hs =>
    split at h
    next e he =>
      cases h
      exact absurd he target_ne_crossDevice
    next t ht =>
      split at h
      next hdevice => exact ⟨s, t, hs, ht, hdevice⟩
      split at h
      · cases h
      split at h
      next e he =>
        cases h
        exact absurd he (step_ne_crossDevice _ _)
      split at h
      · cases h
      split at h
      next e he =>
        cases h
        exact absurd he (step_ne_crossDevice _ _)
      split at h
      · cases h
      · exact absurd h renameNode_ne_crossDevice

theorem walk_of_follow {slash : Bool} {xs ys : List String}
    (h : fs.follow slash d (xs ++ ys) = .ok t) (hne : ys ≠ [])
    (hdir : fs.node? t.directory = some .directory) :
    ∃ e, fs.walk d xs = .ok e ∧ fs.node? e = some .directory := by
  induction xs generalizing d with
  | nil => exact ⟨d, rfl, start_of_follow h hdir⟩
  | cons x xs ih =>
    obtain ⟨y, rest, hrest⟩ := List.exists_cons_of_ne_nil (List.append_ne_nil_of_right_ne_nil xs hne)
    rw [List.cons_append, hrest, follow] at h
    split at h
    next e he =>
      rw [← hrest] at h
      simp only [walk, he]
      exact ih h
    next => cases h

theorem pathExists_parent (ht : fs.target cwd path = .ok t) (hextends : Path.Extends path parent n)
    (hne : parent ≠ "") : fs.pathExists cwd parent = true := by
  obtain ⟨hfits, -, hf, hdir⟩ := target_eq_ok.mp ht
  obtain ⟨inner, dots, hnames, -, -⟩ := hextends.passes
  have hstart : startOf cwd path = startOf cwd parent := by
    rw [startOf, startOf, hextends.absolute]
  rw [hnames, List.append_assoc, hstart] at hf
  obtain ⟨e, hwalk, he⟩ := walk_of_follow hf (by simp) hdir
  have hplace : e = placeOf cwd parent := walk_eq_ok hwalk
  subst hplace
  have hfits' : Fits parent := ⟨Path.hasNul_of_prefix hextends.chars hfits.noNul,
    Nat.le_trans (Path.size_le_of_prefix hextends.chars) hfits.short⟩
  obtain ⟨p, hp⟩ := isDirectory_iff_find.mp (isDirectory_iff.mpr ⟨⟨hwalk, he⟩, hfits', hne⟩)
  rw [FileSystem.pathExists, hp]

/-- The same files, with no other device among them. -/
def onOneDevice (fs : FileSystem) : FileSystem := { fs with mounts := [] }

@[simp] theorem node?_onOneDevice (p : Place) : fs.onOneDevice.node? p = fs.node? p := by
  cases p <;> rfl

@[simp] theorem device_onOneDevice (p : Place) : fs.onOneDevice.device p = [] := rfl

theorem directoriesStay_onOneDevice : DirectoriesStay fs fs.onOneDevice :=
  fun p hp => (node?_onOneDevice p).trans hp

theorem onOneDevice_directoriesStay : DirectoriesStay fs.onOneDevice fs :=
  fun p hp => (node?_onOneDevice p).symm.trans hp

theorem Rooted.rename_onOneDevice {e : Place} {m : String} (h : fs.Rooted)
    (hold : fs.Reaches cwd old d n) (hnew : fs.Reaches cwd new e m)
    (hf : fs.node? (n :: d) = some (.file c)) (hfile : fs.node? (m :: e) ≠ some .directory)
    (hne : n :: d ≠ m :: e) : fs.onOneDevice.rename cwd old new =
      .ok ((fs.onOneDevice.erase (n :: d)).put (m :: e) (.file c)) := by
  rw [(directoriesStay_onOneDevice.reaches hold).rename_of_not_within
    (directoriesStay_onOneDevice.reaches hnew) ((node?_onOneDevice _).trans hf)
    (by rwa [node?_onOneDevice]) (h.not_within (by simp [hf]) hne hnew.directory)
    (h.not_within hfile hne.symm hold.directory)]
  simp

end FileSystem

open FileSystem (DirectoriesStay Rooted placeOf)
open Staged (temporaryFor)

variable {w : World} {may : Faults} {source target t : String} {c : Bytes} {p : Place}
  {fs fs' : FileSystem}

/-- The content for the target is not staged at that place. -/
def Unstaged (w : World) (target : String) (p : Place) : Prop :=
  ∀ t, temporaryFor w target = some t → p ≠ placeOf w.place t

/-- The two places are apart, the file to be moved is not in the way of what is staged, and the
directory around the new path is there. -/
structure Ready (w : World) (source target : String) : Prop where
  apart : placeOf w.place target ≠ placeOf w.place source
  unstaged : Unstaged w target (placeOf w.place source)
  parent : ∀ d, Path.parent? target = some d → d ≠ "" → w.files.pathExists w.place d = true

theorem ready_of_crossDevice (hrooted : w.files.Rooted) (hsource : w.files.Shows w.place source c)
    (hfile : w.files.node? (placeOf w.place target) ≠ some .directory)
    (h : w.files.rename w.place source target = .error .crossDevice) : Ready w source target := by
  obtain ⟨s, t, hs, ht, hdevice⟩ := FileSystem.rename_crossDevice h
  obtain ⟨m, -, hm⟩ := hrooted.last_name hs hsource.not_directory
  obtain ⟨n, -, hn⟩ := hrooted.last_name ht hfile
  have hne : ∀ k, k :: t.directory ≠ placeOf w.place source := by
    intro k hk
    rw [hm] at hk
    exact hdevice (congrArg w.files.device (List.cons.inj hk).2).symm
  refine ⟨hn ▸ hne n, fun tmp htmp hsame => ?_, fun d hd hempty => ?_⟩
  · obtain ⟨d, k, l, hplace, hstaged, -⟩ := Staged.placeOf_temporary w.place htmp
    rw [hn] at hplace
    rw [hstaged, ← (List.cons.inj hplace).2] at hsame
    exact hne l hsame.symm
  · obtain ⟨k, hextends⟩ := Path.extends_of_parent? hd hempty
    exact FileSystem.pathExists_parent ht hextends hempty

/-- The content stands at the target alone. Of what else there was, nothing is gone but a file that
stood where the content was staged. -/
structure Relocated (w : World) (source target : String) (c : Bytes) (fs' : FileSystem) : Prop where
  shows : fs'.Shows w.place target c
  gone : fs'.node? (placeOf w.place source) = none
  spent : ∀ t, temporaryFor w target = some t → fs'.node? (placeOf w.place t) = none
  others : ∀ p, p ≠ placeOf w.place target → p ≠ placeOf w.place source → Unstaged w target p →
    fs'.node? p = w.files.node? p

/-- The content is read under one of the paths, and at the target stands what stood there or all of
the content. -/
structure Retained (w : World) (source target : String) (c : Bytes) (fs' : FileSystem) : Prop where
  readable : fs'.Shows w.place source c ∨ fs'.Shows w.place target c
  whole : fs'.Shows w.place target c ∨
    fs'.node? (placeOf w.place target) = w.files.node? (placeOf w.place target) ∧
      ∀ x, w.files.Shows w.place target x → fs'.Shows w.place target x

theorem Relocated.directoriesStay (h : Relocated w source target c fs') :
    DirectoriesStay fs' w.files := by
  intro q hq
  rw [← h.others q]
  · exact hq
  · rintro rfl
    exact h.shows.not_directory hq
  · rintro rfl
    rw [h.gone] at hq
    cases hq
  · rintro t ht rfl
    rw [h.spent t ht] at hq
    cases hq

/-- The move leaves the files as the rename on one device does, everywhere if no file stood where
the content was staged. -/
theorem Relocated.renamed (h : Relocated w source target c fs') (hready : Ready w source target)
    (hrooted : w.files.Rooted) (hsource : w.files.Shows w.place source c)
    (hfile : w.files.node? (placeOf w.place target) ≠ some .directory) :
    ∃ fs, w.files.onOneDevice.rename w.place source target = .ok fs ∧
      ∀ p, Unstaged w target p ∨ w.files.node? p = none → fs'.node? p = fs.node? p := by
  have hothers : ∀ p, p ≠ placeOf w.place target → p ≠ placeOf w.place source →
      Unstaged w target p ∨ w.files.node? p = none → fs'.node? p = w.files.node? p := by
    intro p htarget hsource' hp
    by_cases hunstaged : Unstaged w target p
    · exact h.others p htarget hsource' hunstaged
    · rw [hp.resolve_left hunstaged]
      simp only [Unstaged, not_forall, ne_eq, not_not] at hunstaged
      obtain ⟨t, ht, rfl⟩ := hunstaged
      exact h.spent t ht
  obtain ⟨s, hs, hstep, hslash⟩ := hsource.target
  obtain ⟨n, hplace, hr⟩ := hrooted.reaches (fun _ hq => hq) hs hstep hslash hsource.not_directory
  obtain ⟨t, ht, hstep', hslash'⟩ := h.shows.target
  obtain ⟨m, hplace', hr'⟩ := hrooted.reaches h.directoriesStay ht hstep' hslash' hfile
  have hrename := hrooted.rename_onOneDevice hr hr' (hplace ▸ hsource.node?) (hplace' ▸ hfile)
    (hplace ▸ hplace' ▸ hready.apart.symm)
  rw [← hplace, ← hplace'] at hrename
  refine ⟨_, hrename, fun p hp => ?_⟩
  rw [FileSystem.node?_put _ _ _ (FileSystem.ne_nil_of_not_directory hfile),
    FileSystem.node?_erase _ _ (FileSystem.ne_nil_of_not_directory hsource.not_directory),
    FileSystem.node?_onOneDevice]
  split
  next hq => rw [hq, h.shows.node?]
  next hq =>
    split
    next hq => rw [hq, h.gone]
    next hq' => exact hothers p hq hq' hp

namespace Ready

variable (hready : Ready w source target)
include hready

theorem prepared (h : Staged.Prepared w.place target w.files fs) : fs = w.files := by
  rcases h with h | ⟨d, hd, hne, hmissing, -⟩
  · exact h
  · rw [hready.parent d hd hne] at hmissing
    cases hmissing

variable (hsource : w.files.Shows w.place source c)
include hsource

theorem retained_of_withdrawn (h : Staged.Withdrawn may w target w.files fs') :
    Retained w source target c fs' := by
  rcases h with rfl | ⟨t, ht, hdropped⟩
  · exact ⟨.inl hsource, .inr ⟨rfl, fun _ hx => hx⟩⟩
  · have hne := Staged.placeOf_ne_temporary w.place ht
    exact ⟨.inl (hsource.beside hdropped.beside (hready.unstaged t ht)),
      .inr ⟨hdropped.beside.others _ hne, fun x hx => hx.beside hdropped.beside hne⟩⟩

theorem relocated_of_replaced (ht : temporaryFor w target = some t)
    (h : Replaced w.place target t c w.files fs') : fs'.Shows w.place source c ∧
      Relocated w source target c (fs'.erase (placeOf w.place source)) := by
  have hne := hready.unstaged t ht
  have hsource' : fs'.Shows w.place source c :=
    hsource.stay h.directoriesStay (h.others _ hready.apart.symm hne)
  have herase : ∀ p, (fs'.erase (placeOf w.place source)).node? p =
      if p = placeOf w.place source then none else fs'.node? p := fun p =>
    FileSystem.node?_erase _ p (FileSystem.ne_nil_of_not_directory hsource'.not_directory)
  refine ⟨hsource', h.shows.beside (FileSystem.beside_erase hsource'.not_directory) hready.apart,
    hsource'.node?_erase, fun t' ht' => ?_, fun p htarget hp hunstaged => ?_⟩
  · rw [ht] at ht'
    cases ht'
    rw [herase, if_neg hne.symm, h.spent]
  · rw [herase, if_neg hp, h.others p htarget (hunstaged t ht)]

end Ready

theorem moveAcross_withstands (hready : Ready w source target)
    (hsource : w.files.Shows w.place source c) (refused : IoError) :
    (moveAcross source target refused).Withstands may (fun o w' => match o with
      | .ok () => Relocated w source target c w'.files
      | .error _ => Retained w source target c w'.files) w := by
  rw [moveAcross]
  apply Task.withstands_bind
  refine Task.withstands_attempt fun content w₁ hcontent => ?_
  obtain ⟨hread | ⟨e, rfl⟩, rfl⟩ := Request.replies_readFile hcontent
  · rw [hsource.readFile] at hread
    subst hread
    apply Task.withstands_bind
    refine Task.withstands_mono atomicWrite_withstands ?_
    rintro (e | ⟨⟩) w₂ ⟨hplace, fs, hprepared, hwritten⟩
    · rw [hready.prepared hprepared] at hwritten
      exact hready.retained_of_withdrawn hsource hwritten
    · obtain ⟨t, ht, hreplaced⟩ := hwritten
      rw [hready.prepared hprepared] at hreplaced
      obtain ⟨hsource', hrelocated⟩ := hready.relocated_of_replaced hsource ht hreplaced
      refine Task.withstands_attempt fun done w₃ hdone => ?_
      rcases Request.replies_removeFile hdone with ⟨fs₃, hfs₃, rfl, rfl⟩ | ⟨⟨e, rfl⟩, rfl⟩
      · rw [hplace, hsource'.removeFile] at hfs₃
        cases hfs₃
        exact hrelocated
      · exact ⟨.inl hsource', .inl hreplaced.shows⟩
  · exact ⟨.inl hsource, .inr ⟨rfl, fun _ hx => hx⟩⟩

/-- Where a file could be renamed on one device and its content can be staged, the content can be
written. -/
theorem Ready.possible (hready : Ready w source target) (hrooted : w.files.Rooted)
    (hsource : w.files.Shows w.place source c)
    (hrename : w.files.onOneDevice.rename w.place source target = .ok fs)
    (ht : temporaryFor w target = some t)
    (hcreate : w.files.openFile (fun _ => []) w.place t = .ok fs') :
    ∃ fs, Staged.Possible w target t c fs := by
  have hone : w.files.onOneDevice.Shows w.place source c :=
    hsource.stay FileSystem.directoriesStay_onOneDevice (FileSystem.node?_onOneDevice _)
  have hfile := (hone.rename_apart hready.apart hrename).1
  rw [FileSystem.node?_onOneDevice] at hfile
  obtain ⟨t₁, ht₁, hstep₁, hslash₁, -⟩ := hone.rename_eq_ok hrename
  obtain ⟨n, hplace₁, hr₁⟩ :=
    hrooted.reaches FileSystem.onOneDevice_directoriesStay ht₁ hstep₁ hslash₁ hfile
  obtain ⟨t₂, ht₂, hstep₂, hslash₂, hfile₂, -⟩ := FileSystem.openFile_eq_ok hcreate
  obtain ⟨m, hplace₂, hr₂⟩ := hrooted.reaches (fun _ hq => hq) ht₂ hstep₂ hslash₂ hfile₂
  -- the content is renamed within the directory of the target, so within one device
  have hsame : t₂.directory = t₁.directory := by
    obtain ⟨d, k, l, hk, hl, -⟩ := Staged.placeOf_temporary w.place ht
    rw [(List.cons.inj (hplace₁.symm.trans hk)).2, (List.cons.inj (hplace₂.symm.trans hl)).2]
  have hstay := FileSystem.directoriesStay_put hfile₂ (.file c)
  have hne := Staged.placeOf_ne_temporary w.place ht
  have hput : ∀ q, (w.files.put (placeOf w.place t) (.file c)).node? q =
      if q = placeOf w.place t then some (.file c) else w.files.node? q := fun q =>
    FileSystem.node?_put _ q _ (FileSystem.ne_nil_of_not_directory hfile₂)
  have hreplace := (hstay.reaches hr₂).rename (hstay.reaches hr₁)
    (by rw [← hplace₂, hput, if_pos rfl]) (by rwa [← hplace₁, hput, if_neg hne])
    (congrArg List.length hsame) (hplace₂ ▸ hplace₁ ▸ hne.symm)
  rw [hsame, if_neg (not_not.mpr rfl)] at hreplace
  exact ⟨_, hready.parent, ht, ⟨fs', hcreate⟩, hreplace⟩

theorem Ready.run (hready : Ready w source target) (hsource : w.files.Shows w.place source c)
    (hpossible : Staged.Possible w target t c fs) (refused : IoError) :
    ((moveAcross source target refused).run.run w).1 = .ok () := by
  obtain ⟨w₁, hwritten⟩ : ∃ w₁, (atomicWrite target c).run.run w = (.ok (), w₁) :=
    ⟨_, hpossible.run⟩
  have hreplaced := Task.run_of_withstands
    (atomicWrite_withstands : (atomicWrite target c).Withstands Faults.any _ w)
  rw [hwritten] at hreplaced
  obtain ⟨hplace, fs₁, hprepared, t', ht', hreplaced⟩ := hreplaced
  dsimp only at hplace hreplaced
  rw [hready.prepared hprepared] at hreplaced
  have hsource' := (hready.relocated_of_replaced hsource ht' hreplaced).1
  rw [← hplace] at hsource'
  have hread : w.answer (.readFile source) = (.ok c, w) := by
    rw [World.answer, hsource.readFile]
  have hremove : w₁.answer (.removeFile source) =
      (.ok (), { w₁ with files := w₁.files.erase (placeOf w₁.place source) }) := by
    rw [World.answer, hsource'.removeFile]
    rfl
  have hmoved : (moveAcross source target refused).run.run w =
      (.ok (), { w₁ with files := w₁.files.erase (placeOf w₁.place source) }) := by
    rw [moveAcross]
    refine Task.bind_ok.mpr ⟨c, w, Task.attempt_ok.mpr hread, ?_⟩
    exact Task.bind_ok.mpr ⟨(), w₁, hwritten, Task.attempt_ok.mpr hremove⟩
  rw [hmoved]

/-- Moving across devices agrees with renaming on one, and never loses the content, whichever
requests fail. If none does, it succeeds where the rename on one device does and the content can be
staged. If the system refuses a rename for crossing devices where it does not, then the two places
have to be apart and the directory of the new one has to be there. -/
theorem moved_across_devices (hrooted : w.files.Rooted) (hsource : w.files.Shows w.place source c)
    (hfile : w.files.node? (placeOf w.place target) ≠ some .directory)
    (hentered : w.files.rename w.place source target = .error .crossDevice ∨ Ready w source target)
    (refused : IoError) :
    (moveAcross source target refused).Withstands Faults.any (fun o w' => match o with
      | .ok () => Relocated w source target c w'.files ∧
        ∃ fs, w.files.onOneDevice.rename w.place source target = .ok fs ∧
          ∀ p, Unstaged w target p ∨ w.files.node? p = none → w'.files.node? p = fs.node? p
      | .error _ => Retained w source target c w'.files) w ∧
    ∀ t fs fs', w.files.onOneDevice.rename w.place source target = .ok fs →
      temporaryFor w target = some t → w.files.openFile (fun _ => []) w.place t = .ok fs' →
      ((moveAcross source target refused).run.run w).1 = .ok () := by
  have hready : Ready w source target :=
    hentered.elim (ready_of_crossDevice hrooted hsource hfile) id
  refine ⟨Task.withstands_mono (moveAcross_withstands hready hsource refused) ?_, ?_⟩
  · rintro (e | ⟨⟩) w' hmoved
    · exact hmoved
    · exact ⟨hmoved, hmoved.renamed hready hrooted hsource hfile⟩
  · intro t fs fs' hrename ht hcreate
    obtain ⟨fs₁, hpossible⟩ := hready.possible hrooted hsource hrename ht hcreate
    exact hready.run hsource hpossible refused

def twoDevices : World :=
  ⟨⟨[(["f"], .file [111]), (["g", "d"], .file [112]), (["d"], .directory)], [["d"]]⟩, "/", [], 7, 0,
    default, none, []⟩

theorem moved_across_two_devices :
    twoDevices.files.rename twoDevices.place "f" "d/g" = .error .crossDevice ∧
    (∃ w', (moveAcross "f" "d/g" .crossDevice).run.run twoDevices = (.ok (), w') ∧
      Relocated twoDevices "f" "d/g" [111] w'.files) ∧
    ∃ e w', (moveAcross "f" "d/g" .crossDevice).run.runRefusing
        (fun n => if n = 7 then some .busy else none) 0 twoDevices = (.error e, w') ∧
      Retained twoDevices "f" "d/g" [111] w'.files := by
  have hrooted : twoDevices.files.Rooted := FileSystem.rooted_of_nodes (by decide +kernel)
  have hfound : twoDevices.files.find twoDevices.place "f" = .ok (["f"], .file [111]) := by
    decide +kernel
  have hsource : twoDevices.files.Shows twoDevices.place "f" [111] := FileSystem.shows_of_find hfound
  have hfile : twoDevices.files.node? (placeOf twoDevices.place "d/g") ≠ some .directory := by
    decide +kernel
  have hcross : twoDevices.files.rename twoDevices.place "f" "d/g" = .error .crossDevice := by
    decide +kernel
  have hrename : twoDevices.files.onOneDevice.rename twoDevices.place "f" "d/g" =
      .ok ⟨[(["g", "d"], .file [111]), (["d"], .directory)], []⟩ := by decide +kernel
  have hcreate : twoDevices.files.openFile (fun _ => []) twoDevices.place "d/.g.7.0.tmp" =
      .ok (twoDevices.files.put [".g.7.0.tmp", "d"] (.file [])) := by decide +kernel
  obtain ⟨hmoved, hsucceeds⟩ :=
    moved_across_devices hrooted hsource hfile (.inl hcross) .crossDevice
  refine ⟨hcross, ?_, ?_⟩
  · have hok := hsucceeds "d/.g.7.0.tmp" _ _ hrename (by decide +kernel) hcreate
    obtain ⟨⟨⟩, w', hrun, hrelocated, -⟩ := Task.run_ok hmoved (by rw [hok]; rfl)
    exact ⟨w', hrun, hrelocated⟩
  · obtain ⟨e, w', hrun, hretained⟩ := Task.runRefusing_error hmoved
      (fun n => if n = 7 then some .busy else none) 0 (by decide +kernel)
    exact ⟨e, w', hrun, hretained⟩

def stagedNameTaken : World :=
  { twoDevices with files := twoDevices.files.put [".g.7.0.tmp", "d"] (.file [113]) }

/-- A file under the name of the staged one is lost when the move across devices succeeds, and a new
path that leads through itself has been made a directory before that move fails. -/
theorem others_lost_across_devices :
    (stagedNameTaken.files.Rooted ∧
      stagedNameTaken.files.Shows stagedNameTaken.place "f" [111] ∧
      stagedNameTaken.files.find stagedNameTaken.place "d/g" = .ok (["g", "d"], .file [112]) ∧
      stagedNameTaken.files.rename stagedNameTaken.place "f" "d/g" = .error .crossDevice ∧
      (∃ fs, stagedNameTaken.files.onOneDevice.rename stagedNameTaken.place "f" "d/g" = .ok fs ∧
        fs.node? [".g.7.0.tmp", "d"] = some (.file [113])) ∧
      ∃ w', (moveFile "f" "d/g").run.run stagedNameTaken = (.ok (), w') ∧
        w'.files.node? [".g.7.0.tmp", "d"] = none) ∧
    twoDevices.files.find twoDevices.place "d/x/../x" = .error .noEntry ∧
    ∃ w', (moveFile "f" "d/x/../x").run.run twoDevices =
        (.error (.file (.replace "d/x/../x") .isDirectory), w') ∧
      w'.files.find twoDevices.place "d/x/../x" = .ok (["x", "d"], .directory) := by
  have hmoved : ((moveFile "f" "d/g").run.run stagedNameTaken).1 = .ok () := by decide +kernel
  have hlost : ((moveFile "f" "d/g").run.run stagedNameTaken).2.files.node? [".g.7.0.tmp", "d"] =
      none := by decide +kernel
  have hrefused : ((moveFile "f" "d/x/../x").run.run twoDevices).1 =
      .error (.file (.replace "d/x/../x") .isDirectory) := by decide +kernel
  have hmade : ((moveFile "f" "d/x/../x").run.run twoDevices).2.files.find twoDevices.place
      "d/x/../x" = .ok (["x", "d"], .directory) := by decide +kernel
  refine ⟨⟨FileSystem.rooted_of_nodes (by decide +kernel),
    FileSystem.shows_of_find (p := ["f"]) (by decide +kernel), by decide +kernel,
    by decide +kernel, ?_, ?_⟩, by decide +kernel, ?_⟩
  · exact ⟨⟨[(["g", "d"], .file [111]), ([".g.7.0.tmp", "d"], .file [113]), (["d"], .directory)],
      []⟩, by decide +kernel, rfl⟩
  · exact ⟨_, Prod.ext hmoved rfl, hlost⟩
  · exact ⟨_, Prod.ext hrefused rfl, hmade⟩

end SourceDelta
