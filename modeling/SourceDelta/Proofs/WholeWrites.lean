import SourceDelta.Proofs.Faults
import SourceDelta.Proofs.Staging

/-!
# Files are written whole or not at all

Whichever step of a write fails, and however far it has come then, the target holds what
it held before, and nothing is left of the content. A write that succeeds leaves the
content at the target and every other file as it was.
-/

set_option autoImplicit false

namespace SourceDelta

namespace Path
open SourceDelta.Text

theorem noSlash_of_mem_cutHead {p : String} {name : List Char} (h : name ∈ (cutHead p).2) :
    '/' ∉ name := by
  rw [cutHead] at h
  split at h
  · exact not_mem_of_mem_pieces h
  · rw [List.mem_singleton.mp h]
    exact List.not_mem_nil
  · exact not_mem_of_mem_pieces h
  · exact not_mem_of_mem_pieces h

structure Extends (p q n : String) : Prop where
  part : IsPart n
  parent : parent? p = some q
  absolute : isAbsolute q = isAbsolute p
  chars : q.toList <+: p.toList
  passes : ∃ inner dots, (names p).1 = (names q).1 ++ inner ++ n :: dots ∧
    (∀ x ∈ inner, x = ".") ∧ ∀ x ∈ dots, x = "."

theorem extends_of_last {p : String} {name : List Char}
    (hlast : (dropEmptyNames (cutHead p).2).getLast? = some name) :
    ∃ q, Extends p q (String.ofList name) := by
  obtain ⟨front, -, hp, hcut⟩ := names_cut p
  obtain ⟨⟨es, hes, hempty⟩, hname⟩ := dropEmptyNames_spec (cutHead p).2
  obtain ⟨init, hinit⟩ := List.getLast?_eq_some_iff.mp hlast
  obtain ⟨⟨fs, hfs, hfempty⟩, hinner⟩ := dropEmptyNames_spec init
  have hprefix : dropEmptyNames init <+: (cutHead p).2 :=
    (prefix_dropEmptyNames _).trans
      ((List.prefix_append init [name]).trans (hinit ▸ prefix_dropEmptyNames _))
  have hmem : name ∈ (cutHead p).2 := (prefix_dropEmptyNames _).subset (by simp [hinit])
  have hpart := hname name hlast
  simp only [isEmptyName, Bool.or_eq_false_iff, decide_eq_false_iff_not] at hpart
  refine ⟨cut p (dropEmptyNames init), ⟨?_, ?_, ?_⟩, ?_, (hcut _ hprefix hinner).2, ?_,
    counted fs, counted es, ?_, counted_dots hfempty, counted_dots hempty⟩
  · exact fun he => hpart.1 (by simpa using congrArg String.toList he)
  · rw [String.toList_ofList]
    exact noSlash_of_mem_cutHead hmem
  · exact fun he => hpart.2 (by simpa using congrArg String.toList he)
  · simp only [parent?, hinit]
    split
    next hnil => simp at hnil
    next => rw [List.dropLast_concat, parent?.join, cut]
  · rw [cut, String.toList_ofList, ← cutHead_chars p]
    exact (List.prefix_append_right_inj _).mpr (prefix_join hprefix)
  · rw [(hcut _ hprefix hinner).1, hp, hes, hinit, counted_append, counted_append, List.append_assoc]
    conv_lhs => rw [hfs]
    simp [counted, hpart.1]

theorem extends_of_fileName? {p n : String} (h : fileName? p = some n) :
    IsName n ∧ ∃ q, Extends p q n := by
  rw [fileName?] at h
  split at h
  · cases h
  next name hlast =>
    split at h
    · cases h
    next hdots =>
      cases h
      obtain ⟨q, hq⟩ := extends_of_last hlast
      exact ⟨⟨hq.part, fun he => hdots (by simpa using congrArg String.toList he)⟩, q, hq⟩

theorem extends_of_parent? {p q : String} (h : parent? p = some q) (hq : q ≠ "") :
    ∃ n, Extends p q n := by
  cases hlast : (dropEmptyNames (cutHead p).2).getLast? with
  | none =>
    simp only [parent?, List.getLast?_eq_none_iff.mp hlast] at h
    split at h
    · exact absurd (Option.some.inj h).symm hq
    · cases h
  | some name =>
    obtain ⟨q', hq'⟩ := extends_of_last hlast
    rw [hq'.parent] at h
    cases h
    exact ⟨_, hq'⟩

end Path

namespace FileSystem

variable {fs fs' fs'' : FileSystem} {cwd p q : Place} {path old d : String} {c : Bytes}
  {change : Bytes → Bytes}

theorem placeOf_of_fileName? {n : String} (cwd : Place) (h : Path.fileName? path = some n) :
    Path.IsName n ∧ ∃ d, Path.parent? path = some d ∧ placeOf cwd path = n :: placeOf cwd d := by
  obtain ⟨hn, d, hextends⟩ := Path.extends_of_fileName? h
  obtain ⟨inner, dots, hnames, hinner, hdots⟩ := hextends.passes
  refine ⟨hn, d, hextends.parent, ?_⟩
  have hlast : ∀ e, lead e (n :: dots) = n :: e := by
    intro e
    rw [lead, List.foldl_cons, ofName_of_isName hn, ← lead, lead_dots _ hdots]
    rfl
  rw [placeOf, placeOf, hnames, lead_append, lead_append, lead_dots _ hinner, hlast, startOf, startOf,
    hextends.absolute]

/-- Nothing has changed but at that place, where no directory stood. -/
structure Beside (p : Place) (fs fs' : FileSystem) : Prop where
  others : ∀ q, q ≠ p → fs'.node? q = fs.node? q
  file : fs.node? p ≠ some .directory

theorem Beside.trans (h : Beside p fs fs') (h' : Beside p fs' fs'') : Beside p fs fs'' where
  others q hq := (h'.others q hq).trans (h.others q hq)
  file := h.file

theorem Beside.directoriesStay (h : Beside p fs fs') : DirectoriesStay fs fs' := by
  intro q hq
  rw [h.others q, hq]
  rintro rfl
  exact h.file hq

theorem beside_put (h : fs.node? p ≠ some .directory) (x : Node) : Beside p fs (fs.put p x) where
  others q hq := by rw [node?_put _ _ _ (ne_nil_of_not_directory h), if_neg hq]
  file := h

theorem beside_erase (h : fs.node? p ≠ some .directory) : Beside p fs (fs.erase p) where
  others q hq := by rw [node?_erase _ _ (ne_nil_of_not_directory h), if_neg hq]
  file := h

theorem Shows.not_directory (h : fs.Shows cwd path c) :
    fs.node? (placeOf cwd path) ≠ some .directory := by
  rw [h.node?]
  simp

theorem Shows.beside_refl (h : fs.Shows cwd path c) : Beside (placeOf cwd path) fs fs :=
  ⟨fun _ _ => rfl, h.not_directory⟩

theorem beside_openFile (h : fs.openFile change cwd path = .ok fs') :
    Beside (placeOf cwd path) fs fs' := by
  obtain ⟨t, -, -, -, hfile, rfl⟩ := openFile_eq_ok h
  exact beside_put hfile _

theorem Shows.beside_modifyFile (h : fs.Shows cwd path c)
    (hm : fs.modifyFile change cwd path = .ok fs') : Beside (placeOf cwd path) fs fs' := by
  rw [h.modifyFile_eq] at hm
  cases hm
  exact beside_put h.not_directory _

theorem put_put (p : Place) (x y : Node) : (fs.put p x).put p y = fs.put p y := by
  simp [put, erase, List.filter_filter]

theorem Shows.removeFile (h : fs.Shows cwd path c) :
    fs.removeFile cwd path = .ok (fs.erase (placeOf cwd path)) := by
  rw [FileSystem.removeFile, h]

theorem Shows.node?_erase (h : fs.Shows cwd path c) :
    (fs.erase (placeOf cwd path)).node? (placeOf cwd path) = none := by
  rw [FileSystem.node?_erase _ _ (ne_nil_of_not_directory h.not_directory), if_pos rfl]

theorem Shows.rename_apart (h : fs.Shows cwd old c) (hne : placeOf cwd path ≠ placeOf cwd old)
    (hr : fs.rename cwd old path = .ok fs') : fs.node? (placeOf cwd path) ≠ some .directory ∧
      fs' = (fs.erase (placeOf cwd old)).put (placeOf cwd path) (.file c) := by
  obtain ⟨t, -, -, -, hnode⟩ := h.rename_eq_ok hr
  exact renameNode_eq_ok h.node? hne.symm hnode

end FileSystem

namespace Staged

open FileSystem (Beside Makes OnWay placeOf)

variable {w : World} {may : Faults} {path t : String} {content x : Bytes}

def temporaryFor (w : World) (target : String) : Option String :=
  (Path.fileName? target).map fun name =>
    Path.join ((Path.parent? target).getD ".") (temporaryName name w.process w.fresh)

/-- Content is staged in the directory of its target, under another name. -/
theorem placeOf_temporary (cwd : Place) (h : temporaryFor w path = some t) :
    ∃ d n k, placeOf cwd path = n :: d ∧ placeOf cwd t = k :: d ∧ n ≠ k := by
  obtain ⟨n, hn, rfl⟩ := Option.map_eq_some_iff.mp h
  obtain ⟨hname, d, hd, hplace⟩ := FileSystem.placeOf_of_fileName? cwd hn
  refine ⟨placeOf cwd d, n, temporaryName n w.process w.fresh, hplace, ?_, fun he => ?_⟩
  · rw [hd, Option.getD_some,
      FileSystem.placeOf_join (Layout.isName_temporary hname.noSlash w.process w.fresh)]
  · have hlength := congrArg (·.toList.length) he
    simp only [Layout.toList_temporaryName] at hlength
    simp at hlength
    omega

theorem placeOf_ne_temporary (cwd : Place) (h : temporaryFor w path = some t) :
    placeOf cwd path ≠ placeOf cwd t := by
  obtain ⟨d, n, k, hn, hk, hne⟩ := placeOf_temporary cwd h
  rw [hn, hk]
  exact fun he => hne (List.cons.inj he).1

/-- At most some of the directories on the way to a missing parent have been made. -/
def Prepared (cwd : Place) (path : String) (fs fs' : FileSystem) : Prop :=
  fs' = fs ∨ ∃ d, Path.parent? path = some d ∧ d ≠ "" ∧ fs.pathExists cwd d = false ∧
    Makes (OnWay cwd d) fs fs'

theorem ensureParent_withstands : (ensureParent path).Withstands may (fun _ w' =>
    ∃ fs, w' = { w with files := fs } ∧ Prepared w.place path w.files fs) w := by
  have hsame : ∃ fs, w = { w with files := fs } ∧ Prepared w.place path w.files fs :=
    ⟨w.files, rfl, .inl rfl⟩
  rw [ensureParent]
  split
  · exact Task.withstands_pure hsame
  next d hd =>
    split
    · exact Task.withstands_pure hsame
    next hne =>
      apply Task.withstands_bind
      refine Task.withstands_ask fun seen w₁ hseen => ?_
      obtain ⟨hexists, rfl⟩ := Request.replies_pathExists hseen
      dsimp only
      split
      · exact Task.withstands_pure hsame
      next hmissing =>
        refine Task.withstands_attempt fun done w' hdone => ?_
        obtain ⟨fs, hmakes, rfl⟩ := Request.replies_createDirAll hdone
        rw [hexists, Bool.not_eq_true] at hmissing
        exact ⟨fs, rfl, .inr ⟨d, hd, hne, hmissing, hmakes⟩⟩

/-- The content is dropped: nothing is left of it, if its removal does not fail. -/
structure Dropped (may : Faults) (cwd : Place) (t : String) (fs fs' : FileSystem) : Prop where
  beside : Beside (placeOf cwd t) fs fs'
  removed : ¬ may _ (.removeFile t) → fs'.node? (placeOf cwd t) = none

theorem Dropped.after {cwd : Place} {fs fs₁ fs' : FileSystem} (hbefore : Beside (placeOf cwd t) fs fs₁)
    (h : Dropped may cwd t fs₁ fs') : Dropped may cwd t fs fs' :=
  ⟨hbefore.trans h.beside, h.removed⟩

theorem remove_withstands (h : w.files.Shows w.place t x) :
    (Task.ask (.removeFile t)).Withstands may (fun o w' => (∃ done, o = .ok done) ∧
      ∃ fs, w' = { w with files := fs } ∧ Dropped may w.place t w.files fs) w := by
  refine Task.withstands_ask fun done w' hdone => ⟨⟨done, rfl⟩, ?_⟩
  rcases hdone with hanswer | ⟨hmay, -, rfl⟩
  · rw [World.answer, h.removeFile] at hanswer
    cases hanswer
    exact ⟨_, rfl, FileSystem.beside_erase h.not_directory, fun _ => h.node?_erase⟩
  · exact ⟨_, rfl, h.beside_refl, fun hspared => absurd hmay hspared⟩

theorem discard_withstands {s : Staged} (h : w.files.Shows w.place s.temporary x) :
    s.discard.Withstands may (fun o w' => o = .ok () ∧
      ∃ fs, w' = { w with files := fs } ∧ Dropped may w.place s.temporary w.files fs) w := by
  rw [discard]
  apply Task.withstands_bind
  refine Task.withstands_mono (remove_withstands h) ?_
  rintro _ w' ⟨⟨done, rfl⟩, hdropped⟩
  exact Task.withstands_pure ⟨rfl, hdropped⟩

theorem writeOut_withstands (h : w.files.Shows w.place t x) :
    (writeOut t content).Withstands may (fun o w' => ∃ fs, w' = { w with files := fs } ∧ match o with
      | .ok () => Beside (placeOf w.place t) w.files fs ∧ fs.Shows w.place t (x ++ content)
      | .error _ => Dropped may w.place t w.files fs) w := by
  -- whatever has been written so far, the file is removed
  have hremoved : ∀ fs y e, Beside (placeOf w.place t) w.files fs → fs.Shows w.place t y →
      (do let _ ← Task.ask (.removeFile t)
          Task.fail (.file (.writeTemporary t) e) : Task Unit).Withstands may
        (fun o w' => ∃ fs, w' = { w with files := fs } ∧ match o with
          | .ok () => Beside (placeOf w.place t) w.files fs ∧ fs.Shows w.place t (x ++ content)
          | .error _ => Dropped may w.place t w.files fs) { w with files := fs } := by
    intro fs y e hbeside hy
    apply Task.withstands_bind
    refine Task.withstands_mono (remove_withstands hy) ?_
    rintro _ w' ⟨⟨done, rfl⟩, fs', rfl, hdropped⟩
    exact Task.withstands_fail ⟨fs', rfl, hdropped.after hbeside⟩
  rw [writeOut]
  apply Task.withstands_bind
  refine Task.withstands_ask fun written w₁ hwritten => ?_
  rcases Request.replies_write hwritten with (⟨fs₁, hfs₁, rfl, rfl⟩ | ⟨⟨e, rfl⟩, rfl⟩) |
    ⟨part, -, ⟨e, rfl⟩, fs₁, hfs₁, rfl⟩
  · have hbeside := h.beside_modifyFile hfs₁
    have hshows := h.modifyFile hfs₁
    apply Task.withstands_bind
    refine Task.withstands_ask fun synced w₂ hsynced => ?_
    rcases Request.replies_sync hsynced with ⟨fs₂, hfs₂, rfl, rfl⟩ | ⟨⟨e, rfl⟩, rfl⟩
    · exact Task.withstands_pure
        ⟨fs₂, rfl, hbeside.trans (hshows.beside_modifyFile hfs₂), hshows.modifyFile hfs₂⟩
    · exact hremoved fs₁ _ e hbeside hshows
  · exact hremoved _ _ e h.beside_refl h
  · exact hremoved fs₁ _ e (h.beside_modifyFile hfs₁) (h.modifyFile hfs₁)

def Withdrawn (may : Faults) (w : World) (path : String) (fs fs' : FileSystem) : Prop :=
  fs' = fs ∨ ∃ t, temporaryFor w path = some t ∧ Dropped may w.place t fs fs'

theorem stage_withstands : (stage path content).Withstands may (fun o w' => w'.place = w.place ∧
    ∃ fs, Prepared w.place path w.files fs ∧ match o with
      | .ok s => s.target = path ∧ temporaryFor w path = some s.temporary ∧
        Beside (placeOf w.place s.temporary) fs w'.files ∧
        w'.files.Shows w.place s.temporary content
      | .error _ => Withdrawn may w path fs w'.files) w := by
  rw [stage]
  apply Task.withstands_bind
  refine Task.withstands_mono ensureParent_withstands ?_
  rintro (e | ⟨⟩) w₁ ⟨fs, rfl, hprepared⟩
  · exact ⟨rfl, fs, hprepared, .inl rfl⟩
  apply Task.withstands_bind
  rw [temporaryPath]
  split
  next => exact Task.withstands_fail ⟨rfl, fs, hprepared, .inl rfl⟩
  next name hname =>
    apply Task.withstands_bind
    refine Task.withstands_ask fun ids w₂ hids => ?_
    obtain ⟨rfl, rfl⟩ := Request.replies_freshName hids
    have ht : temporaryFor w path = some (Path.join ((Path.parent? path).getD ".")
        (temporaryName name w.process w.fresh)) := by
      rw [temporaryFor, hname, Option.map_some]
    dsimp only
    generalize Path.join ((Path.parent? path).getD ".") (temporaryName name w.process w.fresh) = t at ht ⊢
    apply Task.withstands_pure
    apply Task.withstands_bind
    refine Task.withstands_attempt fun created w₃ hcreated => ?_
    rcases Request.replies_createFile hcreated with ⟨fs₃, hfs₃, rfl, rfl⟩ | ⟨⟨e, rfl⟩, rfl⟩
    · have hbeside := FileSystem.beside_openFile hfs₃
      have hempty : fs₃.Shows w.place t [] := by
        have hopened := FileSystem.shows_openFile hfs₃
        split at hopened <;> exact hopened
      apply Task.withstands_bind
      refine Task.withstands_mono (writeOut_withstands hempty) ?_
      rintro (e | ⟨⟩) w₄ ⟨fs₄, rfl, hwritten⟩
      · exact ⟨rfl, fs, hprepared, .inr ⟨t, ht, hwritten.after hbeside⟩⟩
      · exact Task.withstands_pure ⟨rfl, fs, hprepared, rfl, ht, hbeside.trans hwritten.1, hwritten.2⟩
    · exact ⟨rfl, fs, hprepared, .inl rfl⟩

theorem commit_withstands {s : Staged} (h : w.files.Shows w.place s.temporary x)
    (hne : placeOf w.place s.target ≠ placeOf w.place s.temporary) :
    s.commit.Withstands may (fun o w' => w'.place = w.place ∧ match o with
      | .ok () => w.files.node? (placeOf w.place s.target) ≠ some .directory ∧
        w'.files.Shows w.place s.target x ∧
        w'.files = (w.files.erase (placeOf w.place s.temporary)).put (placeOf w.place s.target) (.file x)
      | .error _ => Dropped may w.place s.temporary w.files w'.files) w := by
  rw [commit]
  apply Task.withstands_bind
  refine Task.withstands_ask fun renamed w₁ hrenamed => ?_
  rcases Request.replies_rename hrenamed with ⟨fs, hfs, rfl, rfl⟩ | ⟨⟨e, rfl⟩, rfl⟩
  · obtain ⟨hfile, hput⟩ := h.rename_apart hne hfs
    exact Task.withstands_pure ⟨rfl, hfile, h.rename hfs, hput⟩
  · apply Task.withstands_bind
    refine Task.withstands_mono (discard_withstands h) ?_
    rintro _ w' ⟨rfl, fs, rfl, hdropped⟩
    exact Task.withstands_fail ⟨rfl, hdropped⟩

theorem ensureParent_run
    (hparent : ∀ d, Path.parent? path = some d → d ≠ "" → w.files.pathExists w.place d = true) :
    (ensureParent path).run.run w = (.ok (), w) := by
  rw [ensureParent]
  split
  · rfl
  next d hd =>
    split
    · rfl
    next hne =>
      have hexists : (w.answer (.pathExists d)) = (true, w) := by
        rw [World.answer, hparent d hd hne]
      exact Task.bind_ok.mpr ⟨true, w, Task.ask_ok.mpr hexists, rfl⟩

theorem temporaryPath_run (ht : temporaryFor w path = some t) :
    (temporaryPath path).run.run w = (.ok t, { w with fresh := w.fresh + 1 }) := by
  obtain ⟨name, hname, rfl⟩ := Option.map_eq_some_iff.mp ht
  rw [temporaryPath, hname]
  exact Task.bind_ok.mpr ⟨_, _, Task.ask_ok.mpr rfl, rfl⟩

theorem writeOut_run (h : w.files.Shows w.place t x) : (writeOut t content).run.run w =
    (.ok (), { w with files := w.files.put (placeOf w.place t) (.file (x ++ content)) }) := by
  have hwrite : w.answer (.write t content) =
      (.ok (), { w with files := w.files.put (placeOf w.place t) (.file (x ++ content)) }) := by
    rw [World.answer, h.modifyFile_eq]
    rfl
  generalize hw : { w with files := w.files.put (placeOf w.place t) (.file (x ++ content)) } = w₁
    at hwrite ⊢
  have hwritten : w₁.files.Shows w₁.place t (x ++ content) := by
    subst hw
    exact h.modifyFile (h.modifyFile_eq (· ++ content))
  have hsync : w₁.answer (.sync t) = (.ok (), w₁) := by
    rw [World.answer, hwritten.modifyFile_eq]
    subst hw
    simp only [World.change, FileSystem.put_put, id]
  rw [writeOut]
  refine Task.bind_ok.mpr ⟨.ok (), w₁, Task.ask_ok.mpr hwrite, ?_⟩
  exact Task.bind_ok.mpr ⟨.ok (), w₁, Task.ask_ok.mpr hsync, rfl⟩

/-- Each step of a write can be made: the parent is there, the file for the content can be created,
and it can be renamed to the target. -/
structure Possible (w : World) (path t : String) (content : Bytes) (fs : FileSystem) : Prop where
  parent : ∀ d, Path.parent? path = some d → d ≠ "" → w.files.pathExists w.place d = true
  temporary : temporaryFor w path = some t
  create : ∃ fs₁, w.files.openFile (fun _ => []) w.place t = .ok fs₁
  rename : (w.files.put (placeOf w.place t) (.file content)).rename w.place t path = .ok fs

theorem Possible.stage_run {fs : FileSystem} (h : Possible w path t content fs) :
    (stage path content).run.run w = (.ok ⟨t, path⟩,
      { w with fresh := w.fresh + 1, files := w.files.put (placeOf w.place t) (.file content) }) := by
  obtain ⟨fs₁, hfs₁⟩ := h.create
  have hempty : fs₁ = w.files.put (placeOf w.place t) (.file []) := by
    obtain ⟨-, -, -, -, -, rfl⟩ := FileSystem.openFile_eq_ok hfs₁
    congr 2
    split <;> rfl
  have hshows : fs₁.Shows w.place t [] := by
    have hopened := FileSystem.shows_openFile hfs₁
    split at hopened <;> exact hopened
  rw [stage]
  refine Task.bind_ok.mpr ⟨(), w, ensureParent_run h.parent, ?_⟩
  refine Task.bind_ok.mpr ⟨t, { w with fresh := w.fresh + 1 }, temporaryPath_run h.temporary, ?_⟩
  refine Task.bind_ok.mpr ⟨(), { w with fresh := w.fresh + 1, files := fs₁ }, ?_, ?_⟩
  · refine Task.attempt_ok.mpr ?_
    rw [World.answer, hfs₁]
    rfl
  · refine Task.bind_ok.mpr ⟨(), _, writeOut_run hshows, ?_⟩
    rw [hempty, List.nil_append, FileSystem.put_put]
    rfl

end Staged

open FileSystem (DirectoriesStay OnWay placeOf)
open Staged (temporaryFor Prepared Withdrawn)

variable {w : World} {may : Faults} {cwd q : Place} {path t : String} {content : Bytes}
  {fs fs₁ fs' : FileSystem}

structure Replaced (cwd : Place) (path t : String) (content : Bytes) (fs fs' : FileSystem) : Prop where
  shows : fs'.Shows cwd path content
  file : fs.node? (placeOf cwd path) ≠ some .directory
  stagedFile : fs.node? (placeOf cwd t) ≠ some .directory
  spent : fs'.node? (placeOf cwd t) = none
  others : ∀ q, q ≠ placeOf cwd path → q ≠ placeOf cwd t → fs'.node? q = fs.node? q

theorem Replaced.directoriesStay (h : Replaced cwd path t content fs fs') : DirectoriesStay fs fs' := by
  intro q hq
  rw [h.others q, hq]
  · rintro rfl
    exact h.file hq
  · rintro rfl
    exact h.stagedFile hq

theorem atomicWrite_withstands : (atomicWrite path content).Withstands may (fun o w' =>
    w'.place = w.place ∧ ∃ fs, Prepared w.place path w.files fs ∧ match o with
      | .ok () => ∃ t, temporaryFor w path = some t ∧ Replaced w.place path t content fs w'.files
      | .error _ => Withdrawn may w path fs w'.files) w := by
  rw [atomicWrite]
  apply Task.withstands_bind
  refine Task.withstands_mono Staged.stage_withstands ?_
  rintro (e | s) w₁ ⟨hplace, fs, hprepared, hstaged⟩
  · exact ⟨hplace, fs, hprepared, hstaged⟩
  obtain ⟨rfl, ht, hbeside, hshows⟩ := hstaged
  have hne := Staged.placeOf_ne_temporary w.place ht
  rw [← hplace] at hshows hne
  refine Task.withstands_mono (Staged.commit_withstands hshows hne) ?_
  rw [hplace] at hne ⊢
  rintro (e | ⟨⟩) w₂ ⟨hplace₂, hcommitted⟩
  · exact ⟨hplace₂, fs, hprepared, .inr ⟨_, ht, hcommitted.after hbeside⟩⟩
  · obtain ⟨hfile, hshown, hfiles⟩ := hcommitted
    have hroot := FileSystem.ne_nil_of_not_directory hfile
    have hstaged := FileSystem.ne_nil_of_not_directory hbeside.file
    refine ⟨hplace₂, fs, hprepared, _, ht, hshown, ?_, hbeside.file, ?_, fun q hq hqt => ?_⟩
    · rwa [← hbeside.others _ hne]
    · rw [hfiles, FileSystem.node?_put _ _ _ hroot, if_neg hne.symm,
        FileSystem.node?_erase _ _ hstaged, if_pos rfl]
    · rw [hfiles, FileSystem.node?_put _ _ _ hroot, if_neg hq, FileSystem.node?_erase _ _ hstaged,
        if_neg hqt, hbeside.others _ hqt]

theorem Staged.Possible.run (h : Staged.Possible w path t content fs) :
    (atomicWrite path content).run.run w = (.ok (), { w with fresh := w.fresh + 1, files := fs }) := by
  rw [atomicWrite]
  refine Task.bind_ok.mpr ⟨_, _, h.stage_run, ?_⟩
  rw [Staged.commit]
  refine Task.bind_ok.mpr ⟨.ok (), _, Task.ask_ok.mpr ?_, rfl⟩
  rw [World.answer, h.rename]
  rfl

/-- What stood at the target stands there. Only where nothing stood there may be a directory, when
the parent of the target was missing and the way to it leads through the target. -/
structure TargetStays (cwd : Place) (path : String) (fs fs' : FileSystem) : Prop where
  node : fs'.node? (placeOf cwd path) = fs.node? (placeOf cwd path) ∨
    fs.node? (placeOf cwd path) = none ∧ fs'.node? (placeOf cwd path) = some .directory ∧
      ∃ d, Path.parent? path = some d ∧ d ≠ "" ∧ fs.pathExists cwd d = false ∧
        OnWay cwd d (placeOf cwd path)
  shows : ∀ c, fs.Shows cwd path c → fs'.Shows cwd path c

/-- The target is as it was, and every file has the content that it had. -/
structure Unwritten (cwd : Place) (path : String) (fs fs' : FileSystem) : Prop where
  target : TargetStays cwd path fs fs'
  contents : ∀ q, fs'.content? q = fs.content? q

namespace FileSystem

theorem Shows.stay {c : Bytes} (h : fs.Shows cwd path c) (hstay : DirectoriesStay fs fs')
    (hn : fs'.node? (placeOf cwd path) = fs.node? (placeOf cwd path)) : fs'.Shows cwd path c := by
  obtain ⟨hfits, hne, hstart, hwalk, hnode, hslash⟩ := find_iff.mp h
  exact find_iff.mpr ⟨hfits, hne, hstay _ hstart, hstay.walk hwalk, hn.trans hnode, hslash⟩

theorem Makes.content? {way : Place → Prop} (h : Makes way fs fs') (q : Place) :
    fs'.content? q = fs.content? q := by
  rcases h.node? q with hq | ⟨hnone, hdirectory, -⟩
  · exact content?_congr hq
  · rw [FileSystem.content?, FileSystem.content?, hnone, hdirectory]

end FileSystem

namespace Staged.Prepared

variable (h : Prepared cwd path fs fs')
include h

theorem content? (q : Place) : fs'.content? q = fs.content? q := by
  rcases h with rfl | ⟨d, -, -, -, hmakes⟩
  · rfl
  · exact hmakes.content? q

theorem directoriesStay : DirectoriesStay fs fs' := by
  rcases h with rfl | ⟨d, -, -, -, hmakes⟩
  · exact fun _ hq => hq
  · exact hmakes.directoriesStay

theorem targetStays : TargetStays cwd path fs fs' := by
  have hnode : fs'.node? (placeOf cwd path) = fs.node? (placeOf cwd path) ∨
      fs.node? (placeOf cwd path) = none ∧ fs'.node? (placeOf cwd path) = some .directory ∧
        ∃ d, Path.parent? path = some d ∧ d ≠ "" ∧ fs.pathExists cwd d = false ∧
          OnWay cwd d (placeOf cwd path) := by
    rcases h with rfl | ⟨d, hd, hne, hmissing, hmakes⟩
    · exact .inl rfl
    · refine (hmakes.node? (placeOf cwd path)).imp id ?_
      rintro ⟨hnone, hdirectory, hway⟩
      exact ⟨hnone, hdirectory, d, hd, hne, hmissing, hway⟩
  refine ⟨hnode, fun c hc => hc.stay h.directoriesStay ?_⟩
  refine hnode.resolve_right ?_
  rintro ⟨hnone, -⟩
  rw [hc.node?] at hnone
  cases hnone

end Staged.Prepared

theorem TargetStays.beside (h : TargetStays cwd path fs fs₁) (hb : FileSystem.Beside q fs₁ fs')
    (hq : placeOf cwd path ≠ q) : TargetStays cwd path fs fs' := by
  have hn := hb.others _ hq
  refine ⟨?_, fun c hc => (h.shows c hc).stay hb.directoriesStay hn⟩
  rw [hn]
  exact h.node

/-- Staged content that is not seen at its target, nor anywhere else but where it is staged. -/
structure Hidden (cwd : Place) (path t : String) (content : Bytes) (fs fs' : FileSystem) : Prop where
  target : TargetStays cwd path fs fs'
  staged : fs'.Shows cwd t content
  others : ∀ q, q ≠ placeOf cwd t → fs'.content? q = fs.content? q

section

variable (hfresh : ∀ t, temporaryFor w path = some t → w.files.content? (placeOf w.place t) = none)
  (hspared : ∀ t, temporaryFor w path = some t → ¬ may _ (.removeFile t))
include hfresh hspared

theorem unwritten_of_withdrawn (hprepared : Prepared w.place path w.files fs)
    (h : Withdrawn may w path fs fs') : Unwritten w.place path w.files fs' := by
  rcases h with rfl | ⟨t, ht, hdropped⟩
  · exact ⟨hprepared.targetStays, hprepared.content?⟩
  · have hne := Staged.placeOf_ne_temporary w.place ht
    refine ⟨hprepared.targetStays.beside hdropped.beside hne, fun q => ?_⟩
    by_cases hq : q = placeOf w.place t
    · rw [hq, hfresh t ht, FileSystem.content?, hdropped.removed (hspared t ht)]
    · rw [FileSystem.content?_congr (hdropped.beside.others q hq), hprepared.content?]

/-- Writing is all or nothing, whichever requests fail but the removal of the staged file, as long as
no file has its name. It succeeds where each of its steps can be made. -/
theorem written_whole (content : Bytes) :
    (atomicWrite path content).Withstands may (fun o w' =>
      (∀ t, temporaryFor w path = some t → w'.files.content? (placeOf w.place t) = none) ∧
      match o with
      | .ok () => w'.files.Shows w.place path content ∧
        ∀ q, q ≠ placeOf w.place path → w'.files.content? q = w.files.content? q
      | .error _ => Unwritten w.place path w.files w'.files) w ∧
    (Staged.stage path content).Withstands may (fun o w' => match o with
      | .ok s => Hidden w.place path s.temporary content w.files w'.files ∧
        s.discard.Withstands may (fun o w'' =>
          o = .ok () ∧ Unwritten w.place path w.files w''.files) w'
      | .error _ => Unwritten w.place path w.files w'.files) w ∧
    ∀ t fs, Staged.Possible w path t content fs →
      ((atomicWrite path content).run.run w).1 = .ok () := by
  refine ⟨?_, ?_, fun t fs h => by rw [h.run]⟩
  · refine Task.withstands_mono atomicWrite_withstands ?_
    rintro (e | ⟨⟩) w' ⟨-, fs, hprepared, hwritten⟩
    · have hunwritten := unwritten_of_withdrawn hfresh hspared hprepared hwritten
      exact ⟨fun t ht => (hunwritten.contents _).trans (hfresh t ht), hunwritten⟩
    · obtain ⟨t, ht, hreplaced⟩ := hwritten
      have hothers : ∀ q, q ≠ placeOf w.place path → w'.files.content? q = w.files.content? q := by
        intro q hq
        by_cases hqt : q = placeOf w.place t
        · rw [hqt, hfresh t ht, FileSystem.content?, hreplaced.spent]
        · rw [FileSystem.content?_congr (hreplaced.others q hq hqt), hprepared.content?]
      refine ⟨fun t' ht' => ?_, hreplaced.shows, hothers⟩
      rw [hothers _ (Staged.placeOf_ne_temporary _ ht').symm, hfresh t' ht']
  · refine Task.withstands_mono Staged.stage_withstands ?_
    rintro (e | s) w' ⟨hplace, fs, hprepared, hstaged⟩
    · exact unwritten_of_withdrawn hfresh hspared hprepared hstaged
    · obtain ⟨-, ht, hbeside, hshows⟩ := hstaged
      have hne := Staged.placeOf_ne_temporary w.place ht
      refine ⟨⟨hprepared.targetStays.beside hbeside hne, hshows, fun q hq => ?_⟩, ?_⟩
      · rw [FileSystem.content?_congr (hbeside.others q hq), hprepared.content?]
      · rw [← hplace] at hshows
        refine Task.withstands_mono (Staged.discard_withstands hshows) ?_
        rintro _ w'' ⟨rfl, fs', rfl, hdropped⟩
        rw [hplace] at hdropped
        exact ⟨rfl, unwritten_of_withdrawn hfresh hspared hprepared
          (.inr ⟨_, ht, hdropped.after hbeside⟩)⟩

end

def smallWorld : World :=
  ⟨⟨[(["f"], .file [111]), (["d"], .directory)], []⟩, "/", [], 7, 0, default, none, []⟩

theorem written_whole_small :
    (∃ w', (atomicWrite "new/g" [1]).run.run smallWorld = (.ok (), w') ∧
      w'.files.Shows smallWorld.place "new/g" [1] ∧ w'.files.content? ["f"] = some [111]) ∧
    (∃ e w', (atomicWrite "d" [1]).run.run smallWorld = (.error e, w') ∧
      Unwritten smallWorld.place "d" smallWorld.files w'.files) ∧
    (∃ s w', (Staged.stage "f" [1]).run.run smallWorld = (.ok s, w') ∧
      Hidden smallWorld.place "f" s.temporary [1] smallWorld.files w'.files) ∧
    ((atomicWrite "d/g" [1]).run.run smallWorld).1 = .ok () := by
  have hfresh : ∀ path ∈ ["new/g", "d", "f", "d/g"], ∀ t ∈ temporaryFor smallWorld path,
      smallWorld.files.content? (placeOf smallWorld.place t) = none := by decide +kernel
  have hspared : ∀ t : String, ¬ Faults.sparingRemovals _ (.removeFile t) := fun _ => id
  refine ⟨?_, ?_, ?_, ?_⟩
  · obtain ⟨⟨⟩, w', hrun, -, hshows, hothers⟩ := Task.run_ok
      (written_whole (hfresh "new/g" (by simp)) (fun t _ => hspared t) [1]).1 (by decide +kernel)
    exact ⟨w', hrun, hshows, (hothers ["f"] (by decide +kernel)).trans (by decide +kernel)⟩
  · obtain ⟨e, w', hrun, -, hunwritten⟩ := Task.run_error
      (written_whole (hfresh "d" (by simp)) (fun t _ => hspared t) [1]).1 (by decide +kernel)
    exact ⟨e, w', hrun, hunwritten⟩
  · obtain ⟨s, w', hrun, hhidden, -⟩ := Task.run_ok
      (written_whole (hfresh "f" (by simp)) (fun t _ => hspared t) [1]).2.1 (by decide +kernel)
    exact ⟨s, w', hrun, hhidden⟩
  · have hpossible : Staged.Possible smallWorld "d/g" "d/.g.7.0.tmp" [1]
        ⟨[(["g", "d"], .file [1]), (["f"], .file [111]), (["d"], .directory)], []⟩ := by
      refine ⟨fun d hd _ => ?_, by decide +kernel, ?_, by decide +kernel⟩
      · rw [show Path.parent? "d/g" = some "d" by decide +kernel] at hd
        cases hd
        decide +kernel
      · exact ⟨smallWorld.files.put [".g.7.0.tmp", "d"] (.file []), by decide +kernel⟩
    exact (written_whole (hfresh "d/g" (by simp)) (fun t _ => hspared t) [1]).2.2 _ _ hpossible

/-- Where the parent of the target is missing and leads through it, the target is made a directory
before the write fails. -/
theorem target_made_a_directory :
    smallWorld.files.find smallWorld.place "x/../x" = .error .noEntry ∧
    (temporaryFor smallWorld "x/../x").map (fun t => smallWorld.files.content? (placeOf smallWorld.place t)) =
      some none ∧
    ∃ e w', (atomicWrite "x/../x" [1]).run.run smallWorld = (.error e, w') ∧
      w'.files.find smallWorld.place "x/../x" = .ok (["x"], .directory) := by
  refine ⟨by decide +kernel, by decide +kernel, ?_⟩
  have hfound : ((atomicWrite "x/../x" [1]).run.run smallWorld).2.files.find smallWorld.place
      "x/../x" = .ok (["x"], .directory) := by decide +kernel
  exact Task.exists_error (Q := fun _ w' =>
    w'.files.find smallWorld.place "x/../x" = .ok (["x"], .directory)) hfound (by decide +kernel)

end SourceDelta
