import SourceDelta.Proofs.Listing
import SourceDelta.Proofs.Opening

/-!
# What a refusal tells

The steps of a change fail because the system has refused a request, and their
failure says so; only where an artifact can have no file at all do they fail by
themselves. Whatever becomes of them, the directory of displaced code stays where
it is: a step makes directories and moves files, and takes no directory away.
-/

set_option autoImplicit false

namespace SourceDelta

def Failure.refused : Failure → Bool
  | .file _ _ | .readForMove _ _ _ => true
  | _ => false

namespace FileSystem

variable {fs fs' : FileSystem} {cwd p s t : Place} {d e m n : String}

theorem ne_of_not_within (h : within s p = false) : p ≠ s ∧ s ≠ [] := by
  rw [Bool.eq_false_iff, ne_eq, within, List.isSuffixOf_iff_suffix] at h
  refine ⟨?_, ?_⟩
  · rintro rfl
    exact h List.suffix_rfl
  · rintro rfl
    exact h List.nil_suffix

theorem node?_moveTree (hs : within s p = false) (ht : within t p = false) :
    (fs.moveTree s t).node? p = fs.node? p := by
  by_cases hp : p = []
  · rw [hp]
    rfl
  have hkept : ((fs.eraseTree s).eraseTree t).node? p = fs.node? p := by
    rw [node?_eraseTree _ _ (ne_of_not_within ht).2, node?_eraseTree _ _ (ne_of_not_within hs).2,
      ht, hs]
    rfl
  rw [← hkept, node?_of_ne_nil hp, node?_of_ne_nil hp, moveTree, List.lookup_append,
    List.lookup_eq_none_iff.mpr, Option.none_or]
  rintro ⟨q, x⟩ hq
  obtain ⟨⟨q', x'⟩, -, he⟩ := List.mem_map.mp hq
  rw [bne_iff_ne]
  intro hpq
  have hplace : p = q'.take (q'.length - s.length) ++ t := hpq.trans (congrArg Prod.fst he).symm
  rw [hplace, Bool.eq_false_iff] at ht
  exact ht (List.isSuffixOf_iff_suffix.mpr (List.suffix_append _ _))

theorem renameNode_off (h : fs.renameNode s t = .ok fs') (hs : within s p = false)
    (ht : within t p = false) : fs'.node? p = fs.node? p := by
  obtain ⟨hps, hs₀⟩ := ne_of_not_within hs
  obtain ⟨hpt, ht₀⟩ := ne_of_not_within ht
  simp only [renameNode] at h
  split at h
  · cases h
  split at h
  · cases h
    rfl
  split at h
  · cases h
  split at h
  · cases h
  split at h
  · cases h
  · cases h
  · split at h
    · cases h
      exact node?_moveTree hs ht
    · cases h
  · cases h
    exact node?_moveTree hs ht
  · cases h
    rw [node?_put _ _ _ ht₀, if_neg hpt, node?_erase _ _ hs₀, if_neg hps]

theorem eq_of_step_ofName {k : String} {q r : Place} (hk : (Last.ofName k).isName = true)
    (hr : fs.step q (.ofName k) = .ok r) : r = k :: q := by
  have hplace := (step_eq_ok hr).2
  unfold Last.ofName at hk hplace
  split at hk
  · cases hk
  next h1 =>
    split at hk
    · cases hk
    next h2 =>
      rw [if_neg h1, if_neg h2] at hplace
      exact hplace

theorem rename_off (hm : Path.IsPart m) (hn : Path.IsPart n)
    (h : fs.rename cwd (Path.join d m) (Path.join e n) = .ok fs')
    (hs : within (m :: placeOf cwd d) p = false) (ht : within (n :: placeOf cwd e) p = false) :
    fs'.node? p = fs.node? p := by
  simp only [rename] at h
  split at h
  · cases h
  next a ha =>
    obtain ⟨-, -, rfl⟩ := (target_join hm).mp ha
    split at h
    · cases h
    next b hb =>
      obtain ⟨-, -, rfl⟩ := (target_join hn).mp hb
      split at h
      · cases h
      split at h
      · cases h
      next hnames =>
        simp only [Bool.or_eq_true, Bool.not_eq_true', not_or, Bool.not_eq_false] at hnames
        split at h
        · cases h
        next source hsource =>
          split at h
          · cases h
          split at h
          · cases h
          next target htarget =>
            split at h
            · cases h
            rw [eq_of_step_ofName hnames.1 hsource, eq_of_step_ofName hnames.2 htarget] at h
            exact renameNode_off h hs ht

theorem stay_put {c : Bytes} (h : fs.node? p ≠ some .directory) :
    DirectoriesStay fs (fs.put p (.file c)) := by
  intro q hq
  have hne : p ≠ [] := fun he => h (by rw [he]; rfl)
  rw [node?_put _ _ _ hne, if_neg, hq]
  rintro rfl
  exact h hq

theorem openFile_stay {change : Bytes → Bytes} {path : String}
    (h : fs.openFile change cwd path = .ok fs') : DirectoriesStay fs fs' := by
  simp only [openFile] at h
  split at h
  · cases h
  split at h
  · cases h
  next q _ =>
    split at h
    · cases h
    next hq =>
      split at h
      · cases h
      · cases h
        exact stay_put (by simp [hq])
    next hq =>
      split at h
      · cases h
      · cases h
        exact stay_put (by simp [hq])

theorem modifyFile_stay {change : Bytes → Bytes} {path : String}
    (h : fs.modifyFile change cwd path = .ok fs') : DirectoriesStay fs fs' := by
  simp only [modifyFile] at h
  split at h
  · cases h
  · cases h
  next q c hq =>
    cases h
    obtain ⟨-, -, -, hfile, -⟩ := walk_of_find hq
    exact stay_put (by simp [hfile])

theorem removeFile_stay {path : String} (h : fs.removeFile cwd path = .ok fs') :
    DirectoriesStay fs fs' := by
  simp only [removeFile] at h
  split at h
  · cases h
  · cases h
  next q c hq =>
    cases h
    obtain ⟨-, -, -, hfile, -⟩ := walk_of_find hq
    intro r hr
    have hne : q ≠ [] := by
      rintro rfl
      cases hfile
    rw [node?_erase _ _ hne, if_neg, hr]
    rintro rfl
    rw [hfile] at hr
    cases hr

end FileSystem

/-- Neither takes a directory away nor moves anything. -/
def Request.Gentle {β : Type} : Request β → Prop
  | .removeDirAll _ | .rename _ _ => False
  | _ => True

theorem World.change_stay {w : World} {o : Except IoError FileSystem}
    (h : ∀ fs', o = .ok fs' → FileSystem.DirectoriesStay w.files fs') :
    FileSystem.DirectoriesStay w.files (w.change o).2.files := by
  cases o with
  | error e => exact fun _ hp => hp
  | ok fs' => exact h fs' rfl

theorem Request.Gentle.stay {β : Type} {r : Request β} (h : r.Gentle) (w : World) :
    FileSystem.DirectoriesStay w.files (w.answer r).2.files := by
  cases r with
  | removeDirAll | rename => exact h.elim
  | createDirAll p => exact (FileSystem.createDirAll_makes p).directoriesStay
  | createFile | openAppend => exact World.change_stay fun _ => FileSystem.openFile_stay
  | write | sync => exact World.change_stay fun _ => FileSystem.modifyFile_stay
  | removeFile => exact World.change_stay fun _ => FileSystem.removeFile_stay
  | git d args =>
    intro p hp
    obtain ⟨runs, hruns⟩ := w.exists_runGit d args
    rw [World.answer, hruns]
    exact hp
  | pathExists | isFile | readFile | listDirectory | freshName | now | workingDirectory =>
    exact fun _ hp => hp

namespace Layout
open SourceDelta.Store (Action)
open SourceDelta.FileSystem (within placeOf)

variable {l : Layout} {cwd D B E C : Place} {fs fs' : FileSystem} {w w' : World} {a b : Area}
  {k : Key} {v : Weather} {X : Prop} {d e m n : String} {α β : Type}

/-- There is a directory for the code that is displaced. -/
def HasPrevious (l : Layout) (cwd : Place) (w : World) : Prop :=
  w.files.node? (l.codePlace cwd .previous) = some .directory

theorem not_within_codePlace (hd : Folder l (l.rootPlace cwd) d D B) (hn : '.' ∈ n.toList) :
    within (n :: D) (l.codePlace cwd a) = false := by
  rw [Bool.eq_false_iff, ne_eq, within_iff, codePlace]
  intro h
  have hlength := h.length_le
  have hroot := hd.fixture.root_suffix.length_le
  -- the only file that is as deep bears a name without a dot
  have hcode : n :: D = "code" :: a.name :: l.rootPlace cwd → False := by
    intro he
    rw [(List.cons.inj he).1] at hn
    revert hn
    decide
  have hdeep : (l.rootPlace cwd).length < D.length := by
    cases hd with
    | area | records => exact Nat.lt_succ_self _
    | code => exact Nat.lt_succ_of_lt (Nat.lt_succ_self _)
  simp only [List.length_cons] at hlength
  exact hcode (h.eq_of_length (by simp only [List.length_cons]; omega))

theorem HasPrevious.gentle {r : Request β} (h : HasPrevious l cwd w) (hr : r.Gentle) :
    HasPrevious l cwd (w.answer r).2 :=
  hr.stay w _ h

theorem HasPrevious.rename (h : HasPrevious l cwd w) (hw : w.place = cwd)
    (hd : Folder l (l.rootPlace cwd) d D B) (he : Folder l (l.rootPlace cwd) e E C)
    (hm : Path.IsPart m) (hn : Path.IsPart n) (hmdot : '.' ∈ m.toList) (hndot : '.' ∈ n.toList) :
    HasPrevious l cwd (w.answer (.rename (Path.join d m) (Path.join e n))).2 := by
  show HasPrevious l cwd (w.change _).2
  cases hx : w.files.rename w.place (Path.join d m) (Path.join e n) with
  | error e => exact h
  | ok fs' =>
    rw [hw] at hx
    have hoff : fs'.node? (l.codePlace cwd .previous) = w.files.node? _ :=
      FileSystem.rename_off hm hn hx (hd.placeOf ▸ not_within_codePlace hd hmdot)
        (he.placeOf ▸ not_within_codePlace he hndot)
    exact hoff.trans h

/-- The directory of displaced code stays, and a failure is that the system has refused a request, or
else `X`. -/
def Steady (v : Weather) (l : Layout) (cwd : Place) (X : Prop) (P : α → Prop)
    (t : SourceDelta.Task α) : Prop :=
  ∀ w, w.place = cwd → HasPrevious l cwd w →
    t.Ends v (fun o w' => HasPrevious l cwd w' ∧ match o with
    | .ok x => P x
    | .error e => e.refused = true ∨ X) w

theorem Steady.bind {P : α → Prop} {Q : β → Prop} {t : SourceDelta.Task α}
    {f : α → SourceDelta.Task β} (ht : Steady v l cwd X P t)
    (hf : ∀ x, P x → Steady v l cwd X Q (f x)) : Steady v l cwd X Q (t >>= f) := by
  intro w hw hp
  apply Task.ends_bind
  apply Task.ends_mono (Task.ends_and (ht w hw hp) (Task.ends_place t w))
  rintro (e | x) w' ⟨⟨hp', ho⟩, hplace⟩
  · exact ⟨hp', ho⟩
  · exact hf x ho w' (hplace.trans hw) hp'

theorem Steady.pure {P : α → Prop} {x : α} (h : P x) : Steady v l cwd X P (Pure.pure x) :=
  fun _ _ hp => Task.ends_pure ⟨hp, h⟩

theorem Steady.fail {P : α → Prop} {e : Failure} (h : e.refused = true ∨ X) :
    Steady v l cwd X P (Task.fail e) :=
  fun _ _ hp => Task.ends_fail ⟨hp, h⟩

theorem Steady.ask {r : Request β}
    (h : ∀ w, w.place = cwd → HasPrevious l cwd w → HasPrevious l cwd (w.answer r).2) :
    Steady v l cwd X (fun _ => True) (Task.ask r) :=
  fun w hw hp => Task.ends_reply (fun _ => ⟨h w hw hp, trivial⟩) fun _ _ _ _ _ => ⟨hp, trivial⟩

theorem Steady.gentle {r : Request β} (h : r.Gentle) :
    Steady v l cwd X (fun _ => True) (Task.ask r) :=
  .ask fun _ _ hp => hp.gentle h

theorem Steady.attempt {r : Request (Except IoError β)} {task : IoError → Failure}
    (htask : ∀ e, (task e).refused = true)
    (h : ∀ w, w.place = cwd → HasPrevious l cwd w → HasPrevious l cwd (w.answer r).2) :
    Steady v l cwd X (fun _ => True) (Task.attempt r task) := by
  have hreply : ∀ o : Except IoError β, match o.mapError task with
      | .ok _ => True
      | .error e => e.refused = true ∨ X := by
    intro o
    cases o with
    | ok x => trivial
    | error e => exact .inl (htask e)
  exact fun w hw hp => Task.ends_attempt (fun _ => ⟨h w hw hp, hreply _⟩)
    fun _ _ b _ _ => ⟨hp, hreply b⟩

theorem Steady.gentleAttempt {r : Request (Except IoError β)} {task : IoError → Failure}
    (htask : ∀ e, (task e).refused = true) (h : r.Gentle) :
    Steady v l cwd X (fun _ => True) (Task.attempt r task) :=
  .attempt htask fun _ _ hp => hp.gentle h

def Beside (d n : String) (s : Staged) : Prop :=
  ∃ t, s = ⟨Path.join d t, Path.join d n⟩ ∧ Path.IsPart t ∧ '.' ∈ t.toList

theorem steady_ensureParent (path : String) :
    Steady v l cwd X (fun _ => True) (Staged.ensureParent path) := by
  unfold Staged.ensureParent
  split
  · exact .pure trivial
  · split
    · exact .pure trivial
    · refine .bind (.gentle trivial) fun x _ => ?_
      split
      · exact .pure trivial
      · exact .gentleAttempt (fun _ => rfl) trivial

theorem steady_stage (hd : Folder l (l.rootPlace cwd) d D B) (hn : Path.IsPart n)
    (hX : n = ".." → X) (c : Bytes) :
    Steady v l cwd X (Beside d n) (Staged.stage (Path.join d n) c) := by
  unfold Staged.stage Staged.temporaryPath
  refine .bind (steady_ensureParent _) fun _ _ => ?_
  by_cases hdots : n = ".."
  · subst hdots
    rw [Path.fileName?_join_dots]
    exact .bind (P := fun _ => False) (.fail (.inr (hX rfl))) fun _ h => h.elim
  have hname : Path.IsName n := ⟨hn, hdots⟩
  rw [Path.fileName?_join hname, hd.parent? hn]
  refine .bind (P := fun path => ∃ t, path = Path.join d t ∧ Path.IsPart t ∧ '.' ∈ t.toList)
    (.bind (.gentle trivial) fun x _ => .pure ?_) fun path hpath => ?_
  · exact ⟨_, rfl, (isName_temporary hn.noSlash _ _).toIsPart, (temporary_name n _ _).dot_mem⟩
  · obtain ⟨t, rfl, ht, hdot⟩ := hpath
    refine .bind (.gentleAttempt (fun _ => rfl) trivial) fun _ _ => ?_
    refine .bind (P := fun _ => True) ?_ fun _ _ => .pure ⟨t, rfl, ht, hdot⟩
    have hremove : ∀ e, Steady v l cwd X (fun _ : Unit => True) (do
        let _ ← Task.ask (.removeFile (Path.join d t))
        Task.fail (.file (.writeTemporary (Path.join d t)) e)) :=
      fun e => .bind (.gentle trivial) fun _ _ => .fail (.inl rfl)
    unfold Staged.writeOut
    refine .bind (.gentle trivial) fun o _ => ?_
    cases o with
    | error e => exact hremove e
    | ok u =>
      refine .bind (.gentle trivial) fun o _ => ?_
      cases o with
      | error e => exact hremove e
      | ok u => exact .pure trivial

theorem steady_discard (s : Staged) : Steady v l cwd X (fun _ => True) s.discard :=
  .bind (.gentle trivial) fun _ _ => .pure trivial

theorem steady_commit (hd : Folder l (l.rootPlace cwd) d D B) (hn : Path.IsPart n)
    (hdot : '.' ∈ n.toList) {s : Staged} (hs : Beside d n s) :
    Steady v l cwd X (fun _ => True) s.commit := by
  obtain ⟨t, rfl, ht, htdot⟩ := hs
  unfold Staged.commit
  refine .bind (.ask fun _ hw hp => hp.rename hw hd hd ht hn htdot hdot) fun o _ => ?_
  cases o with
  | ok u => exact .pure trivial
  | error e => exact .bind (steady_discard _) fun _ _ => .fail (.inl rfl)

theorem steady_atomicWrite (hd : Folder l (l.rootPlace cwd) d D B) (hn : Path.IsPart n)
    (hdot : '.' ∈ n.toList) (hX : n = ".." → X) (c : Bytes) :
    Steady v l cwd X (fun _ => True) (atomicWrite (Path.join d n) c) :=
  .bind (steady_stage hd hn hX c) fun _ hs => steady_commit hd hn hdot hs

theorem steady_save (r : FlagRegistry) :
    Steady v l cwd X (fun _ => True) (r.save l.flagsPath) :=
  steady_atomicWrite .records isName_flags.toIsPart (by decide) (fun h => absurd h (by decide)) _

theorem steady_moveFile (hu : FileName.Storable l.extension.toList) (hX : l.fileName k = ".." → X)
    (a b : Area) : Steady v l cwd X (fun _ => True)
      (moveFile (l.artifactPath a k) (l.artifactPath b k)) := by
  have hn := isPart_fileName hu k
  have hdot := dot_mem_fileName (l := l) k
  have hd := folder_folder l cwd a k
  have he := folder_folder l cwd b k
  rw [artifactPath_eq l a, artifactPath_eq l b]
  unfold moveFile
  rw [he.parent? hn]
  refine .bind (.gentleAttempt (fun _ => rfl) trivial) fun _ _ => ?_
  refine .bind (.ask fun _ hw hp => hp.rename hw hd he hn hn hdot hdot) fun o _ => ?_
  rcases o with e | u
  · cases e
    case crossDevice =>
      refine .bind (.gentleAttempt (fun _ => rfl) trivial) fun c _ => ?_
      exact .bind (steady_atomicWrite he hn hdot hX c) fun _ _ =>
        .gentleAttempt (fun _ => rfl) trivial
    all_goals exact .fail (.inl rfl)
  · exact .pure trivial

theorem steady_append (path : String) (e : Journal.Entry) :
    Steady v l cwd X (fun _ => True) (Journal.append path e) := by
  have hlines : Steady v l cwd X (fun _ => True) (do
      Task.attempt (.openAppend path) (.file (.openJournal path))
      Task.attempt (.write path (Utf8.encode e.line)) (.file (.appendJournal path))
      Task.attempt (.write path (Utf8.encode "\n")) (.file (.appendJournal path))
      Task.attempt (.sync path) (.file (.appendJournal path)) : SourceDelta.Task Unit) :=
    .bind (.gentleAttempt (fun _ => rfl) trivial) fun _ _ =>
      .bind (.gentleAttempt (fun _ => rfl) trivial) fun _ _ =>
        .bind (.gentleAttempt (fun _ => rfl) trivial) fun _ _ =>
          .gentleAttempt (fun _ => rfl) trivial
  unfold Journal.append
  split
  · exact hlines
  · refine .bind (.gentle trivial) fun x _ => ?_
    split
    · exact hlines
    · exact .bind (.gentleAttempt (fun _ => rfl) trivial) fun _ _ => hlines

def SteadyAction (v : Weather) (l : Layout) (cwd : Place) (X : Prop) (P : α → Prop)
    (a : Action α) : Prop :=
  ∀ s w, s.layout = l → w.place = cwd → HasPrevious l cwd w →
    a.Ends v (fun o s' w' => s'.layout = l ∧ HasPrevious l cwd w' ∧ match o with
      | .ok x => P x
      | .error e => e.refused = true ∨ X) s w

theorem SteadyAction.bind {P : α → Prop} {Q : β → Prop} {a : Action α} {f : α → Action β}
    (ha : SteadyAction v l cwd X P a) (hf : ∀ x, P x → SteadyAction v l cwd X Q (f x)) :
    SteadyAction v l cwd X Q (a >>= f) := by
  intro s w hs hw hp
  apply Action.ends_bind
  apply Action.ends_mono (Action.ends_and (ha s w hs hw hp) (Action.ends_place a s w))
  rintro (e | x) s' w' ⟨⟨hs', hp', ho⟩, hplace⟩
  · exact ⟨hs', hp', ho⟩
  · exact hf x ho s' w' hs' (hplace.trans hw) hp'

theorem SteadyAction.pure {P : α → Prop} {x : α} (h : P x) :
    SteadyAction v l cwd X P (Pure.pure x) :=
  fun _ _ hs _ hp => Action.ends_pure ⟨hs, hp, h⟩

theorem SteadyAction.fail {P : α → Prop} {e : Failure} (h : e.refused = true ∨ X) :
    SteadyAction v l cwd X P (Store.fail e) :=
  fun _ _ hs _ hp => Action.ends_fail ⟨hs, hp, h⟩

theorem SteadyAction.get : SteadyAction v l cwd X (fun s => s.layout = l) (MonadState.get) :=
  fun _ _ hs _ hp => Action.ends_get ⟨hs, hp, hs⟩

theorem SteadyAction.set {s' : Store} (h : s'.layout = l) :
    SteadyAction v l cwd X (fun _ => True) (MonadStateOf.set s' : Action Unit) :=
  fun _ _ _ _ hp => Action.ends_set ⟨h, hp, trivial⟩

theorem SteadyAction.ofTask {P : α → Prop} {t : SourceDelta.Task α} (h : Steady v l cwd X P t) :
    SteadyAction v l cwd X P (Action.ofTask t) :=
  fun _ w hs hw hp => Action.ends_ofTask (Task.ends_mono (h w hw hp) fun _ _ ho => ⟨hs, ho⟩)

def SteadyOutcome (X : Prop) (P : α → Prop) : Except Failure α → Prop
  | .ok x => P x
  | .error e => e.refused = true ∨ X

theorem SteadyAction.outcome {P : α → Prop} {a : Action α} (h : SteadyAction v l cwd X P a) :
    SteadyAction v l cwd X (SteadyOutcome X P) (ExceptT.lift (ExceptT.run a)) := by
  intro s w hs hw hp
  apply Action.ends_outcome
  apply Action.ends_mono (h s w hs hw hp)
  rintro (e | x) s' w' ho
  · exact ho
  · exact ho

theorem SteadyAction.taskOutcome {P : α → Prop} {t : SourceDelta.Task α}
    (h : Steady v l cwd X P t) :
    SteadyAction v l cwd X (SteadyOutcome X P) (Action.ofTask (ExceptT.lift t.run)) := by
  intro s w hs hw hp
  apply Action.ends_ofTask
  apply Task.ends_outcome
  apply Task.ends_mono (h w hw hp)
  rintro (e | x) w' ho
  · exact ⟨hs, ho⟩
  · exact ⟨hs, ho⟩

theorem steady_record (action : Journal.Action) (key : Option Key) (details : Json) :
    SteadyAction v l cwd X (fun _ => True) (Store.record action key details) :=
  .bind .get fun _ _ => .bind (.ofTask (.gentle trivial)) fun _ _ =>
    .bind (.taskOutcome (steady_append _ _)) fun _ _ => .pure trivial

theorem steady_raise (k : Key) (f : Flag) :
    SteadyAction v l cwd X (fun _ => True) (Store.raise k f) := by
  unfold Store.raise
  refine .bind .get fun s hs => ?_
  split
  · exact .pure trivial
  · refine .bind (.set hs) fun _ _ => .ofTask ?_
    rw [hs]
    exact steady_save _

theorem steady_flag (k : Key) (f : Flag) :
    SteadyAction v l cwd X (fun _ => True) (Store.flag k f) :=
  .bind (steady_raise k f) fun _ _ => steady_record _ _ _

theorem steady_displace (hu : FileName.Storable l.extension.toList)
    (hX : l.fileName k = ".." → X) :
    SteadyAction v l cwd X (fun _ => True) (Store.displace k) := by
  have hmove : ∀ {s : Store}, s.layout = l → ∀ a b : Area,
      SteadyAction v l cwd X (fun _ => True) (Action.ofTask (moveFile (s.path a k) (s.path b k))) := by
    intro s hs a b
    rw [Store.path, Store.path, hs]
    exact .ofTask (steady_moveFile hu hX _ _)
  have hmoves : ∀ {s : Store}, s.layout = l → ∀ b : Bool, SteadyAction v l cwd X (fun _ => True)
      (if b = true then do
        Action.ofTask (moveFile (s.path .previous k) (s.path .baseline k))
        Action.ofTask (moveFile (s.path .current k) (s.path .previous k))
        pure b
      else do
        Action.ofTask (moveFile (s.path .current k) (s.path .previous k))
        pure b) := by
    intro s hs b
    split
    · exact .bind (hmove hs _ _) fun _ _ => .bind (hmove hs _ _) fun _ _ => .pure trivial
    · exact .bind (hmove hs _ _) fun _ _ => .pure trivial
  unfold Store.displace
  refine .bind .get fun s hs => .bind (.ofTask (.gentle trivial)) fun x _ => ?_
  split
  · exact .bind (.ofTask (.gentle trivial)) fun _ _ => hmoves hs _
  · exact .bind (.pure (P := fun _ => True) trivial) fun _ _ => hmoves hs _

theorem steady_undoDisplace (hu : FileName.Storable l.extension.toList)
    (hX : l.fileName k = ".." → X) (b : Bool) :
    SteadyAction v l cwd X (fun _ => True) (Store.undoDisplace k b) := by
  have hmove : ∀ {s : Store}, s.layout = l → ∀ a b : Area,
      Steady v l cwd X (fun _ => True) (moveFile (s.path a k) (s.path b k)) := by
    intro s hs a b
    rw [Store.path, Store.path, hs]
    exact steady_moveFile hu hX _ _
  unfold Store.undoDisplace
  refine .bind .get fun s hs => .bind (.taskOutcome (hmove hs _ _)) fun o _ => ?_
  split
  · exact .pure trivial
  · split
    · exact .bind (.taskOutcome (hmove hs _ _)) fun _ _ => .pure trivial
    · exact .pure trivial

theorem steady_writeBytes (hu : FileName.Storable l.extension.toList) (k : Key) (x : Bytes) :
    SteadyAction v l cwd (l.fileName k = "..") (fun _ => True) (Store.writeBytes k x) := by
  have hn := isPart_fileName hu k
  have hd := folder_folder l cwd .current k
  unfold Store.writeBytes
  refine .bind .get fun s hs => ?_
  have hpath : s.path .current k = Path.join (l.folder .current k) (l.fileName k) := by
    rw [Store.path, hs, artifactPath_eq]
  rw [hpath]
  refine .bind (.ofTask (steady_stage hd hn id x)) fun staged hstaged => ?_
  refine .bind (.ofTask (.gentle trivial)) fun hadCurrent _ => ?_
  refine .bind (.ofTask (.gentle trivial)) fun hadPrevious _ => ?_
  refine .bind (.outcome (P := fun _ => True) ?_) fun displaced hdisplaced => ?_
  · split
    · exact steady_displace hu id
    · exact .pure trivial
  cases displaced with
  | error e => exact .bind (.ofTask (steady_discard staged)) fun _ _ => .fail hdisplaced
  | ok b =>
    refine .bind (.taskOutcome (steady_commit hd hn (dot_mem_fileName k) hstaged)) fun o ho => ?_
    cases o with
    | error e =>
      dsimp only
      split
      · exact .bind (steady_undoDisplace hu id b) fun _ _ => .fail ho
      · exact .fail ho
    | ok u => exact .bind (steady_raise k _) fun _ _ => steady_record _ _ _

theorem steady_delete {s : Store} (hu : FileName.Storable l.extension.toList) (hs : s.layout = l)
    (hw : w.place = cwd) (hp : HasPrevious l cwd w) (hX : l.fileName k = ".." → X)
    (hmissing : w.files.pathExists cwd (l.artifactPath .current k) = false → X) :
    (Store.delete k).Ends v (fun o _ w' => HasPrevious l cwd w' ∧
      ∀ e, o = .error e → e.refused = true ∨ X) s w := by
  have hexists : (w.answer (.pathExists (s.path .current k))).1 =
      w.files.pathExists cwd (l.artifactPath .current k) := by
    rw [Store.path, hs, World.answer, hw]
  have hsame : ∀ p, (w.answer (.pathExists p)).2 = w := fun _ => rfl
  have hrest : SteadyAction v l cwd X (fun _ => True) (do
      let _ ← Store.displace k
      Store.raise k .deletion
      Store.record .delete (some k) Store.noDetails) :=
    .bind (steady_displace hu hX) fun _ _ =>
      .bind (steady_raise k _) fun _ _ => steady_record _ _ _
  unfold Store.delete
  apply Action.ends_bind
  apply Action.ends_get
  apply Action.ends_bind
  apply Action.ends_request (fun _ => rfl)
  simp only [hexists, hsame]
  split
  next =>
    apply Action.ends_mono (hrest s w hs hw hp)
    rintro (e | x) s' w' ⟨-, hp', ho⟩
    · exact ⟨hp', fun _ he => by cases he; exact ho⟩
    · exact ⟨hp', fun _ he => by cases he⟩
  next h =>
    exact Action.ends_fail ⟨hp, fun _ he => .inr (hmissing (by simpa using h))⟩

theorem hasPrevious_of_isDirectory
    (h : w.files.isDirectory cwd (l.codePath .previous) = true) : HasPrevious l cwd w := by
  have hplace : placeOf cwd (l.codePath .previous) = l.codePlace cwd .previous :=
    (Folder.code .previous : Folder l (l.rootPlace cwd) _ _ _).placeOf
  rw [HasPrevious, ← hplace]
  exact (FileSystem.isDirectory_iff.mp h).1.directory

theorem steady_load (path : String) :
    Steady v l cwd True (fun _ => True) (FlagRegistry.load path) := by
  unfold FlagRegistry.load
  refine .bind (.gentle trivial) fun x _ => ?_
  split
  · refine .bind (P := fun _ => True)
      (.bind (.attempt (fun _ => rfl) fun _ _ hp => hp) fun bytes _ => ?_) fun text _ => ?_
    · split
      · exact .pure trivial
      · exact .fail (.inr trivial)
    · split
      · exact .fail (.inr trivial)
      · split
        · exact .pure trivial
        · exact .fail (.inr trivial)
  · exact .pure trivial

theorem openAt_hasPrevious {i : Bool} (hw : w.place = cwd) :
    (Store.openAt l i).Ends v (fun o w' => ∀ s, o = .ok s → HasPrevious l cwd w') w := by
  unfold Store.openAt create
  apply Task.ends_bind
  apply Task.ends_mono (createAreas_makes l Area.all hw)
  rintro (e | ⟨⟩) w₁ ⟨hw₁, -, hdirs⟩
  · simp
  have hp₁ := hasPrevious_of_isDirectory (hdirs rfl .previous (by decide))
  apply Task.ends_bind
  apply Task.ends_mono (steady_load l.flagsPath w₁ hw₁ hp₁)
  rintro (e | r) w₂ ⟨hp₂, -⟩
  · simp
  · exact Task.ends_pure fun _ _ => hp₂

theorem reset_hasPrevious (hw : w.place = cwd) :
    (l.reset .previous).Ends v (fun o w' => o = .ok () → HasPrevious l cwd w') w := by
  have hcreate : ∀ w, w.place = cwd → Task.Ends v (fun o w' => o = .ok () → HasPrevious l cwd w')
      (Task.attempt (.createDirAll (l.codePath .previous))
        (.file (.recreateArea (l.areaPath .previous)))) w := by
    intro w hw
    apply Task.ends_attempt
    · intro _ ho
      apply hasPrevious_of_isDirectory
      simp only [World.answer, hw] at ho ⊢
      refine FileSystem.isDirectory_createDirAll (Path.join_ne_empty isName_code.toIsPart) ?_
      cases hx : (w.files.createDirAll cwd (l.codePath .previous)).1 with
      | ok u => rfl
      | error e =>
        rw [hx] at ho
        cases ho
    · intro _ e b _ hb
      cases hb
      exact fun ho => by cases ho
  unfold reset
  apply Task.ends_bind
  apply Task.ends_ask (fun _ => rfl)
  dsimp only
  split
  · apply Task.ends_bind
    apply Task.ends_mono (Task.ends_place _ _)
    rintro (e | ⟨⟩) w' hplace
    · exact fun ho => by cases ho
    · exact hcreate w' (hplace.trans hw)
  · exact hcreate w hw

theorem HasPrevious.removeBaseline (hp : HasPrevious l cwd w) (hw : w.place = cwd) :
    HasPrevious l cwd (w.answer (.removeDirAll (l.areaPath .baseline))).2 := by
  have hoff : within (Area.baseline.name :: l.rootPlace cwd) (l.codePlace cwd .previous) = false :=
    not_within_of_length (m := Area.previous.name) (by decide) ["code"] rfl
  simp only [World.answer, hw, HasPrevious]
  unfold FileSystem.removeDirAll
  split
  · exact hp
  · exact hp
  next q hq =>
    obtain ⟨t, ht, -⟩ := FileSystem.find_eq_ok hq
    have hplace : q = Area.baseline.name :: l.rootPlace cwd := by
      rw [(FileSystem.walk_of_find hq).2.2.1, areaPath, FileSystem.placeOf_join (isName_area _)]
      rfl
    obtain ⟨-, -, rfl⟩ := (FileSystem.target_join (isName_area .baseline).toIsPart).mp ht
    rw [ht, FileSystem.ofName_of_isName (isName_area .baseline)]
    dsimp only
    rw [hplace, FileSystem.node?_eraseTree _ _ (by simp), hoff]
    exact hp

theorem steady_reset : Steady v l cwd True (fun _ => True) (l.reset .baseline) := by
  have hcreate : Steady v l cwd True (fun _ => True)
      (Task.attempt (.createDirAll (l.codePath .baseline))
        (.file (.recreateArea (l.areaPath .baseline)))) := .gentleAttempt (fun _ => rfl) trivial
  unfold reset
  refine .bind (.gentle trivial) fun x _ => ?_
  dsimp only
  split
  · exact .bind (.attempt (fun _ => rfl) fun _ hw hp => hp.removeBaseline hw) fun _ _ => hcreate
  · exact hcreate

theorem clearHistory_hasPrevious {s : Store} (hs : s.layout = l) (hw : w.place = cwd) :
    Store.clearHistory.Ends v (fun o _ w' => o = .ok () → HasPrevious l cwd w') s w := by
  subst hs
  have hrest : SteadyAction v s.layout cwd True (fun _ => True) (do
      Action.ofTask (s.layout.reset .baseline)
      set { s with flags := FlagRegistry.empty }
      Action.ofTask (FlagRegistry.empty.save s.layout.flagsPath)
      Store.record .clearHistory none Store.noDetails : Action Unit) :=
    .bind (.ofTask steady_reset) fun _ _ => .bind (.set rfl) fun _ _ =>
      .bind (.ofTask (steady_save _)) fun _ _ => steady_record _ _ _
  unfold Store.clearHistory
  apply Action.ends_bind
  apply Action.ends_get
  dsimp only
  apply Action.ends_bind
  apply Action.ends_ofTask
  apply Task.ends_mono (Task.ends_and (reset_hasPrevious hw) (Task.ends_place _ w))
  rintro (e | ⟨⟩) w₁ ⟨hp₁, hplace⟩
  · exact fun ho => by cases ho
  · exact Action.ends_mono (hrest s w₁ rfl (hplace.trans hw) (hp₁ rfl)) fun _ _ _ h _ => h.2.1

def Neutral (v : Weather) (cwd : Place) (A : Store.Action α) : Prop :=
  ∀ s w, w.place = cwd → A.Ends v (fun _ s' w' => s' = s ∧ w'.place = cwd) s w

theorem neutral_ofTask (t : SourceDelta.Task α) : Neutral v cwd (Action.ofTask t) := fun _ w hw =>
  Action.ends_ofTask (Task.ends_mono (Task.ends_place t w) fun _ _ h => ⟨rfl, h.trans hw⟩)

theorem Neutral.bind {A : Store.Action α} {f : α → Store.Action β} (hA : Neutral v cwd A)
    (hf : ∀ x, Neutral v cwd (f x)) : Neutral v cwd (A >>= f) := by
  intro s w hw
  apply Action.ends_bind
  apply Action.ends_mono (hA s w hw)
  rintro (e | x) s' w' ⟨rfl, hw'⟩
  · exact ⟨rfl, hw'⟩
  · exact hf x s' w' hw'

theorem neutral_record (a : Journal.Action) (key : Option Key) (details : Json) :
    Neutral v cwd (Store.record a key details) := by
  intro s w hw
  unfold Store.record
  apply Action.ends_bind
  apply Action.ends_get
  have hwrite : ∀ time, Neutral v cwd (Action.ofTask (ExceptT.lift
      (Journal.append s.layout.journalPath ⟨time, a, key, details⟩).run) >>= fun _ => pure ()) :=
    fun time => (neutral_ofTask _).bind fun _ s w hw => Action.ends_pure ⟨rfl, hw⟩
  exact (neutral_ofTask _).bind hwrite s w hw

theorem Neutral.ends_bind {s : Store} {A : Store.Action α} {f : α → Store.Action Unit}
    (hA : Neutral v cwd A) (hw : w.place = cwd)
    (hf : ∀ x w', w'.place = cwd →
      (f x).Ends v (fun o _ w'' => o = .ok () → HasPrevious l cwd w'') s w') :
    (A >>= f).Ends v (fun o _ w' => o = .ok () → HasPrevious l cwd w') s w := by
  apply Action.ends_bind
  apply Action.ends_mono (hA s w hw)
  rintro (e | x) s' w' ⟨rfl, hw'⟩
  · exact fun ho => by cases ho
  · exact hf x w' hw'

theorem rollback_hasPrevious {s : Store} (hs : s.layout = l) (hw : w.place = cwd) :
    Store.rollback.Ends v (fun o _ w' => o = .ok () → HasPrevious l cwd w') s w := by
  unfold Store.rollback
  apply Action.ends_bind
  apply Action.ends_get
  refine (neutral_ofTask _).ends_bind hw fun _ w₁ hw₁ => ?_
  refine (neutral_ofTask _).ends_bind hw₁ fun ks w₂ hw₂ => ?_
  refine (neutral_ofTask _).ends_bind hw₂ fun _ w₃ hw₃ => ?_
  exact (neutral_record _ _ _).ends_bind hw₃ fun _ w₄ hw₄ => clearHistory_hasPrevious hs hw₄

end Layout

end SourceDelta
