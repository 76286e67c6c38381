import SourceDelta.Proofs.Runs

/-!
# Reading a store

What a store answers about its artifacts depends on nothing but its values and
its flags: two worlds with the same values give the same answers, errors
included.
-/

set_option autoImplicit false

namespace SourceDelta

def Store.values (s : Store) (w : World) : Key → Option Bytes :=
  fun k => ((s.readBytes k).run.run w).1.toOption

namespace Layout

variable {l : Layout} {cwd : Place} {fs fs' : FileSystem} {w w' : World} {s s' : Store} {k : Key}
  {a : Area} {c : Bytes}

theorem Sound.find_congr (h : Sound l cwd fs) (h' : Sound l cwd fs')
    (hD : fs.node? (l.folderPlace cwd a k) = some .directory)
    (hD' : fs'.node? (l.folderPlace cwd a k) = some .directory)
    (hk : l.held cwd fs' a k = l.held cwd fs a k) :
    fs'.find cwd (l.artifactPath a k) = fs.find cwd (l.artifactPath a k) := by
  have hd := folder_folder l cwd a k
  have hnode : fs'.node? (l.site cwd a k) = fs.node? (l.site cwd a k) := by
    cases hc : l.held cwd fs a k with
    | some c => rw [h.held_eq_some.mp hc, h'.held_eq_some.mp (hk.trans hc)]
    | none => rw [h.site_of_none hc, h'.site_of_none (hk.trans hc)]
  have hup : ∀ {fs : FileSystem}, Sound l cwd fs →
      fs.node? (l.folderPlace cwd a k) = some .directory →
      fs.node? (l.folderPlace cwd a k).tail = some .directory := by
    intro fs h hD
    cases k with
    | code p => exact h.area_of_code (Option.ne_none_iff_exists'.mpr ⟨_, hD⟩)
    | build => exact h.opens.directory
    | variability => exact h.opens.directory
  rw [artifactPath_eq]
  apply FileSystem.find_join_congr (isPart_fileName h.storable k) (h.opens_folder hd hD)
    (h'.opens_folder hd hD')
  · rw [hd.placeOf]
    exact hnode
  · rw [hd.placeOf, hup h hD, hup h' hD']

theorem Sound.find_current (h : Sound l cwd fs) (h' : Sound l cwd fs')
    (hk : l.held cwd fs' .current k = l.held cwd fs .current k) :
    fs'.find cwd (l.artifactPath .current k) = fs.find cwd (l.artifactPath .current k) :=
  h.find_congr h' (h.folder_current k) (h'.folder_current k) hk

theorem Sound.readFile_current (h : Sound l cwd fs) (h' : Sound l cwd fs')
    (hk : l.held cwd fs' .current k = l.held cwd fs .current k) :
    fs'.readFile cwd (l.artifactPath .current k) = fs.readFile cwd (l.artifactPath .current k) := by
  rw [FileSystem.readFile, FileSystem.readFile, h.find_current h' hk]

def answered (l : Layout) (a : Area) (g : Generation) (k : Key) :
    Except IoError Bytes → Except Failure Bytes
  | .ok bytes => .ok bytes
  | .error .noEntry => .error (.noValue k g)
  | .error e => .error (.file (.readArtifact k (l.artifactPath a k)) e)

theorem readArtifact_run (s : Store) (a : Area) (g : Generation) (k : Key) (w : World) :
    (s.readArtifact a g k).run.run w =
      (s.layout.answered a g k (w.files.readFile w.place (s.layout.artifactPath a k)), w) := by
  unfold Store.readArtifact
  rw [Task.run_bind, Task.run_ask]
  simp only [World.answer, Store.path]
  cases w.files.readFile w.place (s.layout.artifactPath a k) with
  | ok bytes => rfl
  | error e => cases e <;> rfl

theorem readBytes_run (s : Store) (k : Key) (w : World) :
    ((s.readBytes k).run.run w).1 =
      s.layout.answered .current .current k
        (w.files.readFile w.place (s.layout.artifactPath .current k)) := by
  rw [Store.readBytes, readArtifact_run]

theorem readBytes_congr (hl : s.layout = l) (hl' : s'.layout = l) (hf : Footing l cwd w)
    (hf' : Footing l cwd w') (hk : l.held cwd w'.files .current k = l.held cwd w.files .current k) :
    ((s'.readBytes k).run.run w').1 = ((s.readBytes k).run.run w).1 := by
  rw [readBytes_run, readBytes_run, hl, hl', hf.place, hf'.place,
    hf.sound.readFile_current hf'.sound hk]

theorem readBytes_held (hl : s.layout = l) (hf : Footing l cwd w)
    (hk : l.held cwd w.files .current k = some c) :
    ((s.readBytes k).run.run w).1 = .ok c := by
  rw [readBytes_run, hl, hf.place, hf.sound.readFile hk]
  rfl

theorem readBytes_missing (hl : s.layout = l) (hf : Footing l cwd w)
    (hk : l.held cwd w.files .current k = none) (hh : Holdable l .current k) :
    ((s.readBytes k).run.run w).1 = .error (.noValue k .current) := by
  rw [readBytes_run, hl, hf.place,
    hf.sound.readFile_none hk hh (hf.sound.folder_current k)]
  rfl

theorem readBytes_ok (hl : s.layout = l) (hf : Footing l cwd w) :
    ((s.readBytes k).run.run w).1 = .ok c ↔ l.held cwd w.files .current k = some c := by
  refine ⟨fun h => ?_, readBytes_held hl hf⟩
  rw [readBytes_run, hl, hf.place] at h
  cases hr : w.files.readFile cwd (l.artifactPath .current k) with
  | error e =>
    rw [hr] at h
    cases e <;> cases h
  | ok d =>
    rw [hr] at h
    cases h
    exact hf.sound.held_of_readFile hr

theorem values_eq (hl : s.layout = l) (hf : Footing l cwd w) :
    s.values w = l.held cwd w.files .current := by
  funext k
  ext c
  rw [← readBytes_ok hl hf, Store.values]
  cases ((s.readBytes k).run.run w).1 with
  | ok d => simp [Except.toOption]
  | error e => simp [Except.toOption]

/-- The previous value, or the current one of an artifact that is neither changed nor new. -/
theorem readPreviousBytes_run (hl : s.layout = l) (hf : Footing l cwd w)
    (hn : l.fileName k ≠ "..") :
    ((s.readPreviousBytes k).run.run w).1 = match l.held cwd w.files .previous k with
      | some c => .ok c
      | none =>
        if s.flags.has k .addition then .error (.noValueBefore k)
        else l.answered .current .previous k (w.files.readFile cwd (l.artifactPath .current k)) := by
  unfold Store.readPreviousBytes
  rw [Task.run_bind, Task.run_ask]
  simp only [Store.path, hl, hf.pathExists_artifact hn]
  cases hp : l.held cwd w.files .previous k with
  | some c =>
    simp only [Option.isSome_some, if_true]
    rw [readArtifact_run, hl, hf.place, hf.sound.readFile hp]
    rfl
  | none =>
    simp only [Option.isSome_none, Bool.false_eq_true, if_false]
    split
    · rfl
    · rw [readArtifact_run, hl, hf.place]

theorem answered_ok {g : Generation} {o : Except IoError Bytes} :
    l.answered a g k o = .ok c ↔ o = .ok c := by
  cases o with
  | ok bytes =>
    rw [answered, Except.ok.injEq, Except.ok.injEq]
  | error e => cases e <;> exact ⟨nofun, nofun⟩

theorem readPreviousBytes_ok (hl : s.layout = l) (hf : Footing l cwd w) :
    ((s.readPreviousBytes k).run.run w).1 = .ok c ↔
      (l.held cwd w.files .previous k).or
        (if s.flags.has k .addition then none else l.held cwd w.files .current k) = some c := by
  by_cases hn : l.fileName k = ".."
  · -- no value has this name
    have hnone : ∀ a, l.held cwd w.files a k = none := fun a => hf.sound.held_nameless hn
    have hread : ∀ a g, l.answered a g k (w.files.readFile cwd (l.artifactPath a k)) ≠ .ok c := by
      intro a g h
      have hk := hf.sound.held_of_readFile (answered_ok.mp h)
      rw [hnone] at hk
      cases hk
    refine iff_of_false ?_ (by simp [hnone])
    unfold Store.readPreviousBytes
    rw [Task.run_bind, Task.run_ask]
    simp only [hf.pathExists]
    split
    · rw [readArtifact_run, hl, hf.place]
      exact hread _ _
    · split
      · exact nofun
      · rw [readArtifact_run, hl, hf.place]
        exact hread _ _
  · rw [readPreviousBytes_run hl hf hn]
    cases hp : l.held cwd w.files .previous k with
    | some p => simp
    | none =>
      rw [Option.none_or]
      dsimp only
      split
      · exact iff_of_false nofun nofun
      · rw [answered_ok]
        exact ⟨hf.sound.held_of_readFile, hf.sound.readFile⟩

theorem readPreviousBytes_missing (hl : s.layout = l) (hf : Footing l cwd w)
    (hh : Holdable l .current k)
    (hk : (l.held cwd w.files .previous k).or
      (if s.flags.has k .addition then none else l.held cwd w.files .current k) = none) :
    ∃ e, ((s.readPreviousBytes k).run.run w).1 = .error e ∧ e.category = .notFound := by
  rw [Option.or_eq_none_iff] at hk
  rw [readPreviousBytes_run hl hf hh.name.ne_dots, hk.1]
  dsimp only
  split
  · exact ⟨_, rfl, rfl⟩
  next hr =>
    rw [if_neg hr] at hk
    rw [hf.sound.readFile_none hk.2 hh (hf.sound.folder_current k)]
    exact ⟨_, rfl, rfl⟩

theorem contains_run (hl : s.layout = l) (hf : Footing l cwd w) (hn : l.fileName k ≠ "..") :
    ((s.contains k).run.run w).1 = .ok (l.held cwd w.files .current k).isSome := by
  rw [Store.contains, Task.run_ask, Store.path, hl]
  show Except.ok (w.files.pathExists w.place (l.artifactPath .current k)) = _
  rw [hf.place, hf.sound.pathExists hn]

theorem light_keys (l : Layout) (a : Area) : (l.keys a).run.Light := by
  have hrest : ∀ ns : List String, (do
      let hasBuild ← Task.ask (.pathExists (l.artifactPath a .build))
      let hasModel ← Task.ask (.pathExists (l.artifactPath a .variability))
      pure ((l.codePaths ns).map Key.code ++
        (if hasBuild then [Key.build] else []) ++
        (if hasModel then [Key.variability] else [])) : SourceDelta.Task (List Key)).run.Light := by
    intro ns
    apply Task.light_bind (Task.light_ask fun _ => rfl)
    intro hasBuild
    exact Task.light_bind (Task.light_ask fun _ => rfl) fun _ => trivial
  unfold keys
  apply Task.light_bind (Task.light_ask fun _ => rfl)
  intro present
  split
  · exact Task.light_bind (Task.light_attempt fun _ => rfl) hrest
  · exact Task.light_bind trivial hrest

theorem listed_run (hf : Footing l cwd w) (a : Area) :
    (l.keys a).run.run w = (.ok (l.listed cwd w.files a), w) := by
  have hends := Script.run_of_roomy (keys_ends (v := .calm) hf a)
    (Script.roomy_of_light (light_keys l a) w)
  generalize (l.keys a).run.run w = p at hends
  obtain ⟨o, w'⟩ := p
  obtain ⟨hw, ho⟩ := hends
  cases o with
  | error e => exact absurd ho Weather.not_rough_calm
  | ok ks =>
    obtain rfl : w' = w := hw
    obtain rfl : ks = l.listed cwd w'.files a := ho
    rfl

theorem keys_run (hl : s.layout = l) (hf : Footing l cwd w) (kind : ArtifactKind) :
    (s.keys kind).run.run w =
      (.ok ((l.listed cwd w.files .current).filter (·.kind == kind)), w) := by
  unfold Store.keys
  rw [Task.run_bind, hl, listed_run hf]
  rfl

end Layout

end SourceDelta
