import SourceDelta.Proofs.Registry
import SourceDelta.Proofs.Upkeep

/-!
# Opening a store

A store that is opened on an empty root has sound files, no values and no flags.
A store that is opened again has the values that it had, and the flags of its
document.
-/

set_option autoImplicit false

namespace SourceDelta.FileSystem

variable {fs fs' : FileSystem} {cwd : Place} {d n : String}

theorem Opens.of_join (hn : Path.IsPart n) (h : fs.Opens cwd (Path.join d n)) : fs.Opens cwd d := by
  have hw := h.walks
  rw [Path.names_join hn, startOf, Path.isAbsolute_join hn, ← startOf, walk_append] at hw
  split at hw
  next e he =>
    have hplace : e = placeOf cwd d := walk_eq_ok he
    simp only [walk] at hw
    split at hw
    next hs =>
      exact ⟨hplace ▸ he, hplace ▸ (step_eq_ok hs).1⟩
    next => cases hw
  next => cases hw

theorem Makes.tree {way : Place → Prop} {R : Place} (h : Makes way fs fs')
    (ht : ∀ n d, R <:+ d → fs.node? (n :: d) ≠ none → fs.node? d = some .directory) (n : String)
    (d : Place) (hd : R <:+ d) (hn : fs'.node? (n :: d) ≠ none) :
    fs'.node? d = some .directory := by
  induction h generalizing n d with
  | refl => exact ht n d hd hn
  | @put fs' p before onWay none around ih =>
    have hput : ∀ q, (fs'.put p .directory).node? q =
        if q = p then some .directory else fs'.node? q :=
      fun q => node?_put _ _ _ (ne_nil_of_node?_none none)
    rw [hput] at hn ⊢
    split at hn
    next hq =>
      -- the new directory itself: nothing stood below it, so it was made in a directory
      subst hq
      split
      · rfl
      · rcases around with h | ⟨m, hm⟩
        · exact h
        · have := ih m (n :: d) (hd.trans (List.suffix_cons _ _)) (by simp [hm])
          rw [none] at this
          cases this
    next =>
      split
      · rfl
      · exact ih n d hd hn

end SourceDelta.FileSystem

namespace SourceDelta.Layout
open SourceDelta.FileSystem (Fits Opens Makes OnWay placeOf startOf lead within below maxName)

variable {l : Layout} {cwd p : Place} {fs fs' : FileSystem} {w w' : World} {a : Area} {k : Key}
  {v : Weather}

/-- Nothing stands below the root, and the way to the root does not lead through the store. -/
structure Vacant (l : Layout) (cwd : Place) (fs : FileSystem) : Prop where
  empty : ∀ p, below (l.rootPlace cwd) p = true → fs.node? p = none
  outside : ∀ xs, xs <+: (Path.names l.root).1 →
    below (l.rootPlace cwd) (lead (startOf cwd l.root) xs) = false

theorem vacant_of_opens (ho : fs.Opens cwd l.root)
    (he : ∀ p, below (l.rootPlace cwd) p = true → fs.node? p = none) : Vacant l cwd fs := by
  refine ⟨he, fun xs hxs => ?_⟩
  rw [Bool.eq_false_iff]
  intro hb
  obtain ⟨ys, hys⟩ := hxs
  have hw := ho.walks
  rw [← hys, FileSystem.walk_append] at hw
  cases hx : fs.walk (startOf cwd l.root) xs with
  | error e =>
    rw [hx] at hw
    cases hw
  | ok d =>
    rw [hx] at hw
    obtain rfl := FileSystem.walk_eq_ok hx
    have hnone := he _ hb
    cases ys with
    | nil =>
      exact (FileSystem.below_iff.mp hb).2 (Except.ok.inj hw)
    | cons y ys =>
      simp only [FileSystem.walk] at hw
      split at hw
      next hs =>
        rw [(FileSystem.step_eq_ok hs).1] at hnone
        cases hnone
      next => cases hw

theorem vacant_of_plain (hplain : ".." ∉ (Path.names l.root).1)
    (he : ∀ p, below (l.rootPlace cwd) p = true → fs.node? p = none) : Vacant l cwd fs := by
  have hsuffix : ∀ (ys : List String) (d : Place), ".." ∉ ys → d <:+ lead d ys := by
    intro ys
    induction ys with
    | nil => exact fun d _ => List.suffix_rfl
    | cons y ys ih =>
      intro d hy
      rw [List.mem_cons, not_or] at hy
      have hstep : d <:+ FileSystem.onward d (.ofName y) := by
        simp only [FileSystem.Last.ofName, Ne.symm hy.1, if_false]
        split
        · exact List.suffix_rfl
        · exact List.suffix_cons y d
      exact hstep.trans (ih _ hy.2)
  refine ⟨he, fun xs hxs => ?_⟩
  rw [Bool.eq_false_iff]
  intro hb
  obtain ⟨ys, hys⟩ := hxs
  have hroot : l.rootPlace cwd = lead (lead (startOf cwd l.root) xs) ys := by
    rw [rootPlace, placeOf, ← hys, FileSystem.lead_append]
  have hle := hsuffix ys (lead (startOf cwd l.root) xs) fun hm => hplain (by simp [← hys, hm])
  rw [← hroot] at hle
  obtain ⟨hge, hne⟩ := FileSystem.below_iff.mp hb
  exact hne (List.IsSuffix.eq_of_length hle (Nat.le_antisymm hle.length_le hge.length_le))

theorem Vacant.fixture_of_onWay (h : Vacant l cwd fs) (hp : OnWay cwd (l.codePath a) p)
    (hb : below (l.rootPlace cwd) p = true) : Fixture (l.rootPlace cwd) p := by
  have ha := (isName_area a).toIsPart
  have hc := isName_code.toIsPart
  obtain ⟨xs, hxs, rfl⟩ := hp
  have hstart : startOf cwd (l.codePath a) = startOf cwd l.root := by
    rw [startOf, startOf, codePath, Path.isAbsolute_join hc, areaPath, Path.isAbsolute_join ha]
  rw [hstart] at hb ⊢
  rw [codePath, Path.names_join hc, areaPath, Path.names_join ha] at hxs
  have hlead : ∀ n, Path.IsName n → ∀ ys, lead (startOf cwd l.root) (ys ++ [n]) =
      n :: lead (startOf cwd l.root) ys := by
    intro n hn ys
    rw [FileSystem.lead_append]
    simp [lead, FileSystem.ofName_of_isName hn, FileSystem.onward]
  rcases List.prefix_concat_iff.mp hxs with rfl | hxs
  · rw [hlead _ isName_code, hlead _ (isName_area a)]
    exact .code a
  · rcases List.prefix_concat_iff.mp hxs with rfl | hxs
    · rw [hlead _ (isName_area a)]
      exact .area a
    · rw [h.outside xs hxs] at hb
      cases hb

theorem Vacant.distinct (h : Vacant l cwd fs) : fs.DistinctBelow (l.rootPlace cwd) := by
  have hnil : (fs.nodes.map Prod.fst).filter (below (l.rootPlace cwd)) = [] := by
    rw [List.filter_eq_nil_iff]
    intro p hp hb
    have hne := FileSystem.below_ne_nil hb
    have hnone := h.empty p hb
    rw [FileSystem.node?_of_ne_nil hne, List.lookup_eq_none_iff] at hnone
    obtain ⟨e, he, rfl⟩ := List.mem_map.mp hp
    simpa using hnone e he
  rw [FileSystem.DistinctBelow, hnil]
  exact .nil

theorem Vacant.sound (h : Vacant l cwd fs) (hu : FileName.Storable l.extension.toList)
    (hm : Makes (fun p => ∃ a, OnWay cwd (l.codePath a) p) fs fs')
    (hd : ∀ a, fs'.isDirectory cwd (l.codePath a) = true) :
    Sound l cwd fs' ∧ ∀ p c, below (l.rootPlace cwd) p = true → fs'.node? p ≠ some (.file c) := by
  have hnew : ∀ p, below (l.rootPlace cwd) p = true → fs'.node? p ≠ none →
      fs'.node? p = some .directory ∧ Fixture (l.rootPlace cwd) p := by
    intro p hp hn
    rcases hm.node? p with he | ⟨-, hdir, a, ha⟩
    · rw [he, h.empty p hp] at hn
      exact absurd rfl hn
    · exact ⟨hdir, h.fixture_of_onWay ha hp⟩
  have hdirs := fun a => FileSystem.isDirectory_iff.mp (hd a)
  refine ⟨{
    storable := hu
    fits := fun a => (hdirs a).2.1
    outside := h.outside
    opens := ?_, tree := ?_, fixture := ?_, noFile := ?_, names := ?_, holdable := ?_
    flagsFit := ?_
    distinct := hm.distinctBelow h.distinct
    current := ?_ }, ?_⟩
  · exact ((hdirs .current).1.of_join isName_code.toIsPart).of_join (isName_area .current).toIsPart
  · apply hm.tree
    intro n d hd hn
    exact absurd (h.empty _ (FileSystem.below_cons hd n)) hn
  · intro p hp hdir
    exact (hnew p hp (by simp [hdir])).2
  · intro p hp c hc
    have hb : below (l.rootPlace cwd) p = true := by
      cases hp
      · exact FileSystem.below_cons List.suffix_rfl _
      · exact FileSystem.below_cons (suffix_cons_self _ _) _
      · exact FileSystem.below_cons List.suffix_rfl _
    rw [(hnew p hb (by simp [hc])).1] at hc
    cases hc
  · intro n d hd hn
    exact (hnew _ (FileSystem.below_cons hd n) hn).2.isName
  · intro a k hs
    exact absurd (hnew _ (below_site a k) hs).2 (not_fixture_site k)
  · intro hs
    exact absurd (hnew _ below_flagsPlace hs).2 not_fixture_flagsPlace
  · have := (hdirs .current).1.directory
    rwa [codePath, FileSystem.placeOf_join isName_code, areaPath,
      FileSystem.placeOf_join (isName_area .current)] at this
  · intro p c hp hc
    rw [(hnew p hp (by simp [hc])).1] at hc
    cases hc

theorem createAreas_makes (l : Layout) (areas : List Area) (hw : w.place = cwd) :
    (l.createAreas areas).Ends v (fun o w' => w'.place = cwd ∧
      Makes (fun p => ∃ a, OnWay cwd (l.codePath a) p) w.files w'.files ∧
      (o = .ok () → ∀ a ∈ areas, w'.files.isDirectory cwd (l.codePath a) = true)) w := by
  induction areas generalizing w with
  | nil => exact Task.ends_pure ⟨hw, .refl, by simp⟩
  | cons a rest ih =>
    unfold createAreas
    apply Task.ends_bind
    apply Task.ends_attempt
    · intro _
      have hm : Makes (fun p => ∃ a, OnWay cwd (l.codePath a) p) w.files
          (w.files.createDirAll cwd (l.codePath a)).2 :=
        (FileSystem.createDirAll_makes (l.codePath a)).mono fun p hp => ⟨a, hp⟩
      have hdir : (w.files.createDirAll cwd (l.codePath a)).1 = .ok () →
          (w.files.createDirAll cwd (l.codePath a)).2.isDirectory cwd (l.codePath a) = true :=
        FileSystem.isDirectory_createDirAll (Path.join_ne_empty isName_code.toIsPart)
      have hanswer : w.answer (.createDirAll (l.codePath a)) =
          ((w.files.createDirAll cwd (l.codePath a)).1,
            { w with files := (w.files.createDirAll cwd (l.codePath a)).2 }) := by
        rw [World.answer, hw]
      rw [hanswer]
      cases hx : (w.files.createDirAll cwd (l.codePath a)).1 with
      | error e => exact ⟨hw, hm, by simp⟩
      | ok u =>
        apply Task.ends_mono (ih (w := { w with
          files := (w.files.createDirAll cwd (l.codePath a)).2 }) hw)
        rintro o w' ⟨hw', hm', ho⟩
        refine ⟨hw', hm.trans hm', ?_⟩
        intro he b hb
        rcases List.mem_cons.mp hb with rfl | hb
        · exact hm'.directoriesStay.isDirectory (hdir hx)
        · exact ho he b hb
    · intro _ e b _ hb
      cases hb
      exact ⟨hw, .refl, by simp⟩

theorem Sound.reaches_flags (h : Sound l cwd fs) (hd : l.document cwd fs ≠ none) :
    fs.Reaches cwd l.flagsPath ("meta" :: l.rootPlace cwd) "flags.json" := by
  have hn : fs.node? (l.flagsPlace cwd) ≠ none := by
    intro hn
    exact hd (by rw [document, FileSystem.content?, hn])
  exact h.reaches .records (h.tree _ _ (suffix_cons_self _ _) hn) isName_flags (by decide)
    (h.flagsFit hn)

theorem Sound.pathExists_flags (h : Sound l cwd fs) :
    fs.pathExists cwd l.flagsPath = (l.document cwd fs).isSome := by
  have hnot := h.not_directory below_flagsPlace not_fixture_flagsPlace
  cases hd : l.document cwd fs with
  | some c =>
    have hn := FileSystem.content?_eq_some.mp hd
    rw [(h.reaches_flags (by simp [hd])).pathExists]
    rw [flagsPlace] at hn
    simp [hn]
  | none =>
    have hnone := FileSystem.node?_of_content?_none hnot hd
    rw [FileSystem.pathExists]
    split
    next p hp =>
      obtain ⟨-, -, hplace, hnode, -⟩ := FileSystem.walk_of_find hp
      have hflags : placeOf cwd l.flagsPath = l.flagsPlace cwd := by
        rw [flagsPath, FileSystem.placeOf_join isName_flags, FileSystem.placeOf_join isName_meta]
        rfl
      rw [hplace, hflags, hnone] at hnode
      cases hnode
    next => rfl

/-- The flags document is that of the registry; a registry without flags needs none. -/
def Recorded (l : Layout) (cwd : Place) (fs : FileSystem) (r : FlagRegistry) : Prop :=
  l.document cwd fs = some (Utf8.encode r.toJson.indented) ∨
    l.document cwd fs = none ∧ r = FlagRegistry.empty

theorem load_ends {r : FlagRegistry} (hf : Footing l cwd w) (hr : Recorded l cwd w.files r)
    (ho : r.Ordered) : (FlagRegistry.load l.flagsPath).Ends v (fun o w' => w' = w ∧ match o with
      | .ok r' => r' = r
      | .error _ => v.Rough) w := by
  unfold FlagRegistry.load
  apply Task.ends_bind
  apply Task.ends_ask (fun _ => rfl)
  simp only [hf.pathExists, hf.sound.pathExists_flags]
  rcases hr with hd | ⟨hd, rfl⟩
  · rw [hd]
    simp only [Option.isSome_some, if_true]
    apply Task.ends_bind
    unfold Task.readText
    apply Task.ends_bind
    apply Task.ends_attempt
    · intro _
      have hread : w.answer (.readFile l.flagsPath) =
          (.ok (Utf8.encode r.toJson.indented), w) := by
        rw [World.answer, hf.place, (hf.sound.reaches_flags (by simp [hd])).readFile
          (FileSystem.content?_eq_some.mp hd)]
      have hdocument := FlagRegistry.document_roundtrip ho
      rw [hread]
      simp only [Except.mapError, Utf8.decode?_encode]
      apply Task.ends_pure
      dsimp only
      cases hx : (Json.take? FlagRegistry.wanted r.toJson.indented).bind
          FlagRegistry.document? with
      | none =>
        rw [hx] at hdocument
        cases hdocument
      | some d =>
        obtain ⟨version, records⟩ := d
        rw [hx, Option.map_some, Option.some.injEq, Prod.mk.injEq] at hdocument
        obtain ⟨rfl, h2⟩ := hdocument
        simp only [if_true]
        exact Task.ends_pure ⟨rfl, h2⟩
    · intro hr e b _ hb
      cases hb
      exact ⟨rfl, hr⟩
  · rw [hd]
    simp only [Option.isSome_none, Bool.false_eq_true, if_false]
    exact Task.ends_pure ⟨rfl, rfl⟩

theorem createAreas_ends (areas : List Area) (hf : Footing l cwd w) :
    (l.createAreas areas).Ends v (fun o w' => Footing l cwd w' ∧
      l.held cwd w'.files = l.held cwd w.files ∧
      RecordsStay l cwd w.files w'.files ∧ ∀ e, o = .error e → v.Rough) w := by
  induction areas generalizing w with
  | nil => exact Task.ends_pure ⟨hf, rfl, .refl _, by simp⟩
  | cons a rest ih =>
    unfold createAreas
    apply Task.ends_bind
    apply Task.ends_attempt
    · intro _
      obtain ⟨w₁, hmade, hf₁, -, hb⟩ := hf.createDirAll (.code a)
      simp only [hmade, Except.mapError]
      apply Task.ends_mono (ih hf₁)
      rintro o w' ⟨hf', hheld, hstay, ho⟩
      exact ⟨hf', hheld.trans (hb.aside.held hf.sound.storable), hb.aside.records.trans hstay, ho⟩
    · intro hr e b _ hb
      cases hb
      exact ⟨hf, rfl, .refl _, fun _ _ => hr⟩

/-- A store that is opened again has the values that it had, and the flags of its document. -/
theorem openAt_ends {r : FlagRegistry} {i : Bool} (hf : Footing l cwd w)
    (hr : Recorded l cwd w.files r) (ho : r.Ordered) :
    (Store.openAt l i).Ends v (fun o w' => Footing l cwd w' ∧
      l.held cwd w'.files = l.held cwd w.files ∧
      RecordsStay l cwd w.files w'.files ∧
      (∀ s, o = .ok s → s = ⟨l, i, r⟩) ∧ ∀ e, o = .error e → v.Rough) w := by
  unfold Store.openAt create
  apply Task.ends_bind
  apply Task.ends_mono (createAreas_ends Area.all hf)
  rintro (e | ⟨⟩) w₁ ⟨hf₁, hheld, hstay, herror⟩
  · exact ⟨hf₁, hheld, hstay, by simp, fun _ _ => herror e rfl⟩
  have hr₁ : Recorded l cwd w₁.files r := by
    rw [Recorded, hstay.document]
    exact hr
  apply Task.ends_bind
  apply Task.ends_mono (load_ends hf₁ hr₁ ho)
  rintro (e | r') w₂ ⟨rfl, hload⟩
  · exact ⟨hf₁, hheld, hstay, by simp, fun _ _ => hload⟩
  · subst hload
    exact Task.ends_pure ⟨hf₁, hheld, hstay, by simp, by simp⟩

theorem roomy_createAreas (areas : List Area) (hf : Footing l cwd w) :
    (l.createAreas areas).run.roomy w = true := by
  induction areas generalizing w with
  | nil => rfl
  | cons a rest ih =>
    obtain ⟨w₁, hmade, hf₁, -, -⟩ := hf.createDirAll (.code a)
    unfold createAreas
    rw [Task.roomy_bind, Task.roomy_attempt, Task.run_attempt, hmade]
    simpa [Request.lacksRoom, Except.mapError] using ih hf₁

theorem light_load (path : String) : (FlagRegistry.load path).run.Light := by
  unfold FlagRegistry.load
  apply Task.light_bind (Task.light_ask fun _ => rfl)
  intro present
  split
  · apply Task.light_bind
    · apply Task.light_bind (Task.light_attempt fun _ => rfl)
      intro bytes
      split <;> trivial
    · intro text
      split
      · trivial
      · split <;> trivial
  · trivial

theorem openAt_run {r : FlagRegistry} (hf : Footing l cwd w) (hr : Recorded l cwd w.files r)
    (ho : r.Ordered) (i : Bool) :
    ∃ w', (Store.openAt l i).run.run w = (.ok ⟨l, i, r⟩, w') := by
  have hroom := roomy_createAreas Area.all hf
  have hopen : (Store.openAt l i).run.roomy w = true := by
    unfold Store.openAt create
    rw [Task.roomy_bind, hroom, Bool.true_and]
    split
    · rw [Task.roomy_bind, Script.roomy_of_light (light_load _), Bool.true_and]
      split <;> rfl
    · rfl
  obtain ⟨-, -, -, hok, herror⟩ :=
    Script.run_of_roomy (openAt_ends (v := .calm) (i := i) hf hr ho) hopen
  generalize (Store.openAt l i).run.run w = p at hok herror
  obtain ⟨o, w'⟩ := p
  cases o with
  | ok s => exact ⟨w', by rw [hok s rfl]⟩
  | error e => exact absurd (herror e rfl) Weather.not_rough_calm

theorem openAt_vacant_ends {i : Bool} (hw : w.place = cwd) (hv : Vacant l cwd w.files)
    (hu : FileName.Storable l.extension.toList) :
    (Store.openAt l i).Ends v (fun o w' => ∀ s, o = .ok s → s = ⟨l, i, .empty⟩ ∧
      Footing l cwd w' ∧ (∀ a, Emptied l cwd a w'.files) ∧
      l.document cwd w'.files = none ∧ l.journal cwd w'.files = none) w := by
  unfold Store.openAt create
  apply Task.ends_bind
  apply Task.ends_mono (createAreas_makes l Area.all hw)
  rintro (e | ⟨⟩) w₁ ⟨hw₁, hmakes, hdirs⟩
  · simp
  have hmem : ∀ a, a ∈ Area.all := by
    intro a
    cases a <;> decide
  obtain ⟨hs, hno⟩ := hv.sound hu hmakes fun a => hdirs rfl a (hmem a)
  have hf₁ : Footing l cwd w₁ := ⟨hw₁, hs⟩
  have hnone : ∀ p, below (l.rootPlace cwd) p = true → w₁.files.content? p = none := by
    intro p hp
    rw [FileSystem.content?]
    split
    next c hc => exact absurd hc (hno p c hp)
    next => rfl
  have hdoc : l.document cwd w₁.files = none := hnone _ below_flagsPlace
  have hempty : ∀ a, Emptied l cwd a w₁.files := by
    intro a q c hq
    apply hno
    rw [within_iff] at hq
    refine FileSystem.below_iff.mpr ⟨(suffix_cons_self _ _).trans hq, ?_⟩
    rintro rfl
    have := hq.length_le
    simp at this
  apply Task.ends_bind
  apply Task.ends_mono (load_ends hf₁ (.inr ⟨hdoc, rfl⟩) FlagRegistry.ordered_empty)
  rintro (e | r') w₂ ⟨rfl, hload⟩
  · simp
  · subst hload
    exact Task.ends_pure fun s hs =>
      ⟨by cases hs; rfl, hf₁, hempty, hdoc, hnone _ below_journalPlace⟩

end SourceDelta.Layout
