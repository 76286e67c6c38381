import SourceDelta.Proofs.FoundFiles
import SourceDelta.Proofs.Runs

/-!
# Saving and loading the flags

A registry that is saved is loaded again as it was, whatever flags were raised for
whatever keys. A document of the right version that somebody else wrote is read as
a registry of that kind too, so that saving and loading change nothing about it.
-/

set_option autoImplicit false

namespace SourceDelta

theorem FlagSet.exists_of_isEmpty {s : FlagSet} (h : s.isEmpty = false) :
    ∃ f, s.contains f = true := by
  rw [FlagSet.isEmpty, List.isEmpty_eq_false_iff_exists_mem] at h
  obtain ⟨f, hf⟩ := h
  exact ⟨f, (List.mem_filter.mp hf).2⟩

namespace FlagRegistry

variable {r : FlagRegistry} {k : Key} {f : Flag} {path : String} {w w' : World}

/-- The registry that raising these flags one by one builds. -/
def raiseAll (raised : List (Key × Flag)) : FlagRegistry :=
  raised.foldl (fun r e => r.insert e.1 e.2) empty

theorem Ordered.foldl {α : Type} {step : FlagRegistry → α → FlagRegistry} {xs : List α}
    (hstep : ∀ r, ∀ x ∈ xs, Ordered r → Ordered (step r x)) (h : Ordered r) :
    Ordered (xs.foldl step r) := by
  induction xs generalizing r with
  | nil => exact h
  | cons x xs ih => exact ih (fun r y hy => hstep r y (by simp [hy])) (hstep r x (by simp) h)

theorem ordered_raiseAll (raised : List (Key × Flag)) : Ordered (raiseAll raised) :=
  ordered_empty.foldl fun _ _ _ h => h.insert

theorem has_foldl_insert (raised : List (Key × Flag)) (r : FlagRegistry) :
    (raised.foldl (fun r e => r.insert e.1 e.2) r).has k f = true ↔
      r.has k f = true ∨ (k, f) ∈ raised := by
  induction raised generalizing r with
  | nil => simp
  | cons e raised ih =>
    obtain ⟨j, g⟩ := e
    rw [List.foldl_cons, ih, has_insert]
    by_cases hk : k = j
    · subst hk
      simp only [if_true, Bool.or_eq_true, beq_iff_eq, List.mem_cons, Prod.mk.injEq, true_and]
      grind
    · simp [hk]

theorem has_raiseAll {raised : List (Key × Flag)} :
    (raiseAll raised).has k f = true ↔ (k, f) ∈ raised := by
  rw [raiseAll, has_foldl_insert, has_empty]
  simp

theorem ordered_ofRecords (records : List (Key × FlagSet)) : Ordered (ofRecords records) := by
  refine ordered_empty.foldl fun r e he h => h.put ?_
  simpa using (List.mem_filter.mp he).2

theorem load_of_shows {text : String} {records : List (Key × FlagSet)}
    (hshows : w.files.Shows w.place path (Utf8.encode text))
    (hdocument : (Json.take? wanted text).bind document? = some (version, records)) :
    (load path).run.run w = (.ok (ofRecords records), w) := by
  have hexists : (Task.ask (.pathExists path)).run.run w = (.ok true, w) := by
    rw [Task.run_ask, World.answer, hshows.pathExists]
  have hread : (Task.readText path (.file (.readFlags path))).run.run w = (.ok text, w) := by
    rw [Task.readText, Task.run_bind, Task.run_attempt, World.answer, hshows.readFile]
    simp only [Except.mapError, Utf8.decode?_encode]
    rfl
  rw [load, Task.run_bind, hexists]
  simp only [if_true]
  rw [Task.run_bind, hread]
  simp only [hdocument, if_true]
  rfl

/-- Whatever else stands in the files, a registry that was saved is loaded. -/
theorem Ordered.load_save (h : Ordered r) (hsave : (r.save path).run.run w = (.ok (), w')) :
    (load path).run.run w' = (.ok r, w') := by
  have hshows := atomicWrite_shows hsave
  have hround := document_roundtrip h
  obtain ⟨⟨v, records⟩, hdocument, hpair⟩ := Option.map_eq_some_iff.mp hround
  obtain ⟨rfl, rfl⟩ := Prod.mk.inj hpair
  exact load_of_shows hshows hdocument

/-- A registry survives on disk: once saved it is loaded as it was, and a sound store that has room
for its document saves it. -/
structure Survives (r : FlagRegistry) : Prop where
  loaded : ∀ path w w', (r.save path).run.run w = (.ok (), w') →
    (load path).run.run w' = (.ok r, w')
  saved : ∀ l cwd w, Layout.Footing l cwd w → (r.save l.flagsPath).run.roomy w = true →
    ∃ w', (r.save l.flagsPath).run.run w = (.ok (), w')

theorem Ordered.survives (h : Ordered r) : Survives r where
  loaded _ _ _ hsave := h.load_save hsave
  saved l cwd w hf hroom := by
    have hends := Script.run_of_roomy (Layout.save_ends (v := .calm) hf r) hroom
    cases hrun : (r.save l.flagsPath).run.run w with
    | mk o w₁ =>
      cases o with
      | ok => exact ⟨w₁, rfl⟩
      | error e =>
        rw [hrun] at hends
        exact absurd hends.2.2.2.1.1 Weather.not_rough_calm

/-- Of the flags that are raised for any keys the document keeps every one and adds none. A document
of the right version, however it is written, is loaded as a registry in which every key has a flag, and
that registry too is the same after it has been saved and loaded again. -/
theorem load_save_load :
    (∀ raised : List (Key × Flag), Survives (raiseAll raised) ∧
      ∀ k f, (raiseAll raised).has k f = true ↔ (k, f) ∈ raised) ∧
    ∀ (text : String) (records : List (Key × FlagSet)) (path : String) (w : World),
      (Json.take? wanted text).bind document? = some (version, records) →
      w.files.Shows w.place path (Utf8.encode text) →
      ∃ r, (load path).run.run w = (.ok r, w) ∧ Survives r ∧
        ∀ e ∈ r.entries, ∃ f, e.2.contains f = true := by
  constructor
  · intro raised
    exact ⟨(ordered_raiseAll raised).survives, fun _ _ => has_raiseAll⟩
  · intro text records path w hdocument hshows
    have hordered := ordered_ofRecords records
    refine ⟨_, load_of_shows hshows hdocument, hordered.survives, fun e he => ?_⟩
    exact FlagSet.exists_of_isEmpty (hordered.flagged e he)

def foreignDocument : String :=
  "\x7b\"entries\":[\x7b\"key\":\x7b\"kind\":\"build\"\x7d,\"flags\":[\"addition\"]\x7d," ++
  "\x7b\"flags\":[\"deletion\"],\"key\":[\"build\",null]\x7d," ++
  "\x7b\"key\":\x7b\"kind\":\"variability\"\x7d,\"flags\":[]\x7d],\"version\":1\x7d"

def foreignWorld : World :=
  { Layout.emptyWorld with files := ⟨[(["f"], .file (Utf8.encode foreignDocument))], []⟩ }

set_option maxRecDepth 100000 in
theorem load_save_load_small :
    (∃ w', ((raiseAll [(.code "a b", .addition), (.build, .deletion)]).save
        Layout.smallLayout.flagsPath).run.run Layout.openedWorld = (.ok (), w') ∧
      (load Layout.smallLayout.flagsPath).run.run w' =
        (.ok (raiseAll [(.code "a b", .addition), (.build, .deletion)]), w')) ∧
    ∃ r, (load "/f").run.run foreignWorld = (.ok r, foreignWorld) ∧ Survives r := by
  constructor
  · have hsmall := load_save_load.1 [(.code "a b", .addition), (.build, .deletion)]
    have hf := (Layout.kept_of_reachable Layout.usable_smallLayout.storable Layout.reachable_smallStore).footing
    obtain ⟨w', hw'⟩ := hsmall.1.saved _ _ _ hf (by decide +kernel)
    exact ⟨w', hw', hsmall.1.loaded _ _ _ hw'⟩
  · obtain ⟨r, hr, hs, -⟩ := load_save_load.2 foreignDocument
      [(.build, .ofList [.addition]), (.build, .ofList [.deletion]), (.variability, .empty)] "/f"
      foreignWorld (by decide +kernel) (by unfold FileSystem.Shows; decide +kernel)
    exact ⟨r, hr, hs⟩

end FlagRegistry

end SourceDelta
