import SourceDelta.Proofs.Reading
import SourceDelta.Proofs.Shelves

/-!
# Artifacts that stay apart

What a store answers about an artifact is read off its shelf. So the steps that
are about other artifacts may be left out, and two changes of different artifacts
may come in either order: the answers are the same, although all artifacts share
the directories of the areas and one document of flags.
-/

set_option autoImplicit false

namespace SourceDelta

structure Store.Agree (k : Key) (s : Store) (w : World) (s' : Store) (w' : World) : Prop where
  value : ((s'.readBytes k).run.run w').1 = ((s.readBytes k).run.run w).1
  previous : ((s'.readPreviousBytes k).run.run w').1 = ((s.readPreviousBytes k).run.run w).1
  contained : ((s'.contains k).run.run w').1 = ((s.contains k).run.run w).1
  flags : s'.flags.get k = s.flags.get k

namespace Layout
open SourceDelta.Store (Change Step Agree perform)

variable {l : Layout} {cwd : Place} {w w' w₀ : World} {s s' s₀ : Store} {k : Key}
  {ts ts' : List Step}

theorem Settled.folder_previous (hs : Settled l cwd s w) (k : Key) :
    w.files.node? (l.folderPlace cwd .previous k) = some .directory := by
  have harea := hs.footing.sound.area_of_code (a := .previous)
    (Option.ne_none_iff_exists'.mpr ⟨_, hs.previous⟩)
  cases k with
  | code p => exact hs.previous
  | build => exact harea
  | variability => exact harea

theorem Settled.agree (hs : Settled l cwd s w) (hs' : Settled l cwd s' w')
    (h : l.shelf cwd s' w' k = l.shelf cwd s w k) : Agree k s w s' w' := by
  have hc : l.held cwd w'.files .current k = l.held cwd w.files .current k := congrArg (·.current) h
  have hp : l.held cwd w'.files .previous k = l.held cwd w.files .previous k :=
    congrArg (·.previous) h
  have hflags : s'.flags.get k = s.flags.get k := congrArg (·.flags) h
  have hfindc := hs.footing.sound.find_current hs'.footing.sound hc
  have hfindp := hs.footing.sound.find_congr hs'.footing.sound (hs.folder_previous k)
    (hs'.folder_previous k) hp
  refine ⟨readBytes_congr hs.layout hs'.layout hs.footing hs'.footing hc, ?_, ?_, hflags⟩
  · have hexists : (w'.answer (.pathExists (s'.path .previous k))).1 =
        (w.answer (.pathExists (s.path .previous k))).1 := by
      simp only [World.answer, Store.path, hs.layout, hs'.layout, hs.footing.place,
        hs'.footing.place, FileSystem.pathExists, hfindp]
    have hsame : ∀ (s : Store) (w : World), (w.answer (.pathExists (s.path .previous k))).2 = w :=
      fun _ _ => rfl
    unfold Store.readPreviousBytes
    rw [Task.run_bind, Task.run_bind, Task.run_ask, Task.run_ask, hexists]
    simp only [hsame]
    split
    · rw [readArtifact_run, readArtifact_run, hs.layout, hs'.layout, hs.footing.place,
        hs'.footing.place, FileSystem.readFile, FileSystem.readFile, hfindp]
    · rw [FlagRegistry.has, FlagRegistry.has, hflags]
      split
      · rfl
      · rw [readArtifact_run, readArtifact_run, hs.layout, hs'.layout, hs.footing.place,
          hs'.footing.place, FileSystem.readFile, FileSystem.readFile, hfindc]
  · rw [Store.contains, Store.contains, Task.run_ask, Task.run_ask]
    simp only [World.answer, Store.path, hs.layout, hs'.layout, hs.footing.place,
      hs'.footing.place, FileSystem.pathExists, hfindc]

/-- Runs with the same steps about an artifact leave the same answers about it. -/
theorem agree_of_filter (hu : FileName.Usable l.extension.toList)
    (h₀ : Settled l cwd s₀ w₀) (hrun : perform ts s₀ w₀ = some (s, w))
    (hrun' : perform ts' s₀ w₀ = some (s', w'))
    (h : ts'.filter (·.concerns k) = ts.filter (·.concerns k)) : Agree k s w s' w' := by
  have hlist := listable_of_usable hu
  obtain ⟨hs, hshelf⟩ := h₀.perform hu.storable (fun _ => hlist) hrun
  obtain ⟨hs', hshelf'⟩ := h₀.perform hu.storable (fun _ => hlist) hrun'
  exact hs.agree hs' (by rw [hshelf, hshelf', h])

theorem filter_swap {c d : Change} (hne : c.key ≠ d.key) (k : Key) (before after : List Step) :
    (before ++ .change d :: .change c :: after).filter (·.concerns k) =
      (before ++ .change c :: .change d :: after).filter (·.concerns k) := by
  by_cases hc : c.key = k
  · have hd : d.key ≠ k := fun hd => hne (hc.trans hd.symm)
    simp [List.filter_append, Step.concerns, hc, hd]
  · simp [List.filter_append, List.filter_cons, Step.concerns, hc]

/-- In a generation that starts clean, what is done to other artifacts shows in no answer about an
artifact, and changes of different artifacts commute. -/
theorem artifacts_apart (hu : FileName.Usable l.extension.toList)
    (hclean : Store.Clean l cwd s₀ w₀) :
    (∀ k ts s w s' w', perform ts s₀ w₀ = some (s, w) →
      perform (ts.filter (·.concerns k)) s₀ w₀ = some (s', w') → Agree k s w s' w') ∧
    (∀ before after c d s w s' w', c.key ≠ d.key →
      perform (before ++ .change c :: .change d :: after) s₀ w₀ = some (s, w) →
      perform (before ++ .change d :: .change c :: after) s₀ w₀ = some (s', w') →
      ∀ k, Agree k s w s' w') := by
  have h₀ := settled_of_clean hu.storable hclean
  constructor
  · intro k ts s w s' w' hrun hrun'
    exact agree_of_filter hu h₀ hrun hrun' (by simp only [List.filter_filter, Bool.and_self])
  · intro before after c d s w s' w' hne hrun hrun' k
    exact agree_of_filter hu h₀ hrun hrun' (filter_swap hne k before after)

def stored (path : String) (bytes : Bytes) : Change := .writeBytes (.code path) bytes

set_option maxRecDepth 100000 in
/-- Two artifacts whose file names differ in an escape only are written in either order, and one of
them alone. -/
theorem artifacts_apart_of_two_writes : ∃ s w s₁ w₁ s₂ w₂,
    perform [.change (stored "a/b" [1]), .change (stored "a#b" [2])] smallStore openedWorld =
      some (s, w) ∧
    perform [.change (stored "a/b" [1])] smallStore openedWorld = some (s₁, w₁) ∧
    perform [.change (stored "a#b" [2]), .change (stored "a/b" [1])] smallStore openedWorld =
      some (s₂, w₂) ∧
    Agree (.code "a/b") s w s₁ w₁ ∧ (∀ k, Agree k s w s₂ w₂) ∧
      ((s₁.readBytes (.code "a/b")).run.run w₁).1 = .ok [1] := by
  obtain ⟨⟨s, w⟩, hrun⟩ : ∃ p, perform [.change (stored "a/b" [1]), .change (stored "a#b" [2])]
      smallStore openedWorld = some p := Option.isSome_iff_exists.mp (by decide +kernel)
  obtain ⟨⟨s₁, w₁⟩, hrun₁, hread⟩ := Option.map_eq_some_iff.mp
    (show (perform [.change (stored "a/b" [1])] smallStore openedWorld).map
      (fun p => ((p.1.readBytes (.code "a/b")).run.run p.2).1) = some (.ok [1]) by decide +kernel)
  obtain ⟨⟨s₂, w₂⟩, hrun₂⟩ : ∃ p, perform [.change (stored "a#b" [2]), .change (stored "a/b" [1])]
      smallStore openedWorld = some p := Option.isSome_iff_exists.mp (by decide +kernel)
  have hfilter : ([.change (stored "a/b" [1]), .change (stored "a#b" [2])] : List Step).filter
      (·.concerns (.code "a/b")) = [.change (stored "a/b" [1])] := by
    simp [Step.concerns, stored, Change.key]
  have happart := artifacts_apart usable_smallLayout clean_smallStore
  exact ⟨s, w, s₁, w₁, s₂, w₂, hrun, hrun₁, hrun₂,
    happart.1 _ _ _ _ _ _ hrun (hfilter ▸ hrun₁),
    happart.2 [] [] _ _ _ _ _ _ (by simp [stored, Change.key]) hrun hrun₂, hread⟩

end Layout

end SourceDelta
