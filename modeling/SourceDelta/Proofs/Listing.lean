import Mathlib.Data.List.Sort
import Mathlib.Data.String.Basic
import SourceDelta.Proofs.Upkeep

/-!
# Listing a store

The artifacts that are listed in an area are those with a value there, each once
and in one order. So the list depends on nothing else: two stores that hold
values for the same artifacts list the same.
-/

set_option autoImplicit false

namespace SourceDelta.Layout
open SourceDelta.FileSystem (names)

variable {l : Layout} {cwd : Place} {fs fs' : FileSystem} {w : World} {a : Area} {k : Key}
  {v : Weather}

theorem insertSorted_eq (p : String) (qs : List String) :
    insertSorted p qs = qs.orderedInsert (· ≤ ·) p := by
  induction qs with
  | nil => rfl
  | cons q qs ih =>
    rw [insertSorted, List.orderedInsert_cons, ih]

theorem sorted_eq (ps : List String) : sorted ps = ps.insertionSort (· ≤ ·) := by
  induction ps with
  | nil => rfl
  | cons p ps ih =>
    rw [List.insertionSort_cons, ← ih, ← insertSorted_eq]
    rfl

theorem mem_sorted {p : String} {ps : List String} : p ∈ sorted ps ↔ p ∈ ps := by
  rw [sorted_eq, List.mem_insertionSort]

theorem sorted_nodup {ps : List String} (h : ps.Nodup) : (sorted ps).Nodup := by
  rw [sorted_eq, (List.perm_insertionSort _ ps).nodup_iff]
  exact h

theorem sorted_congr {ps qs : List String} (hp : ps.Nodup) (hq : qs.Nodup)
    (h : ∀ p, p ∈ ps ↔ p ∈ qs) : sorted ps = sorted qs := by
  have hperm : ps.Perm qs := (List.perm_ext_iff_of_nodup hp hq).mpr h
  rw [sorted_eq, sorted_eq]
  refine List.Perm.eq_of_pairwise' (r := (· ≤ ·)) (List.pairwise_insertionSort _ _)
    (List.pairwise_insertionSort _ _) ?_
  exact (List.perm_insertionSort _ ps).trans (hperm.trans (List.perm_insertionSort _ qs).symm)

def codePlace (l : Layout) (cwd : Place) (a : Area) : Place := "code" :: a.name :: l.rootPlace cwd

theorem within_codePlace (a : Area) :
    FileSystem.within (l.rootPlace cwd) (l.codePlace cwd a) = true :=
  within_iff.mpr ((suffix_cons_self _ _).trans (suffix_cons_self _ _))

def decoded (l : Layout) (ns : List String) : List String :=
  ns.filterMap fun n => (FileName.decode? l.extension.toList n.toList).map String.ofList

theorem codePaths_eq (l : Layout) (ns : List String) : l.codePaths ns = sorted (l.decoded ns) := rfl

/-- The file of an artifact does not look like a staged file. -/
def Listable (l : Layout) : Key → Prop
  | .code p => FileName.isTemporary (l.codeName p).toList = false
  | _ => True

theorem listable_of_usable (hu : FileName.Usable l.extension.toList) (k : Key) : l.Listable k := by
  cases k with
  | code p =>
    rw [Listable, codeName, String.toList_ofList]
    exact hu.not_temporary p.toList
  | build => trivial
  | variability => trivial

theorem decoded_eq_some {n p : String} (hn : '/' ∉ n.toList)
    (h : (FileName.decode? l.extension.toList n.toList).map String.ofList = some p) :
    n = l.codeName p ∧ l.Listable (.code p) := by
  obtain ⟨cs, hcs, rfl⟩ := Option.map_eq_some_iff.mp h
  obtain ⟨hplain, hname⟩ := FileName.encode_of_decode? hn hcs
  have hn : n = l.codeName (String.ofList cs) := by
    rw [codeName, String.toList_ofList, hname, String.ofList_toList]
  refine ⟨hn, ?_⟩
  rw [Listable, ← hn]
  exact hplain

theorem Sound.mem_decoded (h : Sound l cwd fs) {p : String} :
    p ∈ l.decoded (fs.names (l.codePlace cwd a)) ↔
      l.held cwd fs a (.code p) ≠ none ∧ l.Listable (.code p) := by
  have hsuffix : l.rootPlace cwd <:+ l.codePlace cwd a := within_iff.mp (within_codePlace a)
  have hsite : l.site cwd a (.code p) = l.codeName p :: l.codePlace cwd a := rfl
  rw [decoded, List.mem_filterMap]
  constructor
  · rintro ⟨n, hn, hp⟩
    rw [FileSystem.mem_names] at hn
    obtain ⟨rfl, hlist⟩ := decoded_eq_some (h.names n _ hsuffix hn).noSlash hp
    exact ⟨fun hnone => hn (h.site_of_none hnone), hlist⟩
  · rintro ⟨hk, hlist⟩
    refine ⟨l.codeName p, FileSystem.mem_names.mpr ?_, ?_⟩
    · rw [← hsite]
      intro hn
      exact hk (by rw [held, FileSystem.content?, hn])
    · rw [Listable, codeName, String.toList_ofList] at hlist
      rw [codeName, String.toList_ofList, FileName.decode?_encode hlist, Option.map_some,
        String.ofList_toList]

theorem Sound.decoded_nodup (h : Sound l cwd fs) :
    (l.decoded (fs.names (l.codePlace cwd a))).Nodup := by
  have hsuffix : l.rootPlace cwd <:+ l.codePlace cwd a := within_iff.mp (within_codePlace a)
  have hnames := FileSystem.names_nodup h.distinct (within_codePlace a)
  have hslash : ∀ n ∈ fs.names (l.codePlace cwd a), '/' ∉ n.toList := fun n hn =>
    (h.names n _ hsuffix (FileSystem.mem_names.mp hn)).noSlash
  generalize fs.names (l.codePlace cwd a) = ns at hnames hslash ⊢
  rw [decoded, List.Nodup, List.pairwise_filterMap]
  refine hnames.imp_of_mem ?_
  intro n m hn hm hne p hp q hq he
  subst he
  exact hne ((decoded_eq_some (hslash n hn) hp).1.trans (decoded_eq_some (hslash m hm) hq).1.symm)

/-- The artifacts with a value in an area. -/
def listed (l : Layout) (cwd : Place) (fs : FileSystem) (a : Area) : List Key :=
  (l.codePaths (fs.names (l.codePlace cwd a))).map Key.code ++
    (if (l.held cwd fs a .build).isSome then [Key.build] else []) ++
    (if (l.held cwd fs a .variability).isSome then [Key.variability] else [])

theorem Sound.mem_listed (h : Sound l cwd fs) :
    k ∈ l.listed cwd fs a ↔ l.held cwd fs a k ≠ none ∧ l.Listable k := by
  rw [listed, List.mem_append, List.mem_append, codePaths_eq]
  cases k with
  | code p =>
    rw [← h.mem_decoded, ← mem_sorted]
    constructor
    · rintro ((hk | hk) | hk)
      · obtain ⟨q, hq, he⟩ := List.mem_map.mp hk
        cases he
        exact hq
      · split at hk <;> simp at hk
      · split at hk <;> simp at hk
    · intro hp
      exact .inl (.inl (List.mem_map.mpr ⟨p, hp, rfl⟩))
  | build =>
    cases l.held cwd fs a .build <;> cases l.held cwd fs a .variability <;> simp [Listable]
  | variability =>
    cases l.held cwd fs a .build <;> cases l.held cwd fs a .variability <;> simp [Listable]

theorem Sound.listed_nodup (h : Sound l cwd fs) (a : Area) : (l.listed cwd fs a).Nodup := by
  have hcode : ((l.codePaths (fs.names (l.codePlace cwd a))).map Key.code).Nodup := by
    rw [codePaths_eq]
    exact (sorted_nodup h.decoded_nodup).map fun _ _ he => Key.code.inj he
  rw [listed, List.append_assoc, List.nodup_append]
  refine ⟨hcode, ?_, ?_⟩
  · cases l.held cwd fs a .build <;> cases l.held cwd fs a .variability <;> simp
  · rintro k hk j hj rfl
    obtain ⟨p, -, rfl⟩ := List.mem_map.mp hk
    rcases List.mem_append.mp hj with hj | hj
    · split at hj <;> simp at hj
    · split at hj <;> simp at hj

/-- What is listed depends only on which artifacts have a value. -/
theorem Sound.listed_congr (h : Sound l cwd fs) (h' : Sound l cwd fs')
    (hk : ∀ k, l.held cwd fs a k ≠ none ↔ l.held cwd fs' a k ≠ none) :
    l.listed cwd fs a = l.listed cwd fs' a := by
  have hsome : ∀ k, (l.held cwd fs a k).isSome = (l.held cwd fs' a k).isSome := by
    intro k
    rw [Bool.eq_iff_iff, Option.isSome_iff_ne_none, Option.isSome_iff_ne_none]
    exact hk k
  have hcode : l.codePaths (fs.names (l.codePlace cwd a)) =
      l.codePaths (fs'.names (l.codePlace cwd a)) := by
    rw [codePaths_eq, codePaths_eq]
    refine sorted_congr h.decoded_nodup h'.decoded_nodup fun p => ?_
    rw [h.mem_decoded, h'.mem_decoded, hk (.code p)]
  rw [listed, listed, hcode, hsome .build, hsome .variability]

theorem folder_codePlace (a : Area) :
    Folder l (l.rootPlace cwd) (l.codePath a) (l.codePlace cwd a) (a.name :: l.rootPlace cwd) :=
  .code a

theorem Footing.listDirectory (hf : Footing l cwd w)
    (hD : w.files.node? (l.codePlace cwd a) = some .directory) :
    w.answer (.listDirectory (l.codePath a)) = (.ok (w.files.names (l.codePlace cwd a)), w) := by
  have harea := hf.sound.area_of_code (a := a) (by rw [← codePlace, hD]; simp)
  have hr := hf.sound.reaches (.area a) harea isName_code (by decide) (hf.sound.toGround.fits a)
  rw [World.answer, hf.place]
  exact congrArg (·, w) (hr.listDirectory hD)

theorem Sound.names_codePlace (h : Sound l cwd fs)
    (hD : ¬ fs.node? (l.codePlace cwd a) = some .directory) :
    fs.names (l.codePlace cwd a) = [] := by
  rw [List.eq_nil_iff_forall_not_mem]
  intro n hn
  exact hD (h.tree n _ (within_iff.mp (within_codePlace a)) (FileSystem.mem_names.mp hn))

theorem listed_ends (hf : Footing l cwd w) {ns : List String}
    (hns : ns = w.files.names (l.codePlace cwd a)) :
    Task.Ends v (fun o w' => w' = w ∧ match o with
        | .ok ks => ks = l.listed cwd w.files a
        | .error _ => v.Rough) (do
      let hasBuild ← Task.ask (.pathExists (l.artifactPath a .build))
      let hasModel ← Task.ask (.pathExists (l.artifactPath a .variability))
      pure ((l.codePaths ns).map Key.code ++
        (if hasBuild then [Key.build] else []) ++
        (if hasModel then [Key.variability] else []))) w := by
  subst hns
  apply Task.ends_bind
  apply Task.ends_ask (fun _ => rfl)
  simp only [hf.pathExists_artifact fileName_build_ne]
  apply Task.ends_bind
  apply Task.ends_ask (fun _ => rfl)
  simp only [hf.pathExists_artifact fileName_variability_ne]
  exact Task.ends_pure ⟨rfl, rfl⟩

theorem keys_ends (hf : Footing l cwd w) (a : Area) :
    (l.keys a).Ends v (fun o w' => w' = w ∧ match o with
      | .ok ks => ks = l.listed cwd w.files a
      | .error _ => v.Rough) w := by
  unfold keys
  apply Task.ends_bind
  apply Task.ends_ask (fun _ => rfl)
  simp only [hf.pathExists]
  split
  next he =>
    have hD := (hf.sound.pathExists_folder (folder_codePlace a)).mp he
    apply Task.ends_bind
    apply Task.ends_attempt
    · intro _
      simp only [hf.listDirectory hD, Except.mapError]
      exact listed_ends hf rfl
    · intro hr e b _ hb
      cases hb
      exact ⟨rfl, hr⟩
  next he =>
    have hD := mt (hf.sound.pathExists_folder (folder_codePlace a)).mpr he
    apply Task.ends_bind
    apply Task.ends_pure
    exact listed_ends hf (hf.sound.names_codePlace hD).symm

end SourceDelta.Layout
