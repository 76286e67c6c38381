import SourceDelta.Config
import SourceDelta.Proofs.Displacement

/-!
# What a store lists

With an extension that a configuration admits, a store lists in order the keys
that it holds, and among the displaced ones every key whose value has been moved
away since the history was cleared. A key stays out when the name of its file
could be that of a staged file: it starts with a dot, and the extension ends as
those do.
-/

set_option autoImplicit false

namespace SourceDelta

namespace Layout
open SourceDelta.Store (Change Step MovedAway)
open SourceDelta.Text

variable {l : Layout} {cwd : Place} {fs : FileSystem} {w w' w₀ : World} {s s' s₀ : Store} {k : Key}
  {a : Area} {ts : List Step}

theorem listed_pairwise (h : Sound l cwd fs) (a : Area) :
    (l.listed cwd fs a).Pairwise fun j k => j.before k = true := by
  have hcode : ((l.codePaths (fs.names (l.codePlace cwd a))).map Key.code).Pairwise
      fun j k => j.before k = true := by
    rw [List.pairwise_map, codePaths_eq]
    have hle : (sorted (l.decoded (fs.names (l.codePlace cwd a)))).Pairwise (· ≤ ·) := by
      rw [sorted_eq]
      exact List.pairwise_insertionSort _ _
    refine (hle.and (sorted_nodup h.decoded_nodup)).imp ?_
    rintro p q ⟨hpq, hne⟩
    exact decide_eq_true (lt_of_le_of_ne hpq hne)
  have hsome : ∀ {b : Bool} {j k : Key}, k ∈ (if b then [j] else []) → k = j := by
    intro b j k h
    cases b <;> simp_all
  have hsingle : ∀ (b : Bool) (j : Key), (if b then [j] else []).Pairwise
      fun j k => j.before k = true := by
    intro b j
    cases b <;> simp
  rw [listed, List.append_assoc, List.pairwise_append, List.pairwise_append]
  refine ⟨hcode, ⟨hsingle _ _, hsingle _ _, ?_⟩, ?_⟩
  · intro j hj k hk
    rw [hsome hj, hsome hk]
    rfl
  · intro j hj k hk
    obtain ⟨p, -, rfl⟩ := List.mem_map.mp hj
    rcases List.mem_append.mp hk with hk | hk
    · rw [hsome hk]
      rfl
    · rw [hsome hk]
      rfl

theorem Sound.contains_listed (h : Sound l cwd fs) (hk : l.Listable k) :
    (l.listed cwd fs a).contains k = (l.held cwd fs a k).isSome := by
  rw [Bool.eq_iff_iff, List.contains_iff_mem, h.mem_listed, Option.isSome_iff_ne_none]
  exact and_iff_left hk

theorem status_run (hl : s.layout = l) (hf : Footing l cwd w) : s.status.run.run w =
    (.ok ⟨((l.listed cwd w.files .current).filter (·.kind == .code)).length,
      (l.listed cwd w.files .current).contains .build,
      (l.listed cwd w.files .current).contains .variability,
      (l.listed cwd w.files .previous).length, s.flags.size⟩, w) := by
  unfold Store.status
  rw [Task.run_bind, hl, listed_run hf]
  dsimp only
  rw [Task.run_bind, listed_run hf]
  rfl

theorem head?_stem (path : List Char) :
    (FileName.stem path).head? = some '.' ↔ path.head? = some '.' := by
  cases path with
  | nil => rfl
  | cons c cs =>
    rw [FileName.stem, List.flatMap_cons, FileName.encodeChar]
    split_ifs with h₁ h₂ h₃
    · simp [h₁]
    · simp [h₂]
    · simp [h₃]
    · rfl

theorem stem_eq_nil (path : List Char) : FileName.stem path = [] ↔ path = [] := by
  refine ⟨fun h => ?_, by rintro rfl; rfl⟩
  have hpath := FileName.decodeStem_stem path
  rw [h] at hpath
  exact (Option.some.inj hpath).symm

theorem startsWith_dot_encode (ext path : List Char) :
    startsWith ['.'] (FileName.encode ext path) = true ↔ path = [] ∨ path.head? = some '.' := by
  rw [startsWith_iff, ← head?_stem, ← stem_eq_nil, FileName.encode]
  cases FileName.stem path with
  | nil => simp
  | cons c cs => simp

theorem endsWith_tmp_encode {ext : List Char} (hne : ext ≠ "tmp".toList) (path : List Char) :
    (before? ".tmp".toList (FileName.encode ext path)).isSome = true ↔
      ∃ front, ext = front ++ ".tmp".toList := by
  rw [Option.isSome_iff_exists]
  constructor
  · rintro ⟨front, h⟩
    obtain ⟨_, rest, -, hext⟩ := FileName.tmp_of_encode hne (before?_eq_some.mp h)
    exact ⟨rest, (List.cons.inj hext).2⟩
  · rintro ⟨front, rfl⟩
    refine ⟨FileName.stem path ++ '.' :: front, before?_eq_some.mpr ?_⟩
    simp [FileName.encode]

/-- A key is passed over when the name of its file starts with a dot and the extension ends as the
names of staged files do. -/
theorem not_listable_iff (hne : l.extension.toList ≠ "tmp".toList) : ¬ l.Listable k ↔
    ∃ p, k = .code p ∧ (p = "" ∨ p.toList.head? = some '.') ∧
      ∃ front, l.extension.toList = front ++ ".tmp".toList := by
  cases k with
  | build => simp [Listable]
  | variability => simp [Listable]
  | code p =>
    rw [Listable, Bool.not_eq_false, codeName, String.toList_ofList, FileName.isTemporary,
      Bool.and_eq_true, startsWith_dot_encode, endsWith_tmp_encode hne, String.toList_eq_nil_iff]
    simp

theorem extension_of_valid {c : Config} (h : c.validate = .ok ()) :
    c.codeExtension.toList ≠ [] ∧ '/' ∉ c.codeExtension.toList ∧
      c.codeExtension.toList ≠ "tmp".toList ∧ c.codeExtension.toList.head? ≠ some '.' := by
  rw [Config.validate] at h
  split at h
  · cases h
  split at h
  · cases h
  next hne =>
    split at h
    · cases h
    next hdot =>
      split at h
      · cases h
      next hmarks =>
        simp only [Bool.or_eq_true, decide_eq_true_eq, List.contains_iff_mem, not_or] at hmarks
        exact ⟨hne, hmarks.1.1, hmarks.2, hdot⟩

/-- A configuration that is accepted, with an extension that does not end in a number and `.tmp`,
makes a store list in order all that it holds but the keys that are passed over, and count it; and
every displaced key that is not passed over is listed in the area that a rollback reads. -/
theorem keys_enumerate {c : Config} {root : String} (hvalid : c.validate = .ok ())
    (hext : ∀ front (n : Nat), '.' :: c.codeExtension.toList ≠
      front ++ '.' :: (toString n).toList ++ ".tmp".toList)
    (hclean : Store.Clean ⟨root, c.codeExtension⟩ cwd s₀ w₀)
    (hrun : Store.perform ts s₀ w₀ = some (s, w)) :
    (∀ kind, ∃ ks, ((s.keys kind).run.run w).1 = .ok ks ∧
      ks.Pairwise (fun j k => j.before k = true) ∧ ks.Nodup ∧
      ∀ k, k ∈ ks ↔ k.kind = kind ∧ ((s.contains k).run.run w).1 = .ok true ∧
        Listable ⟨root, c.codeExtension⟩ k) ∧
    (∃ st codes old, (s.status.run.run w).1 = .ok st ∧ ((s.keys .code).run.run w).1 = .ok codes ∧
      ((s.layout.keys .previous).run.run w).1 = .ok old ∧
      st.currentCode = codes.length ∧ st.previous = old.length ∧
      ((s.contains .build).run.run w).1 = .ok st.currentBuild ∧
      ((s.contains .variability).run.run w).1 = .ok st.currentVariability ∧ old.Nodup ∧
      ∀ k, MovedAway k ts s₀ w₀ → Listable ⟨root, c.codeExtension⟩ k → k ∈ old) ∧
    ∀ k, ¬ Listable ⟨root, c.codeExtension⟩ k ↔ ∃ p, k = .code p ∧
      (p = "" ∨ p.toList.head? = some '.') ∧
      ∃ front, c.codeExtension.toList = front ++ ".tmp".toList := by
  obtain ⟨hne, hslash, htmp, hdot⟩ := extension_of_valid hvalid
  have hu : FileName.Storable c.codeExtension.toList := ⟨hne, hslash, htmp, hext⟩
  have hdots : ∀ k, fileName ⟨root, c.codeExtension⟩ k ≠ ".." := fileName_ne_dots hu hdot
  have h₀ := settled_of_clean hu hclean
  have hs := h₀.perform_settled hu hrun
  have hsound := hs.footing.sound
  have hcontains : ∀ k, ((s.contains k).run.run w).1 = .ok true ↔
      held ⟨root, c.codeExtension⟩ cwd w.files .current k ≠ none := by
    intro k
    rw [contains_run hs.layout hs.footing (hdots k), Except.ok.injEq, Option.isSome_iff_ne_none]
  refine ⟨fun kind => ⟨_, by rw [keys_run hs.layout hs.footing], ?_, ?_, fun k => ?_⟩,
    ⟨_, _, _, by rw [status_run hs.layout hs.footing], by rw [keys_run hs.layout hs.footing],
      by rw [hs.layout, listed_run hs.footing], rfl, rfl, ?_, ?_, hsound.listed_nodup _,
      fun k hk hlist => ?_⟩, fun k => not_listable_iff htmp⟩
  · exact (listed_pairwise hsound _).filter _
  · exact (hsound.listed_nodup _).filter _
  · rw [List.mem_filter, hsound.mem_listed, beq_iff_eq, hcontains]
    exact ⟨fun ⟨h, hkind⟩ => ⟨hkind, h⟩, fun ⟨hkind, h⟩ => ⟨h, hkind⟩⟩
  · rw [contains_run hs.layout hs.footing (hdots _), ← hsound.contains_listed (k := .build) trivial]
  · rw [contains_run hs.layout hs.footing (hdots _),
      ← hsound.contains_listed (k := .variability) trivial]
  · have hstart := (fresh_of_clean hu hclean).previous.held k
    exact hsound.mem_listed.mpr ⟨(h₀.movedAway_iff hu hstart hrun).mp hk, hlist⟩

def smallConfig : Config :=
  { Config.default with codeExtension := "c", variabilityFileGlobs := [], filterGlobs := [] }

def firstWrite : Change := .writeBytes (.code "a/b") [1]

def secondWrite : Change := .writeBytes (.code "a/b") [2]

set_option maxRecDepth 100000 in
/-- An artifact that is written twice is listed once, and its first value has been moved away. -/
theorem keys_enumerate_after_two_writes : ∃ s w ks old,
    Store.perform [.change firstWrite, .change secondWrite] smallStore openedWorld = some (s, w) ∧
    ((s.keys .code).run.run w).1 = .ok ks ∧ .code "a/b" ∈ ks ∧
    ((s.layout.keys .previous).run.run w).1 = .ok old ∧ .code "a/b" ∈ old := by
  have hsteps : (Store.perform [.change firstWrite] smallStore openedWorld).map (fun p =>
      (((p.1.contains (.code "a/b")).run.run p.2).1, ((secondWrite.action.on p.1).run p.2).1.1)) =
      some (.ok true, .ok ()) := by decide +kernel
  obtain ⟨⟨s₁, w₁⟩, hfirst, hanswers⟩ := Option.map_eq_some_iff.mp hsteps
  obtain ⟨hcontains, hok⟩ := Prod.mk.inj hanswers
  have hsecond := outcome_eq hok
  have hmovedAway : MovedAway (.code "a/b") [.change firstWrite, .change secondWrite] smallStore
      openedWorld := by
    refine ⟨[.change firstWrite], secondWrite, [], s₁, w₁, _, _, rfl, rfl, trivial, hfirst, ?_,
      hsecond, List.forall_mem_nil _⟩
    exact hcontains
  have hlast : (Store.perform [.change firstWrite, .change secondWrite] smallStore openedWorld).map
      (fun p => ((p.1.contains (.code "a/b")).run.run p.2).1) = some (.ok true) := by
    decide +kernel
  obtain ⟨⟨s, w⟩, hrun, hcontained⟩ := Option.map_eq_some_iff.mp hlast
  have hvalid : smallConfig.validate = .ok () := by decide +kernel
  have hclean : Store.Clean ⟨"/s", smallConfig.codeExtension⟩ [] smallStore openedWorld :=
    clean_smallStore
  obtain ⟨hkeys, ⟨-, -, old, -, -, hold, -, -, -, -, -, hmoved⟩, -⟩ :=
    keys_enumerate hvalid usable_smallLayout.storable.not_numbered hclean hrun
  obtain ⟨ks, hks, -, -, hmem⟩ := hkeys .code
  have hlist : Listable smallLayout (.code "a/b") := listable_of_usable usable_smallLayout _
  exact ⟨s, w, ks, old, hrun, hks, (hmem _).mpr ⟨rfl, hcontained, hlist⟩, hold,
    hmoved _ hmovedAway hlist⟩

end Layout

end SourceDelta
