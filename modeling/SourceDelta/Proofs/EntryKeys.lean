import SourceDelta.Proofs.Parts
import SourceDelta.Proofs.Separation

/-!
# The artifacts of a diff

Every path that a diff names is written with slashes, so it is the path of an
artifact as it stands. The entries of a diff have different paths and so have
different file names, each of which tells its path; what is stored for one of
them shows in no answer about another.
-/

set_option autoImplicit false

namespace SourceDelta
open SourceDelta.Text

namespace Diff

variable {contextLine : Bool} {text : String} {s : Section} {set : DiffSet} {c : FileChange}

theorem readHeader_path (oldPath : String) (c : FileChange) (ls : List Line) :
    (readHeader oldPath c ls).path = c.path ∨ (readHeader oldPath c ls).path = oldPath := by
  induction ls generalizing c with
  | nil => exact .inl rfl
  | cons l ls ih =>
    rw [readHeader]
    split
    case h_2 => exact .inr ((ih _).elim id id)
    case h_6 => exact .inl rfl
    all_goals exact ih _

theorem backslash_not_mem_read (h : s.read contextLine = .ok c) : '\\' ∉ c.path.toList := by
  obtain ⟨old, new, hpaths, h⟩ := read_eq_ok.mp h
  have hpath : c.path = new ∨ c.path = old := by
    have hheader : c.path = (s.header old new).path := by
      split at h
      · rw [h]
      · obtain ⟨hs, -, rfl⟩ := h
        rfl
    rw [hheader]
    exact readHeader_path old (.plain new .modification) (blocks s.body).1
  rw [Section.paths] at hpaths
  split at hpaths
  next a b hnames =>
    cases hpaths
    obtain ⟨ha, hb⟩ := backslash_not_mem_paths? hnames
    rcases hpath with hpath | hpath <;> rwa [hpath, String.toList_ofList]
  next => cases hpaths

/-- No path of a diff has a backslash. -/
theorem backslash_not_mem_parse (h : parse contextLine text = .ok set) :
    ∀ c ∈ set.entries, '\\' ∉ c.path.toList := by
  intro c hc
  obtain ⟨cs, hcs, hfold⟩ := parse_eq_ok.mp h
  obtain ⟨gs, rfl, hgs⟩ := DiffSet.foldlM_absorb?.mp hfold
  obtain ⟨g, hg, hshare⟩ := exists_of_forall₂ (List.Forall₂.flip hgs) hc
  obtain ⟨d, hd, hpath⟩ := DiffSet.Share.exists_path hshare
  obtain ⟨s, -, hs⟩ := exists_of_forall₂ (List.Forall₂.flip hcs) (List.mem_flatten_of_mem hg hd)
  rw [← hpath]
  exact backslash_not_mem_read hs

end Diff

theorem Key.ofPath_eq {path : String} (h : '\\' ∉ path.toList) : Key.ofPath path = .code path := by
  rw [Key.ofPath, Diff.forward_eq_self h, String.ofList_toList]

namespace Layout
open SourceDelta.Store (Change Step Agree perform)

variable {l : Layout} {contextLine : Bool} {text : String} {set : DiffSet}

theorem codeName_injective {p q : String} (h : l.codeName p = l.codeName q) : p = q :=
  String.toList_injective (FileName.encode_injective (String.ofList_injective h))

theorem artifactPath_code_injective (hu : FileName.Storable l.extension.toList) {a : Area}
    {p q : String} (h : l.artifactPath a (.code p) = l.artifactPath a (.code q)) : p = q := by
  rw [artifactPath_eq, artifactPath_eq] at h
  have hnames := congrArg Path.names h
  rw [Path.names_join (isPart_fileName hu _), Path.names_join (isPart_fileName hu _)] at hnames
  have hname := List.append_cancel_left (congrArg Prod.fst hnames)
  exact codeName_injective (List.singleton_inj.mp hname)

/-- The path of an entry is the path of its artifact, whose file name tells this path and is no
other entry's; and changes of the artifacts of other entries show in no answer about it. -/
theorem entries_keep_apart (hparse : Diff.parse contextLine text = .ok set)
    (hu : FileName.Usable l.extension.toList) :
    (∀ c ∈ set.entries, '\\' ∉ c.path.toList ∧ Key.ofPath c.path = .code c.path ∧
      FileName.decode? l.extension.toList (l.codeName c.path).toList = some c.path.toList) ∧
    (∀ c ∈ set.entries, ∀ d ∈ set.entries,
      (l.codeName c.path = l.codeName d.path → c = d) ∧
      (l.artifactPath .current (Key.ofPath c.path) = l.artifactPath .current (Key.ofPath d.path) →
        c = d)) ∧
    ∀ cwd s₀ w₀, Store.Clean l cwd s₀ w₀ → ∀ ts s w, perform ts s₀ w₀ = some (s, w) →
      ∀ c ∈ set.entries, ∀ others : List Change,
      (∀ e ∈ others, ∃ d ∈ set.entries, d ≠ c ∧ e.key = Key.ofPath d.path) →
      ∀ s' w', perform (ts ++ others.map .change) s₀ w₀ = some (s', w') →
        Agree (Key.ofPath c.path) s w s' w' := by
  have hkey : ∀ c ∈ set.entries, Key.ofPath c.path = .code c.path := fun c hc =>
    Key.ofPath_eq (Diff.backslash_not_mem_parse hparse c hc)
  refine ⟨fun c hc => ⟨Diff.backslash_not_mem_parse hparse c hc, hkey c hc, ?_⟩, ?_, ?_⟩
  · rw [codeName, String.toList_ofList, FileName.decode?_encode (hu.not_temporary _)]
  · intro c hc d hd
    refine ⟨fun h => DiffSet.eq_of_path hc hd (codeName_injective h), fun h => ?_⟩
    rw [hkey c hc, hkey d hd] at h
    exact DiffSet.eq_of_path hc hd (artifactPath_code_injective hu.storable h)
  · intro cwd s₀ w₀ hclean ts s w hrun c hc others hothers s' w' hrun'
    have hnone : (others.map Step.change).filter (·.concerns (Key.ofPath c.path)) = [] := by
      rw [List.filter_eq_nil_iff, List.forall_mem_map]
      intro e he
      obtain ⟨d, hd, hne, hkeys⟩ := hothers e he
      rw [Step.concerns, hkeys, hkey c hc, hkey d hd, decide_eq_true_iff]
      exact fun h => hne (DiffSet.eq_of_path hd hc (Key.code.inj h))
    refine agree_of_filter hu (settled_of_clean hu.storable hclean) hrun hrun' ?_
    rw [List.filter_append, hnone, List.append_nil]

def twoFiles : String :=
  "diff --git a/x/y b/x/y\nold mode 100644\nnew mode 100755\n" ++
    "diff --git \"a/x\\043y\" \"b/x\\043y\"\nold mode 100644\nnew mode 100755\n"

set_option maxRecDepth 100000 in
theorem entries_keep_apart_of_two_files : ∃ set s w s' w', Diff.parse true twoFiles = .ok set ∧
    set.paths = ["x/y", "x#y"] ∧
    perform [.change (stored "x/y" [1])] smallStore openedWorld = some (s, w) ∧
    perform [.change (stored "x/y" [1]), .change (stored "x#y" [2])] smallStore openedWorld =
      some (s', w') ∧
    Agree (.code "x/y") s w s' w' := by
  have hpaths : (Diff.parse true twoFiles).toOption.map DiffSet.paths = some ["x/y", "x#y"] := by
    decide +kernel
  obtain ⟨set, hset, hpaths⟩ := Option.map_eq_some_iff.mp hpaths
  have hparse : Diff.parse true twoFiles = .ok set := Diff.toOption_eq_some.mp hset
  obtain ⟨⟨s, w⟩, hrun⟩ : ∃ p, perform [.change (stored "x/y" [1])] smallStore openedWorld =
      some p := Option.isSome_iff_exists.mp (by decide +kernel)
  obtain ⟨⟨s', w'⟩, hrun'⟩ : ∃ p, perform [.change (stored "x/y" [1]), .change (stored "x#y" [2])]
      smallStore openedWorld = some p := Option.isSome_iff_exists.mp (by decide +kernel)
  have hentry : ∀ path ∈ set.paths, ∃ c ∈ set.entries, c.path = path := fun path h =>
    List.mem_map.mp h
  obtain ⟨c, hc, hcpath⟩ := hentry "x/y" (by rw [hpaths]; decide)
  obtain ⟨d, hd, hdpath⟩ := hentry "x#y" (by rw [hpaths]; decide)
  have hne : d ≠ c := by
    rintro rfl
    rw [hcpath] at hdpath
    exact absurd hdpath (by decide)
  have hkey : Key.ofPath "x/y" = .code "x/y" ∧ Key.ofPath "x#y" = .code "x#y" := by decide
  have hothers : ∀ e ∈ [stored "x#y" [2]], ∃ d ∈ set.entries,
      d ≠ c ∧ e.key = Key.ofPath d.path := by
    rw [List.forall_mem_singleton]
    exact ⟨d, hd, hne, by rw [hdpath, hkey.2]; rfl⟩
  have happart := (entries_keep_apart hparse usable_smallLayout).2.2 [] smallStore openedWorld
    clean_smallStore _ s w hrun c hc [stored "x#y" [2]] hothers s' w' hrun'
  rw [hcpath, hkey.1] at happart
  exact ⟨set, s, w, s', w', hparse, hpaths, hrun, hrun', happart⟩

end Layout

end SourceDelta
