import SourceDelta.Proofs.FileNames
import SourceDelta.Proofs.Nodes

/-!
# Where a store keeps its files

Every artifact has a site in each area, and no two artifacts share one. The
sites, the flags document, the journal and the directories of a store are all
different places, and a staged file stands at none of them.
-/

set_option autoImplicit false

namespace SourceDelta.Layout
open SourceDelta.FileSystem (Fits Opens placeOf startOf lead within maxName)

variable {l : Layout} {cwd : Place} {a b : Area} {k k' : Key}

def rootPlace (l : Layout) (cwd : Place) : Place := placeOf cwd l.root

def fileName (l : Layout) : Key → String
  | .code path => l.codeName path
  | k => k.kind.name ++ "." ++ l.extension

def folder (l : Layout) (a : Area) : Key → String
  | .code _ => l.codePath a
  | _ => l.areaPath a

def folderPlace (l : Layout) (cwd : Place) (a : Area) : Key → Place
  | .code _ => "code" :: a.name :: l.rootPlace cwd
  | _ => a.name :: l.rootPlace cwd

def site (l : Layout) (cwd : Place) (a : Area) (k : Key) : Place :=
  l.fileName k :: l.folderPlace cwd a k

def flagsPlace (l : Layout) (cwd : Place) : Place := "flags.json" :: "meta" :: l.rootPlace cwd

def journalPlace (l : Layout) (cwd : Place) : Place := "journal.ndjson" :: l.rootPlace cwd

theorem artifactPath_eq (l : Layout) (a : Area) (k : Key) :
    l.artifactPath a k = Path.join (l.folder a k) (l.fileName k) := by
  cases k <;> rfl

theorem isName_area (a : Area) : Path.IsName a.name := by
  cases a <;> exact ⟨⟨by decide, by decide, by decide⟩, by decide⟩

theorem isName_code : Path.IsName "code" := ⟨⟨by decide, by decide, by decide⟩, by decide⟩

theorem isName_meta : Path.IsName "meta" := ⟨⟨by decide, by decide, by decide⟩, by decide⟩

theorem isName_flags : Path.IsName "flags.json" := ⟨⟨by decide, by decide, by decide⟩, by decide⟩

theorem isName_journal : Path.IsName "journal.ndjson" :=
  ⟨⟨by decide, by decide, by decide⟩, by decide⟩

theorem area_name_injective (h : a.name = b.name) : a = b := by
  cases a <;> cases b <;> first | rfl | (revert h; decide)

theorem area_name_ne_meta (a : Area) : a.name ≠ "meta" := by
  cases a <;> decide

def Temporary (n : String) : Prop := ∃ name process fresh, n = Staged.temporaryName name process fresh

theorem toList_temporaryName (n : String) (process fresh : Nat) :
    (Staged.temporaryName n process fresh).toList = '.' :: (n.toList ++ '.' ::
      (toString process).toList) ++ '.' :: (toString fresh).toList ++ ".tmp".toList := by
  simp [Staged.temporaryName]

theorem not_temporary_of_head {n : String} (h : n.toList.head? ≠ some '.') : ¬ Temporary n := by
  rintro ⟨name, process, fresh, rfl⟩
  rw [toList_temporaryName] at h
  exact absurd rfl h

theorem isPart_fileName (hu : FileName.Storable l.extension.toList) (k : Key) :
    Path.IsPart (l.fileName k) := by
  have hext := List.length_pos_iff.mpr hu.ne_nil
  constructor
  · intro h
    have hl := congrArg (fun s => s.toList.length) h
    cases k <;> simp [fileName, codeName, FileName.encode] at hl
  · cases k with
    | code path => simpa [fileName, codeName] using FileName.slash_not_mem_encode hu.noSlash _
    | build =>
      have : '/' ∉ "build".toList := by decide
      simp [fileName, Key.kind, ArtifactKind.name, hu.noSlash]
    | variability => simp [fileName, Key.kind, ArtifactKind.name, hu.noSlash]
  · intro h
    have hl := congrArg (fun s => s.toList.length) h
    have hd : ".".toList.length = 1 := rfl
    simp only [hd] at hl
    cases k <;> simp [fileName, codeName, FileName.encode] at hl <;> omega

theorem isName_fileName (hu : FileName.Storable l.extension.toList) (h : l.fileName k ≠ "..") :
    Path.IsName (l.fileName k) :=
  ⟨isPart_fileName hu k, h⟩

-- Two dots are the file name of the empty path when the extension is a dot. Nothing is ever stored
-- under that name.
theorem fileName_ne_dots_of_head {n : String} {c : Char} (h : n.toList.head? = some c)
    (hc : c ≠ '.') : n ≠ ".." := by
  rintro rfl
  simp at h
  exact hc h.symm

theorem fileName_build_ne : l.fileName .build ≠ ".." :=
  fileName_ne_dots_of_head (c := 'b') (by simp [fileName, Key.kind, ArtifactKind.name]) (by decide)

theorem fileName_variability_ne : l.fileName .variability ≠ ".." :=
  fileName_ne_dots_of_head (c := 'v') (by simp [fileName, Key.kind, ArtifactKind.name]) (by decide)

theorem fileName_ne_dots (hs : FileName.Storable l.extension.toList)
    (hdot : l.extension.toList.head? ≠ some '.') (k : Key) : l.fileName k ≠ ".." := by
  cases k with
  | code p =>
    intro h
    have hlist : FileName.stem p.toList ++ '.' :: l.extension.toList = ['.', '.'] := by
      simpa [fileName, codeName, FileName.encode] using congrArg String.toList h
    cases hstem : FileName.stem p.toList with
    | nil =>
      rw [hstem, List.nil_append] at hlist
      rw [(List.cons.inj hlist).2] at hdot
      exact hdot rfl
    | cons c cs =>
      have hext := List.length_pos_iff.mpr hs.ne_nil
      have hlen := congrArg List.length hlist
      simp [hstem] at hlen
      omega
  | build => exact fileName_build_ne
  | variability => exact fileName_variability_ne

theorem nameless_code (hn : l.fileName k = "..") : ∃ p, k = .code p := by
  cases k with
  | code p => exact ⟨p, rfl⟩
  | build => exact absurd hn fileName_build_ne
  | variability => exact absurd hn fileName_variability_ne

theorem not_temporary_fileName (hu : FileName.Storable l.extension.toList) (k : Key) :
    ¬ Temporary (l.fileName k) := by
  cases k with
  | code path =>
    rintro ⟨name, process, fresh, hn⟩
    have hlist := congrArg String.toList hn
    rw [fileName, codeName, String.toList_ofList, toList_temporaryName] at hlist
    exact hu.not_staged _ _ fresh hlist
  | build => exact not_temporary_of_head (by simp [fileName, Key.kind, ArtifactKind.name])
  | variability => exact not_temporary_of_head (by simp [fileName, Key.kind, ArtifactKind.name])

theorem site_injective (h : l.site cwd a k = l.site cwd b k') : a = b ∧ k = k' := by
  obtain ⟨hn, hf⟩ := List.cons.inj h
  cases k with
  | code p =>
    cases k' with
    | code q =>
      simp only [folderPlace, List.cons.injEq, true_and, and_true] at hf
      refine ⟨area_name_injective hf, ?_⟩
      have := FileName.encode_injective (String.ofList_injective hn)
      rw [String.toList_injective this]
    | build => simpa [folderPlace] using congrArg List.length hf
    | variability => simpa [folderPlace] using congrArg List.length hf
  | build =>
    cases k' with
    | code q => simpa [folderPlace] using congrArg List.length hf
    | build => exact ⟨area_name_injective (List.cons.inj hf).1, rfl⟩
    | variability =>
      have := congrArg (fun s => s.toList.head?) hn
      simp [fileName, Key.kind, ArtifactKind.name] at this
  | variability =>
    cases k' with
    | code q => simpa [folderPlace] using congrArg List.length hf
    | build =>
      have := congrArg (fun s => s.toList.head?) hn
      simp [fileName, Key.kind, ArtifactKind.name] at this
    | variability => exact ⟨area_name_injective (List.cons.inj hf).1, rfl⟩

theorem site_ne_flagsPlace : l.site cwd a k ≠ l.flagsPlace cwd := by
  intro h
  cases k <;> simp [site, flagsPlace, folderPlace, area_name_ne_meta] at h

theorem site_ne_journalPlace : l.site cwd a k ≠ l.journalPlace cwd := by
  intro h
  have := congrArg List.length h
  cases k <;> simp [site, journalPlace, folderPlace] at this
  omega

theorem flagsPlace_ne_journalPlace : l.flagsPlace cwd ≠ l.journalPlace cwd := by
  intro h
  have := congrArg List.length h
  simp [flagsPlace, journalPlace] at this

/-- The directories that a store makes below its root. -/
inductive Fixture (R : Place) : Place → Prop
  | area (a : Area) : Fixture R (a.name :: R)
  | code (a : Area) : Fixture R ("code" :: a.name :: R)
  | records : Fixture R ("meta" :: R)

/-- A directory in which files are put whole: its path, its place and the branch it lies on. -/
inductive Folder (l : Layout) (R : Place) : String → Place → Place → Prop
  | area (a : Area) : Folder l R (l.areaPath a) (a.name :: R) (a.name :: R)
  | code (a : Area) : Folder l R (l.codePath a) ("code" :: a.name :: R) (a.name :: R)
  | records : Folder l R (Path.join l.root "meta") ("meta" :: R) ("meta" :: R)

theorem folder_folder (l : Layout) (cwd : Place) (a : Area) (k : Key) :
    Folder l (l.rootPlace cwd) (l.folder a k) (l.folderPlace cwd a k)
      (a.name :: l.rootPlace cwd) := by
  cases k
  · exact .code a
  · exact .area a
  · exact .area a

variable {R D B : Place} {d n : String}

theorem Folder.fixture (h : Folder l R d D B) : Fixture R D := by
  cases h
  · exact .area _
  · exact .code _
  · exact .records

theorem Folder.placeOf (h : Folder l (l.rootPlace cwd) d D B) : placeOf cwd d = D := by
  cases h with
  | area a => exact FileSystem.placeOf_join (isName_area a)
  | code a =>
    rw [codePath, FileSystem.placeOf_join isName_code, areaPath,
      FileSystem.placeOf_join (isName_area a)]
    rfl
  | records => exact FileSystem.placeOf_join isName_meta

theorem Folder.trimmed (h : Folder l R d D B) : Path.trimmed d = d := by
  cases h with
  | area a => exact Path.trimmed_join (isName_area a).toIsPart
  | code a => exact Path.trimmed_join isName_code.toIsPart
  | records => exact Path.trimmed_join isName_meta.toIsPart

theorem Folder.ne_empty (h : Folder l R d D B) : d ≠ "" := by
  cases h with
  | area a => exact Path.join_ne_empty (isName_area a).toIsPart
  | code a => exact Path.join_ne_empty isName_code.toIsPart
  | records => exact Path.join_ne_empty isName_meta.toIsPart

theorem Folder.parent? (h : Folder l R d D B) (hn : Path.IsPart n) :
    Path.parent? (Path.join d n) = some d := by
  rw [Path.parent?_join hn, h.trimmed]

theorem folder_injective (h : l.folder a k = l.folder b k) : a = b := by
  have hplace := congrArg (FileSystem.placeOf []) h
  rw [(folder_folder l [] a k).placeOf, (folder_folder l [] b k).placeOf] at hplace
  cases k <;> simp [folderPlace] at hplace <;> exact area_name_injective hplace

theorem folder_ne_records : l.folder a k ≠ Path.join l.root "meta" := by
  intro h
  have hplace := congrArg (FileSystem.placeOf []) h
  rw [(folder_folder l [] a k).placeOf,
    (Folder.records : Folder l (l.rootPlace []) _ _ _).placeOf] at hplace
  cases k
  · simpa [folderPlace] using congrArg List.length hplace
  · exact area_name_ne_meta a (List.cons.inj hplace).1
  · exact area_name_ne_meta a (List.cons.inj hplace).1

theorem artifactPath_injective (hn : Path.IsPart (l.fileName k))
    (h : l.artifactPath a k = l.artifactPath b k) : a = b := by
  have hparent := congrArg Path.parent? h
  rw [artifactPath_eq, artifactPath_eq, (folder_folder l [] a k).parent? hn,
    (folder_folder l [] b k).parent? hn] at hparent
  exact folder_injective (Option.some.inj hparent)

theorem Folder.within (h : Folder l R d D B) (n : String) : within B (n :: D) = true := by
  simp only [FileSystem.within, List.isSuffixOf_iff_suffix]
  cases h
  · exact List.suffix_cons _ _
  · exact ⟨[n, "code"], rfl⟩
  · exact List.suffix_cons _ _

theorem not_fixture_of_dot {p : Place} (h : '.' ∈ n.toList) : ¬ Fixture R (n :: p) := by
  intro hf
  generalize hq : n :: p = q at hf
  cases hf with
  | area a =>
    rw [(List.cons.inj hq).1] at h
    cases a <;> revert h <;> decide
  | code a =>
    rw [(List.cons.inj hq).1] at h
    revert h
    decide
  | records =>
    rw [(List.cons.inj hq).1] at h
    revert h
    decide

theorem dot_mem_fileName (k : Key) : '.' ∈ (l.fileName k).toList := by
  cases k <;> simp [fileName, codeName, FileName.encode]

theorem Temporary.dot_mem (h : Temporary n) : '.' ∈ n.toList := by
  obtain ⟨name, process, fresh, rfl⟩ := h
  simp [toList_temporaryName]

theorem not_fixture_site (k : Key) : ¬ Fixture R (l.site cwd a k) :=
  not_fixture_of_dot (dot_mem_fileName k)

theorem not_fixture_flagsPlace : ¬ Fixture R (l.flagsPlace cwd) :=
  not_fixture_of_dot (by decide)

theorem not_fixture_journalPlace : ¬ Fixture R (l.journalPlace cwd) :=
  not_fixture_of_dot (by decide)

end SourceDelta.Layout
