import SourceDelta.Proofs.Footing

/-!
# What a store holds

The files of a store as three maps from artifacts to values, one for each area,
and the flags document. A change at one site changes one value of one map; what
is staged and which directories there are is not seen in them.
-/

set_option autoImplicit false

namespace SourceDelta

/-- The value of every artifact in every area. -/
abbrev Holdings := Area → Key → Option Bytes

namespace Holdings

def set (v : Holdings) (a : Area) (k : Key) (x : Option Bytes) : Holdings :=
  fun b j => if b = a ∧ j = k then x else v b j

def clear (v : Holdings) (a : Area) : Holdings := fun b j => if b = a then none else v b j

variable {v : Holdings} {a b : Area} {k j : Key} {x y : Option Bytes}

@[simp] theorem set_self : (v.set a k x) a k = x := by simp [set]

theorem set_area (h : b ≠ a) : (v.set a k x) b j = v b j := by simp [set, h]

theorem set_key (h : j ≠ k) : (v.set a k x) b j = v b j := by simp [set, h]

theorem set_set : (v.set a k x).set a k y = v.set a k y := by
  funext b j
  by_cases hbj : b = a ∧ j = k
  · simp [set, hbj]
  · simp [set, hbj]

theorem set_comm (h : a ≠ b) : (v.set a k x).set b j y = (v.set b j y).set a k x := by
  funext c i
  by_cases hb : c = b ∧ i = j
  · obtain ⟨rfl, rfl⟩ := hb
    rw [set_self, set_area (Ne.symm h), set_self]
  · by_cases ha : c = a ∧ i = k
    · obtain ⟨rfl, rfl⟩ := ha
      rw [set_area h, set_self, set_self]
    · simp [set, ha, hb]

theorem set_held (h : v a k = x) : v.set a k x = v := by
  funext b j
  by_cases hbj : b = a ∧ j = k
  · obtain ⟨rfl, rfl⟩ := hbj
    simp [h]
  · simp [set, hbj]

end Holdings

namespace FileSystem

def content? (fs : FileSystem) (p : Place) : Option Bytes :=
  match fs.node? p with
  | some (.file c) => some c
  | _ => none

theorem content?_congr {fs fs' : FileSystem} {p : Place} (h : fs'.node? p = fs.node? p) :
    fs'.content? p = fs.content? p := by
  rw [content?, content?, h]

theorem content?_eq_some {fs : FileSystem} {p : Place} {c : Bytes} :
    fs.content? p = some c ↔ fs.node? p = some (.file c) := by
  rw [content?]
  split
  next c' h => simp [h]
  next h =>
    constructor
    · intro hc
      cases hc
    · intro hn
      exact absurd hn (h c)

theorem node?_of_content?_none {fs : FileSystem} {p : Place} (hd : fs.node? p ≠ some .directory)
    (h : fs.content? p = none) : fs.node? p = none := by
  cases hn : fs.node? p with
  | none => rfl
  | some x =>
    cases x with
    | directory => exact absurd hn hd
    | file c => simp [content?, hn] at h

end FileSystem

namespace Layout
open SourceDelta.FileSystem (content? node?_of_content?_none content?_eq_some content?_congr below
  within)

variable {l : Layout} {cwd : Place} {fs fs' : FileSystem} {a b : Area} {k j : Key} {c : Bytes}

/-- The values of a store. -/
def held (l : Layout) (cwd : Place) (fs : FileSystem) : Holdings :=
  fun a k => fs.content? (l.site cwd a k)

def document (l : Layout) (cwd : Place) (fs : FileSystem) : Option Bytes :=
  fs.content? (l.flagsPlace cwd)

def journal (l : Layout) (cwd : Place) (fs : FileSystem) : Option Bytes :=
  fs.content? (l.journalPlace cwd)

/-- The flags document and the journal are as they were. -/
structure RecordsStay (l : Layout) (cwd : Place) (fs fs' : FileSystem) : Prop where
  document : l.document cwd fs' = l.document cwd fs
  journal : l.journal cwd fs' = l.journal cwd fs

theorem RecordsStay.refl (fs : FileSystem) : RecordsStay l cwd fs fs := ⟨rfl, rfl⟩

theorem RecordsStay.trans {fs'' : FileSystem} (h : RecordsStay l cwd fs fs')
    (h' : RecordsStay l cwd fs' fs'') : RecordsStay l cwd fs fs'' :=
  ⟨h'.document.trans h.document, h'.journal.trans h.journal⟩

theorem recordsStay_of_node? (hf : fs'.node? (l.flagsPlace cwd) = fs.node? (l.flagsPlace cwd))
    (hj : fs'.node? (l.journalPlace cwd) = fs.node? (l.journalPlace cwd)) :
    RecordsStay l cwd fs fs' :=
  ⟨content?_congr hf, content?_congr hj⟩

theorem below_flagsPlace : below (l.rootPlace cwd) (l.flagsPlace cwd) = true :=
  FileSystem.below_cons (suffix_cons_self _ _) _

theorem below_site (a : Area) (k : Key) : below (l.rootPlace cwd) (l.site cwd a k) = true :=
  FileSystem.below_cons (folder_folder l cwd a k).fixture.root_suffix _

theorem Sound.site_not_directory (h : Sound l cwd fs) (a : Area) (k : Key) :
    fs.node? (l.site cwd a k) ≠ some .directory :=
  h.not_directory (below_site a k) (not_fixture_site k)

theorem Sound.site_of_none (h : Sound l cwd fs) (hn : l.held cwd fs a k = none) :
    fs.node? (l.site cwd a k) = none :=
  node?_of_content?_none (h.site_not_directory a k) hn

theorem Sound.held_eq_some (_ : Sound l cwd fs) :
    l.held cwd fs a k = some c ↔ fs.node? (l.site cwd a k) = some (.file c) :=
  content?_eq_some

theorem Aside.held {B : Place} (h : Aside (l.rootPlace cwd) B fs fs')
    (hu : FileName.Storable l.extension.toList) : l.held cwd fs' = l.held cwd fs := by
  funext a k
  exact content?_congr (h.node? (not_fixture_site k) (not_temporary_fileName hu k))

theorem not_temporary_flags : ¬ Temporary "flags.json" := not_temporary_of_head (by decide)

theorem not_temporary_journal : ¬ Temporary "journal.ndjson" := not_temporary_of_head (by decide)

theorem Aside.records {B : Place} (h : Aside (l.rootPlace cwd) B fs fs') :
    RecordsStay l cwd fs fs' :=
  recordsStay_of_node? (h.node? not_fixture_flagsPlace not_temporary_flags)
    (h.node? not_fixture_journalPlace not_temporary_journal)

theorem held_of_site {x : Option Bytes} (hs : fs'.content? (l.site cwd a k) = x)
    (ho : ∀ q, q ≠ l.site cwd a k → fs'.node? q = fs.node? q) :
    l.held cwd fs' = (l.held cwd fs).set a k x := by
  funext b j
  by_cases hbj : b = a ∧ j = k
  · obtain ⟨rfl, rfl⟩ := hbj
    rw [Holdings.set_self]
    exact hs
  · rw [Holdings.set, if_neg hbj]
    exact content?_congr (ho _ fun he => hbj (site_injective he))

theorem records_of_site (ho : ∀ q, q ≠ l.site cwd a k → fs'.node? q = fs.node? q) :
    RecordsStay l cwd fs fs' :=
  recordsStay_of_node? (ho _ (Ne.symm site_ne_flagsPlace)) (ho _ (Ne.symm site_ne_journalPlace))

theorem Sound.folder_of_held (h : Sound l cwd fs) (hk : l.held cwd fs a k ≠ none) :
    fs.node? (l.folderPlace cwd a k) = some .directory := by
  apply h.tree (l.fileName k) _ (folder_folder l cwd a k).fixture.root_suffix
  intro hn
  exact hk (by rw [held, content?, site, hn])

theorem Sound.holdable_of_held (h : Sound l cwd fs) (hk : l.held cwd fs a k ≠ none) :
    Holdable l a k := by
  apply h.holdable
  intro hn
  exact hk (by rw [held, content?, hn])

theorem Sound.reaches_site (h : Sound l cwd fs) (hk : Holdable l a k)
    (hd : fs.node? (l.folderPlace cwd a k) = some .directory) :
    fs.Reaches cwd (l.artifactPath a k) (l.folderPlace cwd a k) (l.fileName k) := by
  have hf := hk.fits
  rw [artifactPath_eq] at hf ⊢
  exact h.reaches (folder_folder l cwd a k) hd hk.name hk.short hf

theorem Sound.reaches_held (h : Sound l cwd fs) (hk : l.held cwd fs a k ≠ none) :
    fs.Reaches cwd (l.artifactPath a k) (l.folderPlace cwd a k) (l.fileName k) :=
  h.reaches_site (h.holdable_of_held hk) (h.folder_of_held hk)

theorem placeOf_artifact (hn : Path.IsName (l.fileName k)) :
    FileSystem.placeOf cwd (l.artifactPath a k) = l.site cwd a k := by
  rw [artifactPath_eq, FileSystem.placeOf_join hn, (folder_folder l cwd a k).placeOf, site]

theorem Sound.pathExists (h : Sound l cwd fs) (hn : l.fileName k ≠ "..") :
    fs.pathExists cwd (l.artifactPath a k) = (l.held cwd fs a k).isSome := by
  cases hk : l.held cwd fs a k with
  | some c =>
    rw [(h.reaches_held (by simp [hk])).pathExists]
    have := h.held_eq_some.mp hk
    rw [site] at this
    simp [this]
  | none =>
    have hnone := h.site_of_none hk
    rw [FileSystem.pathExists]
    split
    next p hp =>
      obtain ⟨-, -, hplace, hnode, -⟩ := FileSystem.walk_of_find hp
      rw [placeOf_artifact (isName_fileName h.storable hn)] at hplace
      rw [hplace, hnone] at hnode
      cases hnode
    next => rfl

theorem Sound.readFile (h : Sound l cwd fs) (hk : l.held cwd fs a k = some c) :
    fs.readFile cwd (l.artifactPath a k) = .ok c :=
  (h.reaches_held (by simp [hk])).readFile (h.held_eq_some.mp hk)

theorem Sound.readFile_none (h : Sound l cwd fs) (hk : l.held cwd fs a k = none)
    (hh : Holdable l a k) (hd : fs.node? (l.folderPlace cwd a k) = some .directory) :
    fs.readFile cwd (l.artifactPath a k) = .error .noEntry :=
  (h.reaches_site hh hd).readFile_none (h.site_of_none hk)

theorem not_holdable_nameless (hn : l.fileName k = "..") : ¬ Holdable l a k :=
  fun h => h.name.ne_dots hn

theorem Sound.held_nameless (h : Sound l cwd fs) (hn : l.fileName k = "..") :
    l.held cwd fs a k = none := by
  by_contra hk
  exact not_holdable_nameless hn (h.holdable_of_held hk)

theorem Sound.find_nameless (h : Sound l cwd fs) (hn : l.fileName k = "..") (p : Place) (c : Bytes) :
    fs.find cwd (l.artifactPath a k) ≠ .ok (p, .file c) := by
  intro hp
  obtain ⟨-, -, hplace, hnode, -⟩ := FileSystem.walk_of_find hp
  obtain ⟨q, rfl⟩ := nameless_code hn
  rw [artifactPath_eq, hn, FileSystem.placeOf_join_dots,
    (folder_folder l cwd a (.code q)).placeOf] at hplace
  subst hplace
  exact h.noFile _ (.area a) c hnode

/-- A file that is found at the path of an artifact is its value. -/
theorem Sound.held_of_find (h : Sound l cwd fs) {p : Place}
    (hp : fs.find cwd (l.artifactPath a k) = .ok (p, .file c)) : l.held cwd fs a k = some c := by
  by_cases hn : l.fileName k = ".."
  · exact absurd hp (h.find_nameless hn p c)
  · obtain ⟨-, -, hplace, hnode, -⟩ := FileSystem.walk_of_find hp
    rw [placeOf_artifact (isName_fileName h.storable hn)] at hplace
    exact h.held_eq_some.mpr (hplace ▸ hnode)

theorem Sound.held_of_readFile (h : Sound l cwd fs)
    (hr : fs.readFile cwd (l.artifactPath a k) = .ok c) : l.held cwd fs a k = some c := by
  rw [FileSystem.readFile] at hr
  split at hr
  · cases hr
  · cases hr
  next hp =>
    cases hr
    exact h.held_of_find hp

theorem Sound.pathExists_folder (h : Sound l cwd fs) {d : String} {D B : Place}
    (hd : Folder l (l.rootPlace cwd) d D B) :
    fs.pathExists cwd d = true ↔ fs.node? D = some .directory := by
  constructor
  · intro he
    rw [FileSystem.pathExists] at he
    split at he
    next p hp =>
      obtain ⟨p, x⟩ := p
      obtain ⟨-, -, hplace, hnode, -⟩ := FileSystem.walk_of_find hp
      rw [hd.placeOf] at hplace
      subst hplace
      cases x with
      | directory => exact hnode
      | file c => exact absurd hnode (h.noFile _ hd.fixture c)
    next => cases he
  · intro hD
    have := FileSystem.isDirectory_iff.mpr ⟨h.opens_folder hd hD, hd.fits h.toGround, hd.ne_empty⟩
    obtain ⟨p, hp⟩ := FileSystem.isDirectory_iff_find.mp this
    rw [FileSystem.pathExists, hp]

end Layout

end SourceDelta
