import SourceDelta.FileSystem.Tree
import SourceDelta.Proofs.Paths

/-!
# Lookups

A lookup that succeeds ends at a place that the text of the path decides: there
are no links, and a name, a dot and two dots mean the same in every file system.
Which lookups succeed depends on the directories alone, and more directories let
more lookups succeed.
-/

set_option autoImplicit false

namespace SourceDelta.FileSystem

variable {fs : FileSystem} {cwd : Place} {path : String}

def onward (d : Place) : Last → Place
  | .here => d
  | .up => d.tail
  | .name s => s :: d

def lead (d : Place) (names : List String) : Place :=
  names.foldl (fun d s => onward d (.ofName s)) d

def startOf (cwd : Place) (path : String) : Place := if Path.isAbsolute path then [] else cwd

/-- The place that a path names. -/
def placeOf (cwd : Place) (path : String) : Place := lead (startOf cwd path) (Path.names path).1

theorem lead_append (d : Place) (xs ys : List String) :
    lead d (xs ++ ys) = lead (lead d xs) ys := by
  simp [lead]

theorem ofName_of_isName {n : String} (h : Path.IsName n) : Last.ofName n = .name n := by
  simp [Last.ofName, h.ne_dot, h.ne_dots]

theorem placeOf_join {d n : String} (h : Path.IsName n) :
    placeOf cwd (Path.join d n) = n :: placeOf cwd d := by
  rw [placeOf, Path.names_join h.toIsPart, startOf, Path.isAbsolute_join h.toIsPart, lead_append]
  simp [lead, ofName_of_isName h, onward, placeOf, startOf]

theorem placeOf_join_dots {d : String} :
    placeOf cwd (Path.join d "..") = (placeOf cwd d).tail := by
  rw [placeOf, Path.names_join Path.isPart_dots, startOf, Path.isAbsolute_join Path.isPart_dots,
    lead_append]
  rfl

theorem lead_dots (d : Place) {dots : List String} (h : ∀ x ∈ dots, x = ".") :
    lead d dots = d := by
  induction dots with
  | nil => rfl
  | cons x xs ih =>
    have hx : x = "." := h x (by simp)
    rw [lead, List.foldl_cons, hx]
    exact ih fun y hy => h y (by simp [hy])

theorem placeOf_trimmed (d : String) : placeOf cwd (Path.trimmed d) = placeOf cwd d := by
  obtain ⟨dots, hn, hdots⟩ := Path.names_trimmed d
  rw [placeOf, placeOf, startOf, startOf, Path.isAbsolute_trimmed, hn, lead_append,
    lead_dots _ hdots]

def walk (fs : FileSystem) : Place → List String → Except IoError Place
  | d, [] => .ok d
  | d, s :: rest =>
    match fs.step d (.ofName s) with
    | .ok d => walk fs d rest
    | .error e => .error e

theorem step_eq_ok {d p : Place} {last : Last} (h : fs.step d last = .ok p) :
    fs.node? d = some .directory ∧ p = onward d last := by
  simp only [step] at h
  split at h
  · cases h
  · cases h
  next hd =>
    refine ⟨hd, ?_⟩
    cases last with
    | here => cases h; rfl
    | up => cases h; rfl
    | name s =>
      simp only at h
      split at h
      · cases h
      · cases h; rfl

theorem short_of_step {d p : Place} {n : String} (h : fs.step d (.name n) = .ok p) :
    n.utf8ByteSize ≤ maxName := by
  have hdir := (step_eq_ok h).1
  simp only [step, hdir] at h
  split at h
  · cases h
  next hshort => exact Nat.not_lt.mp hshort

theorem step_of_directory {fs' : FileSystem} {d p : Place} {last : Last}
    (h : fs.step d last = .ok p) (hdir : fs'.node? d = some .directory) :
    fs'.step d last = .ok p := by
  have hdir' := (step_eq_ok h).1
  simp only [step, hdir'] at h
  simp only [step, hdir]
  exact h

theorem walk_eq_ok {d p : Place} {xs : List String} (h : fs.walk d xs = .ok p) :
    p = lead d xs := by
  induction xs generalizing d with
  | nil => cases h; rfl
  | cons x xs ih =>
    simp only [walk] at h
    split at h
    next e hs =>
      rw [ih h, (step_eq_ok hs).2]
      rfl
    next => cases h

theorem walk_append (d : Place) (xs ys : List String) :
    fs.walk d (xs ++ ys) = match fs.walk d xs with
      | .ok e => fs.walk e ys
      | .error e => .error e := by
  induction xs generalizing d with
  | nil => rfl
  | cons x xs ih =>
    simp only [List.cons_append, walk]
    cases fs.step d (.ofName x) with
    | ok e => exact ih e
    | error e => rfl

theorem follow_append {d e : Place} {xs : List String} (slash : Bool) (y : String)
    (h : fs.walk d xs = .ok e) :
    fs.follow slash d (xs ++ [y]) = .ok ⟨e, .ofName y, slash⟩ := by
  induction xs generalizing d with
  | nil => cases h; rfl
  | cons x xs ih =>
    simp only [walk] at h
    split at h
    next d' hs =>
      have := ih h
      cases xs with
      | nil => simpa [follow, hs] using this
      | cons z zs => simpa [follow, hs] using this
    next => cases h

theorem follow_eq_ok {d : Place} {slash : Bool} {xs : List String} {t : Target}
    (h : fs.follow slash d xs = .ok t) {p : Place} (hs : fs.step t.directory t.last = .ok p) :
    fs.walk d xs = .ok p := by
  induction xs generalizing d with
  | nil =>
    cases h
    rw [walk, (step_eq_ok hs).2]
    rfl
  | cons x xs ih =>
    cases xs with
    | nil =>
      cases h
      simp only [walk]
      rw [hs]
    | cons y ys =>
      simp only [follow] at h
      split at h
      next e he =>
        simp only [walk, he]
        exact ih h
      next => cases h

/-- The path leads to a directory. -/
structure Opens (fs : FileSystem) (cwd : Place) (path : String) : Prop where
  walks : fs.walk (startOf cwd path) (Path.names path).1 = .ok (placeOf cwd path)
  directory : fs.node? (placeOf cwd path) = some .directory

/-- The path is one that the system takes. -/
structure Fits (path : String) : Prop where
  noNul : Path.hasNul path = false
  short : path.utf8ByteSize ≤ maxPath

/-- The file system has the directories of another one. -/
def DirectoriesStay (fs fs' : FileSystem) : Prop :=
  ∀ p, fs.node? p = some .directory → fs'.node? p = some .directory

theorem walk_of_lead {fs' : FileSystem} {d p : Place} {xs : List String}
    (hw : fs.walk d xs = .ok p)
    (h : ∀ ys, ys <+: xs → fs.node? (lead d ys) = some .directory →
      fs'.node? (lead d ys) = some .directory) : fs'.walk d xs = .ok p := by
  induction xs generalizing d with
  | nil => exact hw
  | cons x xs ih =>
    simp only [FileSystem.walk] at hw ⊢
    split at hw
    next e hs =>
      obtain ⟨hd, he⟩ := step_eq_ok hs
      have hd' : fs'.node? d = some .directory := h [] List.nil_prefix hd
      rw [step_of_directory hs hd']
      refine ih hw fun ys hys hdir => ?_
      have := h (x :: ys) (List.cons_prefix_cons.mpr ⟨rfl, hys⟩)
      rw [lead, List.foldl_cons, ← lead, ← he] at this
      exact this hdir
    next => cases hw

theorem Opens.of_lead {fs' : FileSystem} (ho : fs.Opens cwd path)
    (h : ∀ ys, ys <+: (Path.names path).1 →
      fs.node? (lead (startOf cwd path) ys) = some .directory →
      fs'.node? (lead (startOf cwd path) ys) = some .directory) : fs'.Opens cwd path :=
  ⟨walk_of_lead ho.walks h, h _ List.prefix_rfl ho.directory⟩

theorem DirectoriesStay.walk {fs' : FileSystem} (h : DirectoriesStay fs fs') {d p : Place}
    {xs : List String} (hw : fs.walk d xs = .ok p) : fs'.walk d xs = .ok p :=
  walk_of_lead hw fun _ _ => h _

theorem DirectoriesStay.opens {fs' : FileSystem} (h : DirectoriesStay fs fs')
    (ho : fs.Opens cwd path) : fs'.Opens cwd path :=
  ⟨h.walk ho.walks, h _ ho.directory⟩

theorem target_eq_ok {t : Target} :
    fs.target cwd path = .ok t ↔ Fits path ∧ path ≠ "" ∧
      fs.follow (Path.names path).2 (startOf cwd path) (Path.names path).1 = .ok t ∧
      fs.node? t.directory = some .directory := by
  have hfits : Fits path ↔ Path.hasNul path = false ∧ ¬ maxPath < path.utf8ByteSize :=
    ⟨fun h => ⟨h.noNul, by have := h.short; omega⟩, fun h => ⟨h.1, by omega⟩⟩
  rw [hfits, target]
  cases Path.hasNul path with
  | true => simp
  | false =>
    by_cases hne : path = ""
    · simp [hne]
    by_cases hshort : maxPath < path.utf8ByteSize
    · simp [hne, hshort]
    simp only [Bool.false_eq_true, if_false, hne, hshort, startOf, not_false_eq_true, true_and,
      ne_eq]
    cases fs.follow (Path.names path).2 (if Path.isAbsolute path then [] else cwd)
      (Path.names path).1 with
    | error e => simp
    | ok t' =>
      simp only [Except.ok.injEq]
      constructor
      · intro h
        split at h
        · cases h
        · cases h
        next hn =>
          cases h
          exact ⟨rfl, hn⟩
      · rintro ⟨rfl, hn⟩
        rw [hn]

theorem DirectoriesStay.follow {fs' : FileSystem} (h : DirectoriesStay fs fs') {d : Place}
    {slash : Bool} {xs : List String} {t : Target} (hf : fs.follow slash d xs = .ok t) :
    fs'.follow slash d xs = .ok t := by
  induction xs generalizing d with
  | nil => exact hf
  | cons x xs ih =>
    cases xs with
    | nil => exact hf
    | cons y ys =>
      rw [FileSystem.follow] at hf ⊢
      split at hf
      next e hs =>
        rw [step_of_directory hs (h _ (step_eq_ok hs).1)]
        exact ih hf
      next => cases hf

theorem DirectoriesStay.target {fs' : FileSystem} (h : DirectoriesStay fs fs') {t : Target}
    (ht : fs.target cwd path = .ok t) : fs'.target cwd path = .ok t := by
  obtain ⟨hfits, hne, hf, hdir⟩ := target_eq_ok.mp ht
  exact target_eq_ok.mpr ⟨hfits, hne, h.follow hf, h _ hdir⟩

theorem find_eq_ok {p : Place} {n : Node} (h : fs.find cwd path = .ok (p, n)) :
    ∃ t, fs.target cwd path = .ok t ∧ fs.step t.directory t.last = .ok p ∧
      fs.node? p = some n := by
  simp only [find] at h
  split at h
  · cases h
  next t ht =>
    refine ⟨t, ht, ?_⟩
    split at h
    · cases h
    next q hs =>
      split at h
      · cases h
      · cases h
      next m _ hn _ =>
        cases h
        exact ⟨hs, hn⟩

theorem walk_of_find {p : Place} {n : Node} (h : fs.find cwd path = .ok (p, n)) :
    Fits path ∧ path ≠ "" ∧ p = placeOf cwd path ∧ fs.node? p = some n ∧
      fs.walk (startOf cwd path) (Path.names path).1 = .ok p := by
  obtain ⟨t, ht, hs, hn⟩ := find_eq_ok h
  obtain ⟨hfits, hne, hf, -⟩ := target_eq_ok.mp ht
  have hw := follow_eq_ok hf hs
  exact ⟨hfits, hne, walk_eq_ok hw, hn, hw⟩

theorem isDirectory_iff_find :
    fs.isDirectory cwd path = true ↔ ∃ p, fs.find cwd path = .ok (p, .directory) := by
  simp only [isDirectory]
  split
  next p h => simp [h]
  next h => simpa using fun p hp => h p hp

theorem follow_of_walk {a p : Place} {xs : List String} (slash : Bool)
    (ha : fs.node? a = some .directory) (h : fs.walk a xs = .ok p) :
    ∃ t, fs.follow slash a xs = .ok t ∧ t.slash = slash ∧
      fs.node? t.directory = some .directory ∧ fs.step t.directory t.last = .ok p := by
  rcases List.eq_nil_or_concat xs with rfl | ⟨ys, y, rfl⟩
  · cases h
    exact ⟨⟨a, .here, slash⟩, rfl, rfl, ha, by simp [step, ha]⟩
  · rw [List.concat_eq_append, walk_append] at h
    rw [List.concat_eq_append]
    cases hw : fs.walk a ys with
    | error e => rw [hw] at h; cases h
    | ok b =>
      rw [hw] at h
      simp only [walk] at h
      split at h
      next q hs =>
        cases h
        exact ⟨_, follow_append slash y hw, rfl, (step_eq_ok hs).1, hs⟩
      next => cases h

theorem isDirectory_iff :
    fs.isDirectory cwd path = true ↔ fs.Opens cwd path ∧ Fits path ∧ path ≠ "" := by
  constructor
  · intro h
    obtain ⟨p, hp⟩ := isDirectory_iff_find.mp h
    obtain ⟨hfits, hne, hplace, hn, hw⟩ := walk_of_find hp
    exact ⟨⟨hplace ▸ hw, hplace ▸ hn⟩, hfits, hne⟩
  · rintro ⟨ho, hfits, hne⟩
    have ha : fs.node? (startOf cwd path) = some .directory := by
      have hw := ho.walks
      cases hx : (Path.names path).1 with
      | nil =>
        rw [hx, walk, Except.ok.injEq] at hw
        exact hw ▸ ho.directory
      | cons x xs =>
        rw [hx, walk] at hw
        split at hw
        next hs => exact (step_eq_ok hs).1
        next => cases hw
    obtain ⟨t, hf, -, hdir, hs⟩ := follow_of_walk (Path.names path).2 ha ho.walks
    refine isDirectory_iff_find.mpr ⟨placeOf cwd path, ?_⟩
    rw [find, target_eq_ok.mpr ⟨hfits, hne, hf, hdir⟩]
    simp only [hs, ho.directory]

theorem DirectoriesStay.isDirectory {fs' : FileSystem} (h : DirectoriesStay fs fs')
    (hd : fs.isDirectory cwd path = true) : fs'.isDirectory cwd path = true := by
  rw [isDirectory_iff] at hd ⊢
  exact ⟨h.opens hd.1, hd.2⟩

variable {d n : String}

theorem follow_append_error {a : Place} {xs : List String} {e : IoError} (slash : Bool) (y : String)
    (h : fs.walk a xs = .error e) : fs.follow slash a (xs ++ [y]) = .error e := by
  induction xs generalizing a with
  | nil => cases h
  | cons x xs ih =>
    simp only [walk] at h
    split at h
    next a' hs =>
      have := ih h
      cases xs with
      | nil => cases h
      | cons z zs => simpa [follow, hs] using this
    next e' hs =>
      cases h
      cases xs with
      | nil => simp [follow, hs]
      | cons z zs => simp [follow, hs]

theorem target_join (hn : Path.IsPart n) {t : Target} :
    fs.target cwd (Path.join d n) = .ok t ↔
      Fits (Path.join d n) ∧ fs.Opens cwd d ∧ t = ⟨placeOf cwd d, .ofName n, false⟩ := by
  rw [target_eq_ok, Path.names_join hn, startOf, Path.isAbsolute_join hn, ← startOf]
  constructor
  · rintro ⟨hfits, -, hf, hdir⟩
    cases hw : fs.walk (startOf cwd d) (Path.names d).1 with
    | error e => rw [follow_append_error _ _ hw] at hf; cases hf
    | ok e =>
      have he : e = placeOf cwd d := walk_eq_ok hw
      rw [follow_append _ _ hw] at hf
      cases hf
      subst he
      exact ⟨hfits, ⟨hw, hdir⟩, rfl⟩
  · rintro ⟨hfits, ho, rfl⟩
    refine ⟨hfits, Path.join_ne_empty hn, ?_, ho.directory⟩
    rw [follow_append _ _ ho.walks]

theorem find_join_congr {fs' : FileSystem} (hn : Path.IsPart n) (ho : fs.Opens cwd d)
    (ho' : fs'.Opens cwd d)
    (hnode : fs'.node? (n :: placeOf cwd d) = fs.node? (n :: placeOf cwd d))
    (hup : fs'.node? (placeOf cwd d).tail = fs.node? (placeOf cwd d).tail) :
    fs'.find cwd (Path.join d n) = fs.find cwd (Path.join d n) := by
  have hdir := ho.directory
  have hdir' := ho'.directory
  by_cases hfits : Fits (Path.join d n)
  · rw [find, find, (target_join hn).mpr ⟨hfits, ho, rfl⟩, (target_join hn).mpr ⟨hfits, ho', rfl⟩]
    simp only [step, hdir, hdir']
    by_cases hdots : n = ".."
    · have hlast : Last.ofName n = .up := by
        rw [hdots]
        decide
      simp only [hlast, hup]
    · have hlast : Last.ofName n = .name n := ofName_of_isName ⟨hn, hdots⟩
      simp only [hlast]
      by_cases hlong : maxName < n.utf8ByteSize
      · simp only [if_pos hlong]
      · simp only [if_neg hlong, hnode]
  · have hne := Path.join_ne_empty (d := d) hn
    have htarget : ∀ fs : FileSystem, fs.target cwd (Path.join d n) =
        if Path.hasNul (Path.join d n) then .error .nulInPath else .error .nameTooLong := by
      intro fs
      rw [target, if_neg hne]
      split
      · rfl
      next hnul =>
        rw [if_pos]
        by_contra hshort
        exact hfits ⟨by simpa using hnul, Nat.not_lt.mp hshort⟩
    rw [find, find, htarget, htarget]
    cases Path.hasNul (Path.join d n) <;> rfl

theorem openFile_join {change : Bytes → Bytes} {fs' : FileSystem} (hn : Path.IsName n)
    (h : fs.openFile change cwd (Path.join d n) = .ok fs') :
    Fits (Path.join d n) ∧ n.utf8ByteSize ≤ maxName := by
  simp only [openFile] at h
  split at h
  · cases h
  next t ht =>
    obtain ⟨hfits, -, rfl⟩ := (target_join hn.toIsPart).mp ht
    refine ⟨hfits, ?_⟩
    split at h
    · cases h
    next p hp =>
      rw [ofName_of_isName hn] at hp
      exact short_of_step hp

theorem rename_join {old : String} {fs' : FileSystem} (hn : Path.IsName n)
    (h : fs.rename cwd old (Path.join d n) = .ok fs') :
    Fits (Path.join d n) ∧ n.utf8ByteSize ≤ maxName := by
  simp only [rename] at h
  split at h
  · cases h
  split at h
  · cases h
  next t ht =>
    obtain ⟨hfits, -, rfl⟩ := (target_join hn.toIsPart).mp ht
    refine ⟨hfits, ?_⟩
    split at h
    · cases h
    split at h
    · cases h
    split at h
    · cases h
    split at h
    · cases h
    split at h
    · cases h
    next p hp =>
      rw [ofName_of_isName hn] at hp
      exact short_of_step hp

theorem rename_dots {old : String} {fs' : FileSystem} :
    fs.rename cwd old (Path.join d "..") ≠ .ok fs' := by
  intro h
  simp only [rename] at h
  split at h
  · cases h
  split at h
  · cases h
  next t ht =>
    obtain ⟨-, -, rfl⟩ := (target_join Path.isPart_dots).mp ht
    split at h
    · cases h
    · have hup : (Last.ofName "..").isName = false := by decide
      simp only [hup, Bool.not_false, Bool.or_true, if_true] at h
      cases h

/-- The path leads to a name in a directory; something may stand there or not. -/
structure Reaches (fs : FileSystem) (cwd : Place) (path : String) (d : Place) (n : String) :
    Prop where
  target : fs.target cwd path = .ok ⟨d, .name n, false⟩
  short : n.utf8ByteSize ≤ maxName

theorem DirectoriesStay.reaches {fs' : FileSystem} (h : DirectoriesStay fs fs') {D : Place}
    (hr : fs.Reaches cwd path D n) : fs'.Reaches cwd path D n :=
  ⟨h.target hr.target, hr.short⟩

theorem Opens.reaches (h : fs.Opens cwd d) (hn : Path.IsName n) (hfits : Fits (Path.join d n))
    (hshort : n.utf8ByteSize ≤ maxName) :
    fs.Reaches cwd (Path.join d n) (placeOf cwd d) n :=
  ⟨(target_join hn.toIsPart).mpr ⟨hfits, h, by rw [ofName_of_isName hn]⟩, hshort⟩

namespace Reaches

variable {D : Place} (h : fs.Reaches cwd path D n)
include h

theorem directory : fs.node? D = some .directory := (target_eq_ok.mp h.target).2.2.2

theorem step : fs.step D (.name n) = .ok (n :: D) := by
  have := h.short
  simp [FileSystem.step, h.directory, this]

theorem find : fs.find cwd path = match fs.node? (n :: D) with
    | none => .error .noEntry
    | some x => .ok (n :: D, x) := by
  rw [FileSystem.find, h.target]
  simp only [h.step]
  cases fs.node? (n :: D) with
  | none => rfl
  | some x => cases x <;> rfl

theorem pathExists : fs.pathExists cwd path = (fs.node? (n :: D)).isSome := by
  rw [FileSystem.pathExists, h.find]
  cases fs.node? (n :: D) <;> rfl

theorem isDirectory : fs.isDirectory cwd path = true ↔ fs.node? (n :: D) = some .directory := by
  rw [isDirectory_iff_find, h.find]
  cases fs.node? (n :: D) <;> simp

theorem place : fs.place cwd path = .ok (n :: D) := by
  rw [FileSystem.place, h.target]
  exact h.step

theorem createDirectory (hnone : fs.node? (n :: D) = none) :
    fs.createDirectory cwd path = .ok (fs.put (n :: D) .directory) := by
  rw [FileSystem.createDirectory, h.place]
  simp [hnone]

theorem readFile {c : Bytes} (hf : fs.node? (n :: D) = some (.file c)) :
    fs.readFile cwd path = .ok c := by
  rw [FileSystem.readFile, h.find, hf]

theorem readFile_none (hf : fs.node? (n :: D) = none) :
    fs.readFile cwd path = .error .noEntry := by
  rw [FileSystem.readFile, h.find, hf]

theorem listDirectory (hd : fs.node? (n :: D) = some .directory) :
    fs.listDirectory cwd path = .ok (fs.names (n :: D)) := by
  rw [FileSystem.listDirectory, h.find, hd]

theorem openFile (change : Bytes → Bytes) (hd : fs.node? (n :: D) ≠ some .directory) :
    fs.openFile change cwd path = .ok (fs.put (n :: D) (.file (match fs.node? (n :: D) with
      | some (.file c) => change c
      | _ => []))) := by
  rw [FileSystem.openFile, h.target]
  simp only [h.step]
  cases hn : fs.node? (n :: D) with
  | none => rfl
  | some x =>
    cases x with
    | directory => exact absurd hn hd
    | file c => rfl

theorem createFile (hd : fs.node? (n :: D) ≠ some .directory) :
    fs.openFile (fun _ => []) cwd path = .ok (fs.put (n :: D) (.file [])) := by
  rw [h.openFile _ hd]
  cases fs.node? (n :: D) with
  | none => rfl
  | some x => cases x <;> rfl

theorem modifyFile (change : Bytes → Bytes) {c : Bytes} (hf : fs.node? (n :: D) = some (.file c)) :
    fs.modifyFile change cwd path = .ok (fs.put (n :: D) (.file (change c))) := by
  rw [FileSystem.modifyFile, h.find, hf]

theorem removeFile {c : Bytes} (hf : fs.node? (n :: D) = some (.file c)) :
    fs.removeFile cwd path = .ok (fs.erase (n :: D)) := by
  rw [FileSystem.removeFile, h.find, hf]

theorem removeFile_none (hf : fs.node? (n :: D) = none) :
    fs.removeFile cwd path = .error .noEntry := by
  rw [FileSystem.removeFile, h.find, hf]

theorem removeDirAll (hd : fs.node? (n :: D) = some .directory) :
    fs.removeDirAll cwd path = (.ok (), fs.eraseTree (n :: D)) := by
  rw [FileSystem.removeDirAll, h.find, hd]
  simp only [h.target]

theorem rename_of_not_within {new : String} {E : Place} {m : String} {c : Bytes}
    (hnew : fs.Reaches cwd new E m) (hf : fs.node? (n :: D) = some (.file c))
    (hd : fs.node? (m :: E) ≠ some .directory) (hw : within (n :: D) (m :: E) = false)
    (hw' : within (m :: E) (n :: D) = false) :
    fs.rename cwd path new =
      if fs.device D ≠ fs.device E then .error .crossDevice
      else .ok ((fs.erase (n :: D)).put (m :: E) (.file c)) := by
  have hne : n :: D ≠ m :: E := by
    intro he
    rw [he, within, List.isSuffixOf_iff_suffix.mpr List.suffix_rfl] at hw
    cases hw
  rw [FileSystem.rename, h.target]
  simp only [hnew.target]
  split
  · rfl
  simp only [Last.isName, Bool.not_true, Bool.or_false, Bool.false_eq_true, if_false, h.step, hf,
    hnew.step, Bool.and_false, renameNode, hne, hw, hw']

theorem rename {new : String} {E : Place} {m : String} {c : Bytes}
    (hnew : fs.Reaches cwd new E m) (hf : fs.node? (n :: D) = some (.file c))
    (hd : fs.node? (m :: E) ≠ some .directory) (hlen : D.length = E.length)
    (hne : n :: D ≠ m :: E) :
    fs.rename cwd path new =
      if fs.device D ≠ fs.device E then .error .crossDevice
      else .ok ((fs.erase (n :: D)).put (m :: E) (.file c)) := by
  refine h.rename_of_not_within hnew hf hd ?_ ?_
  · simp only [within, Bool.eq_false_iff, ne_eq, List.isSuffixOf_iff_suffix]
    exact fun hs => hne (hs.eq_of_length (by simp [hlen]))
  · simp only [within, Bool.eq_false_iff, ne_eq, List.isSuffixOf_iff_suffix]
    exact fun hs => hne (hs.eq_of_length (by simp [hlen])).symm

end Reaches

end SourceDelta.FileSystem
