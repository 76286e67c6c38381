import SourceDelta.Proofs.Changes

/-!
# Going back to the start of a generation

Clearing the history empties the areas of displaced values and forgets the flags.
A rollback removes the new artifacts, brings every displaced value back, and then
clears the history. It may stop at any of these steps; what it has left then is
said artifact by artifact.
-/

set_option autoImplicit false

namespace SourceDelta.Layout
open SourceDelta.Store (Action)
open SourceDelta.FileSystem (within)

variable {l : Layout} {cwd : Place} {fs fs' fs'' : FileSystem} {w w' : World} {a b : Area}
  {k : Key} {v : Weather} {i : Bool} {r : FlagRegistry}

theorem not_within_other {n m : String} {R q : Place} (hnm : n ≠ m)
    (hq : within (m :: R) q = true) : within (n :: R) q = false := by
  obtain ⟨xs, rfl⟩ := within_iff.mp hq
  exact not_within_of_length hnm xs rfl

theorem Emptied.congr (h : Emptied l cwd a fs)
    (ho : ∀ q, within (a.name :: l.rootPlace cwd) q = true → fs'.node? q = fs.node? q) :
    Emptied l cwd a fs' := by
  intro q c hq
  rw [ho q hq]
  exact h q c hq

theorem JournalOnly.emptied (h : JournalOnly l cwd fs fs') (he : Emptied l cwd a fs) :
    Emptied l cwd a fs' := by
  refine he.congr fun q hq => h q ?_
  rintro rfl
  rw [not_within_journal] at hq
  cases hq

def Cleared (v : Weather) (l : Layout) (cwd : Place) (r : FlagRegistry) (fs fs' : FileSystem)
    (r' : FlagRegistry) : Except Failure Unit → Prop
  | .ok () => r' = .empty ∧
      l.held cwd fs' = ((l.held cwd fs).clear .previous).clear .baseline ∧
      Emptied l cwd .previous fs' ∧ Emptied l cwd .baseline fs' ∧
      l.document cwd fs' = some (Utf8.encode FlagRegistry.empty.toJson.indented)
  | .error _ => v.Rough ∧ l.document cwd fs' = l.document cwd fs ∧
      (r' = r ∧ (l.held cwd fs' = l.held cwd fs ∨
          l.held cwd fs' = (l.held cwd fs).clear .previous) ∨
        (r' = r ∨ r' = .empty) ∧
          l.held cwd fs' = ((l.held cwd fs).clear .previous).clear .baseline)

theorem clearHistory_ends (hf : Footing l cwd w) :
    Store.clearHistory.Ends v (fun o s w' => ∃ r', s = ⟨l, i, r'⟩ ∧ Footing l cwd w' ∧
      Cleared v l cwd r w.files w'.files r' o ∧
      (o = .ok () → Noted v l cwd w.files w' [⟨.clearHistory, none, Store.noDetails⟩]))
      ⟨l, i, r⟩ w := by
  have hrecords : ∀ {fs fs' : FileSystem} (a : Area),
      (∀ q, within (a.name :: l.rootPlace cwd) q = false → fs'.node? q = fs.node? q) →
      RecordsStay l cwd fs fs' :=
    fun a h => recordsStay_of_node? (h _ (not_within_flags a)) (h _ (not_within_journal a))
  unfold Store.clearHistory
  apply Action.ends_bind
  apply Action.ends_get
  apply Action.ends_bind
  apply Action.ends_ofTask
  apply Task.ends_mono (reset_ends hf (by decide))
  rintro (e | ⟨⟩) w₁ ⟨hf₁, ho₁, hr₁⟩
  · obtain ⟨hr, hheld⟩ := hr₁
    exact ⟨_, rfl, hf₁, ⟨hr, (hrecords _ ho₁).document, .inl ⟨rfl, hheld⟩⟩, by simp⟩
  obtain ⟨hheld₁, he₁⟩ := hr₁
  apply Action.ends_bind
  apply Action.ends_ofTask
  apply Task.ends_mono (reset_ends hf₁ (by decide))
  rintro (e | ⟨⟩) w₂ ⟨hf₂, ho₂, hr₂⟩
  · obtain ⟨hr, hheld⟩ := hr₂
    rw [hheld₁] at hheld
    refine ⟨_, rfl, hf₂, ⟨hr, ((hrecords _ ho₁).trans (hrecords _ ho₂)).document, ?_⟩, by simp⟩
    rcases hheld with hheld | hheld
    · exact .inl ⟨rfl, .inr hheld⟩
    · exact .inr ⟨.inl rfl, hheld⟩
  obtain ⟨hheld₂, he₂⟩ := hr₂
  rw [hheld₁] at hheld₂
  have hstay₂ := (hrecords _ ho₁).trans (hrecords _ ho₂)
  have hprevious₂ : Emptied l cwd .previous w₂.files :=
    he₁.congr fun q hq => ho₂ q (not_within_other (by decide) hq)
  apply Action.ends_bind
  apply Action.ends_set
  apply Action.ends_bind
  apply Action.ends_ofTask
  apply Task.ends_mono (save_ends hf₂ .empty)
  rintro (e | ⟨⟩) w₃ ⟨hf₃, ho₃, hheld₃, hd₃⟩
  · exact ⟨_, rfl, hf₃, ⟨hd₃.1.1, hd₃.2.trans hstay₂.document,
      .inr ⟨.inr rfl, hheld₃.trans hheld₂⟩⟩, by simp⟩
  have hkeep : ∀ {a : Area}, Emptied l cwd a w₂.files → Emptied l cwd a w₃.files :=
    fun {a} he => he.congr fun q hq => ho₃ q (not_within_other (Ne.symm (area_name_ne_meta a)) hq)
  apply Action.ends_mono (record_ends hf₃ _ _ _)
  rintro o s w₄ ⟨rfl, rfl, hf₄, hj, hnoted⟩
  exact ⟨_, rfl, hf₄, ⟨rfl, hj.held.trans (hheld₃.trans hheld₂), hj.emptied (hkeep hprevious₂),
    hj.emptied (hkeep he₂), hj.document.trans hd₃⟩,
    fun _ => hnoted.congr ((journal_of_records ho₃).trans hstay₂.journal)⟩

theorem Sound.folder_current (h : Sound l cwd fs) (k : Key) :
    fs.node? (l.folderPlace cwd .current k) = some .directory := by
  have harea := h.area_of_code (a := .current) (by simp [h.current])
  cases k with
  | code p => exact h.current
  | build => exact harea
  | variability => exact harea

/-- Only current values of the given artifacts are removed. -/
structure Removing (ks : List Key) (h h' : Holdings) : Prop where
  other : ∀ a j, a ≠ .current ∨ j ∉ ks → h' a j = h a j
  current : ∀ j, h' .current j = h .current j ∨ h' .current j = none

theorem Removing.refl (ks : List Key) (h : Holdings) : Removing ks h h :=
  ⟨fun _ _ _ => rfl, fun _ => .inl rfl⟩

theorem Removing.cons {ks : List Key} {h h' : Holdings}
    (hr : Removing ks (h.set .current k none) h') : Removing (k :: ks) h h' := by
  constructor
  · intro a j hj
    have hne : a ≠ .current ∨ j ≠ k := hj.imp_right fun hj he => hj (by simp [he])
    rw [hr.other a j (hj.imp_right fun hj hm => hj (by simp [hm]))]
    rcases hne with hne | hne
    · exact Holdings.set_area hne
    · exact Holdings.set_key hne
  · intro j
    rcases hr.current j with he | he
    · by_cases hj : j = k
      · subst hj
        exact .inr (he.trans Holdings.set_self)
      · exact .inl (he.trans (Holdings.set_key hj))
    · exact .inr he

theorem Removing.weaken {ks : List Key} {h h' : Holdings} (hr : Removing ks h h') :
    Removing (k :: ks) h h' :=
  ⟨fun a j hj => hr.other a j (hj.imp_right fun hj hm => hj (by simp [hm])), hr.current⟩

theorem Removing.unmarked {ks : List Key} {h h' : Holdings} (hr : Removing ks h h')
    (hks : ∀ k, k ∈ ks ↔ r.has k .addition = true) (hk : r.has k .addition = false) (a : Area) :
    h' a k = h a k :=
  hr.other a k (.inr fun hm => by simp [(hks k).mp hm] at hk)

theorem removeAdded_ends (hf : Footing l cwd w) (ks : List Key) :
    (Store.removeAdded ⟨l, i, r⟩ ks).Ends v (fun o w' => Footing l cwd w' ∧
      RecordsStay l cwd w.files w'.files ∧
      Removing ks (l.held cwd w.files) (l.held cwd w'.files) ∧ match o with
        | .ok () => ¬ v .noEntry → ∀ j ∈ ks, l.held cwd w'.files .current j = none
        | .error _ => v.Rough ∨ ∃ j ∈ ks, ¬ Holdable l .current j) w := by
  induction ks generalizing w with
  | nil => exact Task.ends_pure ⟨hf, .refl _, .refl _ _, by simp⟩
  | cons k ks ih =>
    unfold Store.removeAdded
    apply Task.ends_bind
    apply Task.ends_mono (removeIfPresent_ends hf (hf.sound.folder_current k))
    rintro (e | present) w₁ ⟨hf₁, ho, hremoved⟩
    · obtain ⟨he, hheld⟩ := hremoved
      refine ⟨hf₁, records_of_site ho, by rw [hheld]; exact .refl _ _, ?_⟩
      exact he.imp_right fun he => ⟨k, by simp, he⟩
    · apply Task.ends_mono (ih hf₁)
      rintro o w₂ ⟨hf₂, hstay, hr, hout⟩
      refine ⟨hf₂, (records_of_site ho).trans hstay, ?_, ?_⟩
      · rcases hremoved with hheld | ⟨-, hheld⟩
        · rw [hheld] at hr
          exact hr.cons
        · rw [hheld] at hr
          exact hr.weaken
      · cases o with
        | ok _ =>
          intro hv j hj
          rcases List.mem_cons.mp hj with rfl | hj
          · rcases hremoved with hheld | ⟨h, -⟩
            · rcases hr.current j with he | he
              · rw [he, hheld, Holdings.set_self]
              · exact he
            · exact absurd h hv
          · exact hout hv j hj
        | error e => exact hout.imp_right fun ⟨j, hj, hh⟩ => ⟨j, by simp [hj], hh⟩

/-- The value from the start of the generation has come back, and it is the only one. -/
structure Returned (h h' : Holdings) (k : Key) : Prop where
  current : h' .current k = (h .baseline k).or (h .previous k)
  previous : h' .previous k = none
  baseline : h' .baseline k = none

/-- How far an artifact has come back when that has stopped: not at all, or its previous value is
gone and the one of the baseline has not come back, or the value has come back and stands yet where
it was. -/
inductive Halfway (h h' : Holdings) (k : Key) : Prop
  | untouched (hs : ∀ a, h' a k = h a k)
  | stranded (hb : h .baseline k ≠ none) (hcurrent : h' .current k = h .current k)
      (hprevious : h' .previous k = none) (hbaseline : h' .baseline k = h .baseline k)
  | copied (hcurrent : h' .current k = (h .baseline k).or (h .previous k))
      (hprevious : h' .previous k = if h .baseline k = none then h .previous k else none)
      (hbaseline : h' .baseline k = h .baseline k)

theorem Returned.congr {h h' g g' : Holdings} (hr : Returned h h' k) (hg : ∀ a, g a k = h a k)
    (hg' : ∀ a, g' a k = h' a k) : Returned g g' k := by
  refine ⟨?_, ?_, ?_⟩
  · rw [hg', hg, hg]
    exact hr.current
  · rw [hg']
    exact hr.previous
  · rw [hg']
    exact hr.baseline

theorem Halfway.congr {h h' g g' : Holdings} (hh : Halfway h h' k) (hg : ∀ a, g a k = h a k)
    (hg' : ∀ a, g' a k = h' a k) : Halfway g g' k := by
  cases hh with
  | untouched hs => exact .untouched fun a => by rw [hg', hg, hs]
  | stranded hb hc hp hb' =>
    exact .stranded (by rw [hg]; exact hb) (by rw [hg', hg, hc]) (by rw [hg', hp])
      (by rw [hg', hg, hb'])
  | copied hc hp hb' =>
    exact .copied (by rw [hg', hg, hg, hc]) (by rw [hg', hg, hg, hp]) (by rw [hg', hg, hb'])

def BroughtBack (v : Weather) (h h' : Holdings) (k : Key) : Except Failure Unit → Prop
  | .ok () => Returned h h' k
  | .error _ => v.Rough ∧ Halfway h h' k

theorem BroughtBack.of_previous {p : Bytes} {o : Except Failure Unit}
    (hb : l.held cwd fs .baseline k = none) (hp : l.held cwd fs .previous k = some p)
    (hfit : Holdable l .current k) (hm : Moved v l cwd .previous .current k p fs fs' o) :
    BroughtBack v (l.held cwd fs) (l.held cwd fs') k o := by
  cases o with
  | ok _ =>
    have hm : l.held cwd fs' =
      ((l.held cwd fs).set .current k (some p)).set .previous k none := hm
    refine ⟨?_, ?_, ?_⟩
    · rw [hm, Holdings.set_area (by decide), Holdings.set_self, hb, hp, Option.none_or]
    · rw [hm, Holdings.set_self]
    · rw [hm, Holdings.set_area (by decide), Holdings.set_area (by decide), hb]
  | error e =>
    rcases hm with ⟨hr | hr, hm, -⟩ | ⟨hr, hm, -⟩
    · exact ⟨hr, .untouched fun a => by rw [hm]⟩
    · exact absurd hfit hr
    · refine ⟨hr, .copied ?_ ?_ ?_⟩
      · rw [hm, Holdings.set_self, hb, hp, Option.none_or]
      · rw [hm, Holdings.set_area (by decide), if_pos hb]
      · rw [hm, Holdings.set_area (by decide)]

theorem BroughtBack.of_baseline {y : Bytes} {o : Except Failure Unit}
    (hb : l.held cwd fs .baseline k = some y)
    (hgone : l.held cwd fs' = (l.held cwd fs).set .previous k none)
    (hfit : Holdable l .current k) (hm : Moved v l cwd .baseline .current k y fs' fs'' o) :
    BroughtBack v (l.held cwd fs) (l.held cwd fs'') k o := by
  cases o with
  | ok _ =>
    have hm : l.held cwd fs'' =
      ((l.held cwd fs').set .current k (some y)).set .baseline k none := hm
    refine ⟨?_, ?_, ?_⟩
    · rw [hm, Holdings.set_area (by decide), Holdings.set_self, hb, Option.some_or]
    · rw [hm, Holdings.set_area (by decide), Holdings.set_area (by decide), hgone,
        Holdings.set_self]
    · rw [hm, Holdings.set_self]
  | error e =>
    rcases hm with ⟨hr | hr, hm, -⟩ | ⟨hr, hm, -⟩
    · refine ⟨hr, .stranded (by simp [hb]) ?_ ?_ ?_⟩
      · rw [hm, hgone, Holdings.set_area (by decide)]
      · rw [hm, hgone, Holdings.set_self]
      · rw [hm, hgone, Holdings.set_area (by decide)]
    · exact absurd hfit hr
    · refine ⟨hr, .copied ?_ ?_ ?_⟩
      · rw [hm, Holdings.set_self, hb, Option.some_or]
      · rw [hm, Holdings.set_area (by decide), hgone, Holdings.set_self, hb, if_neg (by simp)]
      · rw [hm, Holdings.set_area (by decide), hgone, Holdings.set_area (by decide)]

theorem restore_ends {p : Bytes} (hf : Footing l cwd w)
    (hp : l.held cwd w.files .previous k = some p) :
    (Store.restore ⟨l, i, r⟩ k).Ends v (fun o w' => Footing l cwd w' ∧
      RecordsStay l cwd w.files w'.files ∧
      (∀ a j, j ≠ k → l.held cwd w'.files a j = l.held cwd w.files a j) ∧
      (¬ v .noEntry → BroughtBack v (l.held cwd w.files) (l.held cwd w'.files) k o)) w := by
  have hholdable : Holdable l .previous k := hf.sound.holdable_of_held (by simp [hp])
  unfold Store.restore
  apply Task.ends_bind
  apply Task.ends_ask (fun _ => rfl)
  simp only [Store.path, hf.pathExists_artifact hholdable.name.ne_dots]
  cases hb : l.held cwd w.files .baseline k with
  | none =>
    simp only [Option.isSome_none, Bool.false_eq_true, if_false]
    apply Task.ends_mono (moveFile_ends hf (by decide) hp)
    rintro o w₁ ⟨hf₁, hn, hm⟩
    exact ⟨hf₁, hn.records, fun a j hj => hm.key hj a,
      fun _ => .of_previous hb hp hholdable.current hm⟩
  | some y =>
    simp only [Option.isSome_some, if_true]
    have hfolder := hf.sound.folder_of_held (a := .previous) (k := k) (by simp [hp])
    apply Task.ends_bind
    apply Task.ends_mono (removeIfPresent_ends hf hfolder)
    rintro (e | present) w₁ ⟨hf₁, ho, hremoved⟩
    · obtain ⟨he, hheld⟩ := hremoved
      exact ⟨hf₁, records_of_site ho, fun a j _ => by rw [hheld], fun _ =>
        ⟨he.resolve_right fun h => h hholdable, .untouched fun a => by rw [hheld]⟩⟩
    have hkey₁ : ∀ a j, j ≠ k → l.held cwd w₁.files a j = l.held cwd w.files a j := by
      intro a j hj
      rcases hremoved with hheld | ⟨-, hheld⟩
      · rw [hheld, Holdings.set_key hj]
      · rw [hheld]
    have hb₁ : l.held cwd w₁.files .baseline k = some y := by
      rcases hremoved with hheld | ⟨-, hheld⟩
      · rw [hheld, Holdings.set_area (by decide)]
        exact hb
      · rw [hheld]
        exact hb
    apply Task.ends_mono (moveFile_ends hf₁ (by decide) hb₁)
    rintro o w₂ ⟨hf₂, hn, hm⟩
    exact ⟨hf₂, (records_of_site ho).trans hn.records,
      fun a j hj => (hm.key hj a).trans (hkey₁ a j hj), fun hv =>
      .of_baseline hb (hremoved.resolve_right fun h => hv h.1) hholdable.current hm⟩

theorem restoreAll_ends (hf : Footing l cwd w) {ks : List Key} (hn : ks.Nodup)
    (hp : ∀ j ∈ ks, l.held cwd w.files .previous j ≠ none) :
    (Store.restoreAll ⟨l, i, r⟩ ks).Ends v (fun o w' => Footing l cwd w' ∧
      RecordsStay l cwd w.files w'.files ∧
      (∀ a j, j ∉ ks → l.held cwd w'.files a j = l.held cwd w.files a j) ∧
      (¬ v .noEntry → match o with
        | .ok () => ∀ j ∈ ks, Returned (l.held cwd w.files) (l.held cwd w'.files) j
        | .error _ => v.Rough ∧ ∀ j ∈ ks, Returned (l.held cwd w.files) (l.held cwd w'.files) j ∨
            Halfway (l.held cwd w.files) (l.held cwd w'.files) j)) w := by
  induction ks generalizing w with
  | nil => exact Task.ends_pure ⟨hf, .refl _, fun _ _ _ => rfl, by simp⟩
  | cons k ks ih =>
    obtain ⟨hk, hn⟩ := List.nodup_cons.mp hn
    obtain ⟨p, hp₀⟩ := Option.ne_none_iff_exists'.mp (hp k (by simp))
    unfold Store.restoreAll
    apply Task.ends_bind
    apply Task.ends_mono (restore_ends hf hp₀)
    rintro (e | ⟨⟩) w₁ ⟨hf₁, hstay₁, hkey₁, ho₁⟩
    · refine ⟨hf₁, hstay₁, fun a j hj => hkey₁ a j fun he => hj (by simp [he]), fun hv => ?_⟩
      obtain ⟨hr, hh⟩ := ho₁ hv
      refine ⟨hr, fun j hj => .inr ?_⟩
      by_cases he : j = k
      · subst he
        exact hh
      · exact .untouched fun a => hkey₁ a j he
    have hne : ∀ j ∈ ks, j ≠ k := by
      rintro j hj rfl
      exact hk hj
    have hp₁ : ∀ j ∈ ks, l.held cwd w₁.files .previous j ≠ none := by
      intro j hj
      rw [hkey₁ _ j (hne j hj)]
      exact hp j (by simp [hj])
    apply Task.ends_mono (ih hf₁ hn hp₁)
    rintro o w₂ ⟨hf₂, hstay₂, hkey₂, ho₂⟩
    have hfirst : ¬ v .noEntry → Returned (l.held cwd w.files) (l.held cwd w₂.files) k :=
      fun hv => (ho₁ hv).congr (fun _ => rfl) fun a => hkey₂ a k hk
    refine ⟨hf₂, hstay₁.trans hstay₂, ?_, fun hv => ?_⟩
    · intro a j hj
      rw [List.mem_cons, not_or] at hj
      rw [hkey₂ a j hj.2, hkey₁ a j hj.1]
    · cases o with
      | ok _ =>
        intro j hj
        rcases List.mem_cons.mp hj with rfl | hj
        · exact hfirst hv
        · exact (ho₂ hv j hj).congr (fun a => (hkey₁ a j (hne j hj)).symm) fun _ => rfl
      | error e =>
        obtain ⟨hr, ho₂⟩ := ho₂ hv
        refine ⟨hr, fun j hj => ?_⟩
        have hsame : ∀ j ∈ ks, ∀ a, l.held cwd w.files a j = l.held cwd w₁.files a j :=
          fun j hj a => (hkey₁ a j (hne j hj)).symm
        rcases List.mem_cons.mp hj with rfl | hj
        · exact .inl (hfirst hv)
        · rcases ho₂ j hj with h | h
          · exact .inl (h.congr (hsame j hj) fun _ => rfl)
          · exact .inr (h.congr (hsame j hj) fun _ => rfl)

theorem mem_added (hr : r.Ordered) :
    k ∈ Store.added ⟨l, i, r⟩ ↔ r.has k .addition = true := by
  rw [Store.added, List.mem_flatMap]
  constructor
  · rintro ⟨kind, -, hk⟩
    exact (hr.mem_keysWith.mp hk).2
  · intro hk
    exact ⟨k.kind, by cases k <;> simp [Key.kind, ArtifactKind.all], hr.mem_keysWith.mpr ⟨rfl, hk⟩⟩

/-- The current value that a rollback leaves. -/
def recovered (h : Holdings) (r : FlagRegistry) (k : Key) : Option Bytes :=
  if r.has k .addition then none
  else if h .previous k = none then h .current k
  else (h .baseline k).or (h .previous k)

/-- What a rollback that has stopped has left: it was still bringing values back, or it had brought
back all of them and was clearing the history. -/
inductive Interrupted (h : Holdings) (r : FlagRegistry) (h' : Holdings) (r' : FlagRegistry) : Prop
  | returning (hflags : r' = r)
      (hadded : ∀ k, r.has k .addition = true → ∀ a, a ≠ .current → h' a k = h a k)
      (hplain : ∀ k, r.has k .addition = false → h .previous k = none → ∀ a, h' a k = h a k)
      (hdisplaced : ∀ k, r.has k .addition = false → h .previous k ≠ none →
        Returned h h' k ∨ Halfway h h' k)
  | clearing (hflags : r' = r ∨ r' = .empty ∧
        ∀ k, h' .previous k = none ∧ h' .baseline k = none)
      (hcurrent : ∀ k, h' .current k = recovered h r k)
      (hprevious : ∀ k, r.has k .addition = false → h' .previous k = none)

def retained (h : Holdings) (r : FlagRegistry) (k : Key) : Option Bytes :=
  if r.has k .addition then none else h .current k

section Values

variable {h h₁ h₂ : Holdings} {ks ds : List Key}

theorem Interrupted.of_removing (hr : Removing ks h h₁)
    (hks : ∀ k, k ∈ ks ↔ r.has k .addition = true) : Interrupted h r h₁ r :=
  .returning rfl (fun k _ a ha => hr.other a k (.inl ha)) (fun _ hk _ => hr.unmarked hks hk)
    fun _ hk _ => .inr (.untouched (hr.unmarked hks hk))

/-- The values that a rollback brings back: those displaced of artifacts that are listed and not
new. -/
def Owed (l : Layout) (r : FlagRegistry) (h : Holdings) (ds : List Key) : Prop :=
  ∀ k, k ∈ ds ↔ r.has k .addition = false ∧ h .previous k ≠ none ∧ l.Listable k

theorem Owed.not_mem_of_added (hd : Owed l r h ds) (hk : r.has k .addition = true) : k ∉ ds :=
  fun hm => by simp [((hd k).mp hm).1] at hk

theorem Owed.not_mem_of_vacant (hd : Owed l r h ds) (hp : h .previous k = none) : k ∉ ds :=
  fun hm => ((hd k).mp hm).2.1 hp

theorem Interrupted.of_restoring (hr : Removing ks h h₁)
    (hks : ∀ k, k ∈ ks ↔ r.has k .addition = true) (hd : Owed l r h ds)
    (hlist : ∀ k, l.Listable k) (hkeep : ∀ a k, k ∉ ds → h₂ a k = h₁ a k)
    (hback : ∀ k ∈ ds, Returned h₁ h₂ k ∨ Halfway h₁ h₂ k) : Interrupted h r h₂ r := by
  refine .returning rfl ?_ ?_ ?_
  · intro k hk a ha
    rw [hkeep a k (hd.not_mem_of_added hk), hr.other a k (.inl ha)]
  · intro k hk hp a
    rw [hkeep a k (hd.not_mem_of_vacant hp), hr.unmarked hks hk]
  · intro k hk hp
    have hsame : ∀ a, h a k = h₁ a k := fun a => (hr.unmarked hks hk a).symm
    exact (hback k ((hd k).mpr ⟨hk, hp, hlist k⟩)).imp (fun h => h.congr hsame fun _ => rfl)
      fun h => h.congr hsame fun _ => rfl

structure Brought (l : Layout) (r : FlagRegistry) (h h' : Holdings) : Prop where
  listed : ∀ k, l.Listable k → h' .current k = recovered h r k
  unlisted : ∀ k, ¬ l.Listable k → h' .current k = retained h r k
  previous : ∀ k, l.Listable k → r.has k .addition = false → h' .previous k = none

theorem Brought.of_restoring (hr : Removing ks h h₁)
    (hks : ∀ k, k ∈ ks ↔ r.has k .addition = true) (hgone : ∀ k ∈ ks, h₁ .current k = none)
    (hd : Owed l r h ds) (hkeep : ∀ a k, k ∉ ds → h₂ a k = h₁ a k)
    (hback : ∀ k ∈ ds, Returned h₁ h₂ k) : Brought l r h h₂ := by
  have hadded : ∀ k, r.has k .addition = true → h₂ .current k = none := by
    intro k hk
    rw [hkeep _ k (hd.not_mem_of_added hk), hgone k ((hks k).mpr hk)]
  refine ⟨fun k hlist => ?_, fun k hlist => ?_, fun k hlist hk => ?_⟩
  · rw [recovered]
    split
    next hk => exact hadded k hk
    next hk =>
      have hk : r.has k .addition = false := by simpa using hk
      split
      next hp => rw [hkeep _ k (hd.not_mem_of_vacant hp), hr.unmarked hks hk]
      next hp =>
        rw [(hback k ((hd k).mpr ⟨hk, hp, hlist⟩)).current, hr.unmarked hks hk,
          hr.unmarked hks hk]
  · rw [retained]
    split
    next hk => exact hadded k hk
    next hk =>
      rw [hkeep _ k fun hm => hlist ((hd k).mp hm).2.2, hr.unmarked hks (by simpa using hk)]
  · by_cases hp : h .previous k = none
    · rw [hkeep _ k (hd.not_mem_of_vacant hp), hr.unmarked hks hk, hp]
    · exact (hback k ((hd k).mpr ⟨hk, hp, hlist⟩)).previous

theorem Brought.interrupted {r' : FlagRegistry} {e : Failure} (hb : Brought l r h (l.held cwd fs))
    (hlist : ∀ k, l.Listable k) (hc : Cleared v l cwd r fs fs' r' (.error e)) :
    Interrupted h r (l.held cwd fs') r' := by
  obtain ⟨-, -, hc⟩ := hc
  refine .clearing ?_ (fun k => ?_) fun k hk => ?_
  · rcases hc with ⟨rfl, -⟩ | ⟨rfl | rfl, hheld⟩
    · exact .inl rfl
    · exact .inl rfl
    · refine .inr ⟨rfl, fun k => ?_⟩
      rw [hheld]
      exact ⟨rfl, rfl⟩
  · rw [← hb.listed k (hlist k)]
    rcases hc with ⟨-, hheld | hheld⟩ | ⟨-, hheld⟩ <;> rw [hheld] <;> rfl
  · rcases hc with ⟨-, hheld | hheld⟩ | ⟨-, hheld⟩
    · rw [hheld]
      exact hb.previous k (hlist k) hk
    · rw [hheld]
      rfl
    · rw [hheld]
      rfl

end Values

def rollbackNote (l : Layout) (cwd : Place) (fs : FileSystem) (added : List Key) : Journal.Note :=
  ⟨.rollback, none, Store.rollbackDetails added.length
    ((l.listed cwd fs .previous).filter fun k => !added.contains k).length⟩

/-- What a rollback that has come to its end has done. It has brought back the values that it found
listed. -/
structure Finished (v : Weather) (l : Layout) (cwd : Place) (r : FlagRegistry) (added : List Key)
    (w w' : World) (r' : FlagRegistry) : Prop where
  flags : r' = .empty
  previous : Emptied l cwd .previous w'.files
  baseline : Emptied l cwd .baseline w'.files
  document : l.document cwd w'.files = some (Utf8.encode FlagRegistry.empty.toJson.indented)
  listed : ¬ v .noEntry → ∀ k, l.Listable k →
    l.held cwd w'.files .current k = recovered (l.held cwd w.files) r k
  unlisted : ¬ v .noEntry → ∀ k, ¬ l.Listable k →
    l.held cwd w'.files .current k = retained (l.held cwd w.files) r k
  noted : Noted v l cwd w.files w'
    [rollbackNote l cwd w.files added, ⟨.clearHistory, none, Store.noDetails⟩]

/-- What a rollback that has failed has left. To tell its values, the new artifacts have to be such as
there can be. -/
structure Halted (v : Weather) (l : Layout) (cwd : Place) (r : FlagRegistry) (fs fs' : FileSystem)
    (r' : FlagRegistry) : Prop where
  flags : r' = r ∨ r' = .empty
  document : l.document cwd fs' = l.document cwd fs
  interrupted : ¬ v .noEntry → (∀ k, l.Listable k) →
    (∀ k, r.has k .addition = true → Holdable l .current k) →
    v.Rough ∧ Interrupted (l.held cwd fs) r (l.held cwd fs') r'
  still : ¬ v.Rough → r' = r ∧ RecordsStay l cwd fs fs' ∧
    ∀ k, l.held cwd fs' .previous k = l.held cwd fs .previous k

section Steps

variable {ks : List Key} {e : Failure} {r' : FlagRegistry}

theorem Owed.of_listed (hs : Sound l cwd fs')
    (hr : Removing ks (l.held cwd fs) (l.held cwd fs'))
    (hks : ∀ k, k ∈ ks ↔ r.has k .addition = true) :
    Owed l r (l.held cwd fs) ((l.listed cwd fs' .previous).filter fun k => !ks.contains k) := by
  intro k
  rw [List.mem_filter, hs.mem_listed, hr.other .previous k (.inl (by decide))]
  simp [List.contains_eq_mem, hks, and_comm]

theorem Halted.of_recordsStay (hstay : RecordsStay l cwd fs fs')
    (hi : ¬ v .noEntry → (∀ k, l.Listable k) →
      (∀ k, r.has k .addition = true → Holdable l .current k) →
      v.Rough ∧ Interrupted (l.held cwd fs) r (l.held cwd fs') r)
    (hp : ¬ v.Rough → ∀ k, l.held cwd fs' .previous k = l.held cwd fs .previous k) :
    Halted v l cwd r fs fs' r :=
  ⟨.inl rfl, hstay.document, hi, fun hv => ⟨rfl, hstay, hp hv⟩⟩

theorem Halted.of_clearing (hb : ¬ v .noEntry → Brought l r (l.held cwd fs) (l.held cwd fs'))
    (hd : l.document cwd fs' = l.document cwd fs)
    (hc : Cleared v l cwd r fs' fs'' r' (.error e)) : Halted v l cwd r fs fs'' r' := by
  refine ⟨?_, hc.2.1.trans hd, fun hv hlist _ => ⟨hc.1, (hb hv).interrupted hlist hc⟩,
    fun hv => absurd hc.1 hv⟩
  rcases hc.2.2 with ⟨hr', -⟩ | ⟨hr', -⟩
  · exact .inl hr'
  · exact hr'

theorem Finished.of_cleared (hb : ¬ v .noEntry → Brought l r (l.held cwd w.files) (l.held cwd fs))
    (hc : Cleared v l cwd r fs w'.files r' (.ok ()))
    (hn : Noted v l cwd w.files w'
      [rollbackNote l cwd w.files ks, ⟨.clearHistory, none, Store.noDetails⟩]) :
    Finished v l cwd r ks w w' r' := by
  obtain ⟨hflags, hheld, hprevious, hbaseline, hdoc⟩ := hc
  have hcurrent : ∀ k, l.held cwd w'.files .current k = l.held cwd fs .current k := by
    intro k
    rw [hheld]
    rfl
  refine ⟨hflags, hprevious, hbaseline, hdoc, fun hv k hk => ?_, fun hv k hk => ?_, hn⟩
  · rw [hcurrent, (hb hv).listed k hk]
  · rw [hcurrent, (hb hv).unlisted k hk]

end Steps

theorem rollback_ends (hf : Footing l cwd w) (hr : r.Ordered) :
    Store.rollback.Ends v (fun o s w' => ∃ r', s = ⟨l, i, r'⟩ ∧ Footing l cwd w' ∧ match o with
      | .ok () => Finished v l cwd r (Store.added ⟨l, i, r⟩) w w' r'
      | .error _ => Halted v l cwd r w.files w'.files r') ⟨l, i, r⟩ w := by
  have hadded : ∀ k, k ∈ Store.added ⟨l, i, r⟩ ↔ r.has k .addition = true := fun k => mem_added hr
  unfold Store.rollback
  apply Action.ends_bind
  apply Action.ends_get
  dsimp only
  generalize Store.added ⟨l, i, r⟩ = added at hadded ⊢
  -- the new artifacts are removed
  apply Action.ends_bind
  apply Action.ends_ofTask
  apply Task.ends_mono (removeAdded_ends hf added)
  rintro (e | ⟨⟩) w₁ ⟨hf₁, hstay₁, hr₁, ho₁⟩
  · refine ⟨_, rfl, hf₁, .of_recordsStay hstay₁ (fun _ _ hh => ⟨?_, .of_removing hr₁ hadded⟩)
      fun _ k => hr₁.other _ k (.inl (by decide))⟩
    refine ho₁.resolve_right ?_
    rintro ⟨j, hj, hnot⟩
    exact hnot (hh j ((hadded j).mp hj))
  apply Action.ends_bind
  apply Action.ends_ofTask
  apply Task.ends_mono (keys_ends hf₁ .previous)
  rintro (e | ks) w₂ ⟨rfl, hks⟩
  · exact ⟨_, rfl, hf₁, .of_recordsStay hstay₁ (fun _ _ _ => ⟨hks, .of_removing hr₁ hadded⟩)
      fun hv => absurd hks hv⟩
  subst hks
  -- the displaced values that are found listed are brought back
  have hlisted : l.listed cwd w₂.files .previous = l.listed cwd w.files .previous :=
    hf₁.sound.listed_congr hf.sound fun k => by rw [hr₁.other .previous k (.inl (by decide))]
  have howed := Owed.of_listed hf₁.sound hr₁ hadded
  have hnodup := (hf₁.sound.listed_nodup .previous).filter fun k => !added.contains k
  have hlength : rollbackNote l cwd w.files added = ⟨.rollback, none,
      Store.rollbackDetails added.length
        ((l.listed cwd w₂.files .previous).filter fun k => !added.contains k).length⟩ := by
    rw [rollbackNote, hlisted]
  dsimp only
  generalize (l.listed cwd w₂.files .previous).filter (fun k => !added.contains k) = displaced
    at howed hnodup hlength ⊢
  apply Action.ends_bind
  apply Action.ends_ofTask
  apply Task.ends_mono (restoreAll_ends hf₁ hnodup ?_)
  rotate_left
  · intro j hj
    obtain ⟨hj₁, hj₂, -⟩ := (howed j).mp hj
    rw [hr₁.unmarked hadded hj₁]
    exact hj₂
  rintro (e | ⟨⟩) w₃ ⟨hf₃, hstay₃, hkeep₃, ho₃⟩
  · refine ⟨_, rfl, hf₃, .of_recordsStay (hstay₁.trans hstay₃) (fun hv hlist _ => ?_) fun hv => ?_⟩
    · exact ⟨(ho₃ hv).1, .of_restoring hr₁ hadded howed hlist hkeep₃ (ho₃ hv).2⟩
    · exact absurd (ho₃ fun h => hv ⟨_, h⟩).1 hv
  have hbrought : ¬ v .noEntry → Brought l r (l.held cwd w.files) (l.held cwd w₃.files) :=
    fun hv => .of_restoring hr₁ hadded (ho₁ hv) howed hkeep₃ (ho₃ hv)
  -- the rollback is recorded, and the history cleared
  apply Action.ends_bind
  apply Action.ends_mono (record_ends hf₃ _ _ _)
  rintro o s w₄ ⟨rfl, rfl, hf₄, hj, hnoted⟩
  rw [← hj.held] at hbrought
  apply Action.ends_mono (Action.ends_and (clearHistory_ends hf₄) (Action.ends_clock _ _ w₄))
  rintro (e | ⟨⟩) s w₅ ⟨⟨r', rfl, hf₅, hc, hcleared⟩, hclock⟩
  · exact ⟨_, rfl, hf₅, .of_clearing hbrought
      (hj.document.trans (hstay₁.trans hstay₃).document) hc⟩
  · rw [← hlength] at hnoted
    exact ⟨_, rfl, hf₅, .of_cleared hbrought hc
      ((hnoted.congr (hstay₁.trans hstay₃).journal).append (hcleared rfl) hclock)⟩

end SourceDelta.Layout
