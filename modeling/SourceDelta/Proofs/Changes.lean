import SourceDelta.Proofs.Histories
import SourceDelta.Proofs.Listing

/-!
# The changes of a store

Every change ends with sound files, however many of its steps are refused. One
that succeeds has done to the values and to the flags what its name says. One
that fails has done nothing, or it has stopped in the middle of moving the
displaced value, or at the commit of the new one, or at saving the flags.
-/

set_option autoImplicit false

namespace SourceDelta.Layout
open SourceDelta.Store (Action)
open SourceDelta.FileSystem (Fits within)

variable {l : Layout} {cwd : Place} {fs fs' : FileSystem} {w w' : World} {a b : Area} {k : Key}
  {v : Weather} {i : Bool} {r : FlagRegistry} {f : Flag} {e : Failure}

theorem record_ends (hf : Footing l cwd w) (action : Journal.Action) (key : Option Key)
    (details : Json) :
    (Store.record action key details).Ends v (fun o s w' => o = .ok () ∧ s = ⟨l, i, r⟩ ∧
      Footing l cwd w' ∧ JournalOnly l cwd w.files w'.files ∧
      Noted v l cwd w.files w' [⟨action, key, details⟩]) ⟨l, i, r⟩ w := by
  unfold Store.record
  apply Action.ends_bind
  apply Action.ends_get
  apply Action.ends_bind
  apply Action.ends_request (fun _ => rfl)
  apply Action.ends_bind
  apply Action.ends_ofTask
  apply Task.ends_outcome
  apply Task.ends_mono (Task.ends_and (Task.ends_and (quiet_append _ _ hf) (append_ends hf _))
    (Task.ends_clock _ _))
  rintro o w' ⟨⟨⟨hf', hj⟩, happend⟩, hclock⟩
  refine Action.ends_pure ⟨rfl, rfl, hf', hj, fun hv hfit => ?_⟩
  rw [happend hv hfit, hclock]
  rfl

/-- The flags could not be saved. -/
def Unsaved (l : Layout) (e : Failure) : Prop := e.directory? = some (Path.join l.root "meta")

/-- What raising a flag has done: the flag is there in memory, and in the document unless saving
has failed. -/
def Raised (v : Weather) (l : Layout) (cwd : Place) (r : FlagRegistry) (k : Key) (f : Flag)
    (fs fs' : FileSystem) : Except Failure Unit → Prop
  | .ok () => r.has k f = true ∧ l.document cwd fs' = l.document cwd fs ∨
      r.has k f = false ∧ l.document cwd fs' = some (Utf8.encode (r.raised k f).toJson.indented)
  | .error e => r.has k f = false ∧ (v.Rough ∧ Unsaved l e) ∧
      l.document cwd fs' = l.document cwd fs

theorem raise_ends (hf : Footing l cwd w) (k : Key) (f : Flag) :
    (Store.raise k f).Ends v (fun o s w' => s = ⟨l, i, r.raised k f⟩ ∧ Footing l cwd w' ∧
      l.held cwd w'.files = l.held cwd w.files ∧
      l.journal cwd w'.files = l.journal cwd w.files ∧ Raised v l cwd r k f w.files w'.files o)
      ⟨l, i, r⟩ w := by
  unfold Store.raise
  apply Action.ends_bind
  apply Action.ends_get
  dsimp only
  split
  next h =>
    exact Action.ends_pure ⟨by rw [FlagRegistry.raised, if_pos h], hf, rfl, rfl, .inl ⟨h, rfl⟩⟩
  next h =>
    have hnot : r.has k f = false := by simpa using h
    have hraised : r.raised k f = r.insert k f := by rw [FlagRegistry.raised, if_neg h]
    apply Action.ends_bind
    apply Action.ends_set
    apply Action.ends_ofTask
    apply Task.ends_mono (save_ends hf (r.insert k f))
    rintro (e | ⟨⟩) w' ⟨hf', hoff, hheld, ho⟩
    · exact ⟨by rw [hraised], hf', hheld, journal_of_records hoff, hnot, ho⟩
    · exact ⟨by rw [hraised], hf', hheld, journal_of_records hoff,
        .inr ⟨hnot, by rw [hraised]; exact ho⟩⟩

/-- The current value could not be moved away after the previous value had made way for it, or it has
been copied and not removed. -/
def Uncovered (l : Layout) (k : Key) (cleared : Bool) (e : Failure) : Prop :=
  (∃ i, e = .file (.deleteMoved (l.artifactPath .current k)) i) ∨
    cleared = true ∧ Unmoved l .current .previous k e

/-- The failure of a change that has not come as far as to show. -/
def Harmless (l : Layout) (k : Key) (cleared : Bool) (e : Failure) : Prop :=
  ¬ Unsaved l e ∧ ¬ Uncovered l k cleared e

theorem harmless_of_current {b : Bool} (h : e.directory? = some (l.folder .current k)) :
    Harmless l k b e := by
  refine ⟨fun hs => ?_, ?_⟩
  · exact folder_ne_records (Option.some.inj (h.symm.trans hs))
  · rintro (⟨i, rfl⟩ | ⟨-, hp | ⟨i, j, rfl⟩⟩)
    · cases h
    · exact absurd (folder_injective (Option.some.inj (h.symm.trans hp))) (by decide)
    · cases h

theorem harmless_of_none {b : Bool} (h : e.directory? = none)
    (hd : ∀ i, e ≠ .file (.deleteMoved (l.artifactPath .current k)) i)
    (hr : ∀ i j, e ≠ .readForMove (l.artifactPath .current k) i j) : Harmless l k b e := by
  refine ⟨fun hs => ?_, ?_⟩
  · rw [Unsaved, h] at hs
    cases hs
  · rintro (⟨i, he⟩ | ⟨-, hp | ⟨i, j, he⟩⟩)
    · exact hd i he
    · rw [h] at hp
      cases hp
    · exact hr i j he

theorem Unmoved.harmless_previous {b : Bool} (hn : Path.IsPart (l.fileName k))
    (h : Unmoved l .previous .baseline k e) : Harmless l k b e := by
  rcases h with h | ⟨i, j, rfl⟩
  · refine ⟨fun hs => ?_, ?_⟩
    · exact folder_ne_records (Option.some.inj (h.symm.trans hs))
    · rintro (⟨i, rfl⟩ | ⟨-, hp | ⟨i, j, rfl⟩⟩)
      · cases h
      · exact absurd (folder_injective (Option.some.inj (h.symm.trans hp))) (by decide)
      · cases h
  · refine harmless_of_none rfl (by simp) fun i j he => ?_
    injection he with he
    exact absurd (artifactPath_injective hn he) (by decide)

theorem harmless_deleteMoved {b : Bool} {i : IoError} (hn : Path.IsPart (l.fileName k)) :
    Harmless l k b (.file (.deleteMoved (l.artifactPath .previous k)) i) := by
  refine harmless_of_none rfl (fun j he => ?_) (by simp)
  injection he with he
  injection he with he
  exact absurd (artifactPath_injective hn he) (by decide)

theorem Unmoved.harmless (h : Unmoved l .current .previous k e) : Harmless l k false e := by
  refine ⟨fun hs => ?_, ?_⟩
  · rcases h with h | ⟨i, j, rfl⟩
    · exact folder_ne_records (Option.some.inj (h.symm.trans hs))
    · cases hs
  · rintro (⟨i, rfl⟩ | ⟨hb, -⟩)
    · rcases h with h | ⟨i, j, h⟩ <;> cases h
    · cases hb

/-- The values that a failed displacement has left: it has stopped before or after a previous value
has made way, and a value that it was moving may have been copied. -/
inductive Stuck (l : Layout) (h : Holdings) (k : Key) (added : Bool) (e : Failure) :
    Holdings → Prop
  | baseline_copied (he : Harmless l k (h.baselines k added) e) (hb : h.baselines k added = true) :
      Stuck l h k added e (h.set .baseline k (h .previous k))
  | cleared (he : Uncovered l k (h.baselines k added) e) (hb : h.baselines k added = true) :
      Stuck l h k added e (h.cleared k added)
  | copied (he : Uncovered l k (h.baselines k added) e) :
      Stuck l h k added e ((h.cleared k added).set .previous k (h .current k))

def Displaced (v : Weather) (l : Layout) (cwd : Place) (k : Key) (added : Bool)
    (fs fs' : FileSystem) : Except Failure Bool → Prop
  | .ok b => b = (l.held cwd fs).baselines k added ∧
      l.held cwd fs' = (l.held cwd fs).displaced k added
  | .error e => (v.Rough ∨ ¬ Holdable l .previous k) ∧ l.held cwd fs' = l.held cwd fs ∧
        Harmless l k ((l.held cwd fs).baselines k added) e ∨
      v.Rough ∧ Stuck l (l.held cwd fs) k added e (l.held cwd fs')

def Apart (l : Layout) (cwd : Place) (k : Key) (fs fs' : FileSystem) : Prop :=
  ∀ q, (∀ b : Area, b ≠ .current → within (b.name :: l.rootPlace cwd) q = false) →
    q ≠ l.site cwd .current k → fs'.node? q = fs.node? q

theorem Near.apart (h : Near l cwd b (l.site cwd a k) fs fs') (hb : b ≠ .current) :
    Apart l cwd k fs fs' := by
  intro q hq hs
  refine h q (hq b hb) ?_
  rintro rfl
  by_cases ha : a = .current
  · exact hs (by rw [ha])
  · have := hq a ha
    rw [within_site] at this
    cases this

theorem Apart.trans {fs'' : FileSystem} (h : Apart l cwd k fs fs') (h' : Apart l cwd k fs' fs'') :
    Apart l cwd k fs fs'' :=
  fun q hq hs => (h' q hq hs).trans (h q hq hs)

theorem Apart.records (h : Apart l cwd k fs fs') : RecordsStay l cwd fs fs' :=
  recordsStay_of_node? (h _ (fun b _ => not_within_flags b) (Ne.symm site_ne_flagsPlace))
    (h _ (fun b _ => not_within_journal b) (Ne.symm site_ne_journalPlace))

def MovedOut (v : Weather) (l : Layout) (cwd : Place) (k : Key) (c : Bytes) (b : Bool)
    (fs fs' : FileSystem) : Except Failure Bool → Prop
  | .ok b' => b' = b ∧ Moved v l cwd .current .previous k c fs fs' (.ok ())
  | .error e => Moved v l cwd .current .previous k c fs fs' (.error e)

theorem moveOut_ends {c : Bytes} (hf : Footing l cwd w)
    (hk : l.held cwd w.files .current k = some c) (b : Bool) :
    Action.Ends v (fun o s w' => s = ⟨l, i, r⟩ ∧ Footing l cwd w' ∧
        Apart l cwd k w.files w'.files ∧ MovedOut v l cwd k c b w.files w'.files o)
      (do
        Action.ofTask (moveFile (l.artifactPath .current k) (l.artifactPath .previous k))
        pure b) ⟨l, i, r⟩ w := by
  apply Action.ends_bind
  apply Action.ends_ofTask
  apply Task.ends_mono (moveFile_ends hf (by decide) hk)
  rintro (e | ⟨⟩) w' ⟨hf', hn, hm⟩
  · exact ⟨rfl, hf', hn.apart (by decide), hm⟩
  · exact Action.ends_pure ⟨rfl, hf', hn.apart (by decide), rfl, hm⟩

theorem MovedOut.displaced {c : Bytes} {added : Bool} {o : Except Failure Bool}
    (hm : MovedOut v l cwd k c false fs fs' o) (hk : l.held cwd fs .current k = some c)
    (hb : (l.held cwd fs).baselines k added = false) : Displaced v l cwd k added fs fs' o := by
  have hcleared : (l.held cwd fs).cleared k added = l.held cwd fs := by
    simp [Holdings.cleared, hb]
  cases o with
  | ok b =>
    obtain ⟨rfl, hm⟩ := hm
    refine ⟨hb.symm, ?_⟩
    rw [Holdings.displaced, hcleared, hk]
    exact hm
  | error e =>
    rcases hm with ⟨he, hm, hu⟩ | ⟨hr, hm, hd⟩
    · exact .inl ⟨he, hm, by rw [hb]; exact hu.harmless⟩
    · refine .inr ⟨hr, ?_⟩
      rw [hm, ← hk]
      nth_rewrite 2 [← hcleared]
      exact .copied (.inl hd)

theorem MovedOut.displaced_cleared {c : Bytes} {added : Bool} {fs₁ : FileSystem}
    {o : Except Failure Bool} (hm : MovedOut v l cwd k c true fs₁ fs' o)
    (hk : l.held cwd fs .current k = some c) (hb : (l.held cwd fs).baselines k added = true)
    (hcleared : l.held cwd fs₁ = (l.held cwd fs).cleared k added)
    (hh : Holdable l .previous k) : Displaced v l cwd k added fs fs' o := by
  cases o with
  | ok b =>
    obtain ⟨rfl, hm⟩ := hm
    refine ⟨hb.symm, ?_⟩
    rw [Holdings.displaced, hk, ← hcleared]
    exact hm
  | error e =>
    rcases hm with ⟨he, hm, hu⟩ | ⟨hr, hm, hd⟩
    · refine .inr ⟨he.resolve_right fun h => h hh, ?_⟩
      rw [hm, hcleared]
      exact .cleared (.inr ⟨hb, hu⟩) hb
    · refine .inr ⟨hr, ?_⟩
      rw [hm, hcleared, ← hk]
      exact .copied (.inl hd)

theorem Moved.displaced {p : Bytes} {added : Bool}
    (hm : Moved v l cwd .previous .baseline k p fs fs' (.error e))
    (hp : l.held cwd fs .previous k = some p) (hb : (l.held cwd fs).baselines k added = true)
    (hh : Holdable l .previous k) : Displaced v l cwd k added fs fs' (.error e) := by
  rcases hm with ⟨he, hm, hu⟩ | ⟨hr, hm, ⟨j, rfl⟩⟩
  · exact .inl ⟨.inl (he.resolve_right fun h => h hh.swap), hm,
      hu.harmless_previous hh.name.toIsPart⟩
  · refine .inr ⟨hr, ?_⟩
    rw [hm, ← hp]
    exact .baseline_copied (harmless_deleteMoved hh.name.toIsPart) hb

theorem moveBoth_ends {p c : Bytes} {added : Bool} (hf : Footing l cwd w)
    (hp : l.held cwd w.files .previous k = some p) (hk : l.held cwd w.files .current k = some c)
    (hb : (l.held cwd w.files).baselines k added = true) :
    Action.Ends v (fun o s w' => s = ⟨l, i, r⟩ ∧ Footing l cwd w' ∧
        Apart l cwd k w.files w'.files ∧ Displaced v l cwd k added w.files w'.files o)
      (do
        Action.ofTask (moveFile (l.artifactPath .previous k) (l.artifactPath .baseline k))
        Action.ofTask (moveFile (l.artifactPath .current k) (l.artifactPath .previous k))
        pure true) ⟨l, i, r⟩ w := by
  have hh : Holdable l .previous k := hf.sound.holdable_of_held (by simp [hp])
  apply Action.ends_bind
  apply Action.ends_ofTask
  apply Task.ends_mono (moveFile_ends hf (by decide) hp)
  rintro (e | ⟨⟩) w₁ ⟨hf₁, hn₁, hm₁⟩
  · exact ⟨rfl, hf₁, hn₁.apart (by decide), hm₁.displaced hp hb hh⟩
  have hcleared : l.held cwd w₁.files = (l.held cwd w.files).cleared k added := by
    rw [Holdings.cleared, if_pos hb, hp]
    exact hm₁
  have hk₁ : l.held cwd w₁.files .current k = some c := by
    rw [hm₁, Holdings.set_area (by decide), Holdings.set_area (by decide)]
    exact hk
  apply Action.ends_mono (moveOut_ends hf₁ hk₁ true)
  rintro o s w' ⟨hs, hf', ha, ho⟩
  exact ⟨hs, hf', (hn₁.apart (by decide)).trans ha, ho.displaced_cleared hk hb hcleared hh⟩

theorem displace_ends {c : Bytes} (hf : Footing l cwd w)
    (hk : l.held cwd w.files .current k = some c) :
    (Store.displace k).Ends v (fun o s w' => s = ⟨l, i, r⟩ ∧ Footing l cwd w' ∧
      Apart l cwd k w.files w'.files ∧
      Displaced v l cwd k (r.has k .addition) w.files w'.files o) ⟨l, i, r⟩ w := by
  have hh : Holdable l .current k := hf.sound.holdable_of_held (by simp [hk])
  have hexists := hf.pathExists_artifact hh.name.ne_dots
  have hplain : (l.held cwd w.files).baselines k (r.has k .addition) = false →
      Action.Ends v (fun o s w' => s = ⟨l, i, r⟩ ∧ Footing l cwd w' ∧
        Apart l cwd k w.files w'.files ∧
        Displaced v l cwd k (r.has k .addition) w.files w'.files o) (do
          Action.ofTask (moveFile (l.artifactPath .current k) (l.artifactPath .previous k))
          pure false) ⟨l, i, r⟩ w := by
    intro hb
    apply Action.ends_mono (moveOut_ends hf hk false)
    rintro o s w' ⟨hs, hf', ha, ho⟩
    exact ⟨hs, hf', ha, ho.displaced hk hb⟩
  unfold Store.displace
  apply Action.ends_bind
  apply Action.ends_get
  apply Action.ends_bind
  apply Action.ends_request (fun _ => rfl)
  simp only [Store.path, hexists]
  cases hp : l.held cwd w.files .previous k with
  | none =>
    apply Action.ends_bind
    apply Action.ends_pure
    exact hplain (by simp [Holdings.baselines, hp])
  | some p =>
    simp only [Option.isSome_some, if_true]
    apply Action.ends_bind
    apply Action.ends_request (fun _ => rfl)
    have hbaselines : (true && !(l.held cwd w.files .baseline k).isSome &&
        !r.has k .addition) = (l.held cwd w.files).baselines k (r.has k .addition) := by
      rw [Holdings.baselines, hp, Option.not_isSome, Option.isSome_some]
    simp only [hexists, hbaselines]
    cases hb : (l.held cwd w.files).baselines k (r.has k .addition) with
    | true => exact moveBoth_ends hf hp hk hb
    | false => exact hplain hb

theorem displace_nameless_ends (hf : Footing l cwd w) (hn : l.fileName k = "..") :
    (Store.displace k).Ends v (fun o s w' => s = ⟨l, i, r⟩ ∧ Footing l cwd w' ∧
      l.held cwd w'.files = l.held cwd w.files ∧
      RecordsStay l cwd w.files w'.files ∧ ∃ e, o = .error e) ⟨l, i, r⟩ w := by
  have hmove : ∀ (a b : Area) (next : Unit → Action Bool),
      Action.Ends v (fun o s w' => s = ⟨l, i, r⟩ ∧ Footing l cwd w' ∧
        l.held cwd w'.files = l.held cwd w.files ∧
        RecordsStay l cwd w.files w'.files ∧ ∃ e, o = .error e)
        (Action.ofTask (moveFile (l.artifactPath a k) (l.artifactPath b k)) >>= next)
        ⟨l, i, r⟩ w := by
    intro a b next
    apply Action.ends_bind
    apply Action.ends_ofTask
    apply Task.ends_mono (moveFile_nameless_ends hf hn a b)
    rintro o w' ⟨hf', hheld, hstay, e, rfl⟩
    exact ⟨rfl, hf', hheld, hstay, e, rfl⟩
  unfold Store.displace
  apply Action.ends_bind
  apply Action.ends_get
  apply Action.ends_bind
  apply Action.ends_request (fun _ => rfl)
  simp only [Store.path, hf.pathExists]
  by_cases hp : w.files.pathExists cwd (l.artifactPath .previous k) = true
  · rw [if_pos hp]
    apply Action.ends_bind
    apply Action.ends_request (fun _ => rfl)
    simp only [hf.pathExists]
    split
    · exact hmove _ _ _
    · exact hmove _ _ _
  · rw [if_neg hp]
    apply Action.ends_bind
    apply Action.ends_pure
    simp only
    split
    · exact hmove _ _ _
    · exact hmove _ _ _

/-- The values that a displacement which is taken back has left: it has come as far as to move the
displaced value back or to copy it, and then the value of the baseline. -/
inductive Unwound (h : Holdings) (k : Key) (b : Bool) : Holdings → Prop
  | still : Unwound h k b h
  | copied : Unwound h k b (h.set .current k (h .previous k))
  | returned : Unwound h k b ((h.set .current k (h .previous k)).set .previous k none)
  | rebased (hb : b = true) :
      Unwound h k b ((h.set .current k (h .previous k)).set .previous k (h .baseline k))
  | restored (hb : b = true) : Unwound h k b
      (((h.set .current k (h .previous k)).set .previous k (h .baseline k)).set .baseline k none)

def Uncommitted (h : Holdings) (k : Key) (added : Bool) (h' : Holdings) : Prop :=
  h .current k = none ∧ h' = h ∨ h .current k ≠ none ∧
    ∃ b, (b = true → h.baselines k added = true) ∧ Unwound (h.displaced k added) k b h'

/-- What a change that has failed has left: it has done nothing, or it has stopped while it moved
the displaced value, or at the commit of the new one, or the flag could not be saved. -/
inductive Failed (v : Weather) (l : Layout) (r : FlagRegistry) (k : Key) (f : Flag)
    (before changed after : Holdings) : Failure → FlagRegistry → Prop
  | untouched (e : Failure)
      (he : v.Rough ∨ ¬ Holdable l .previous k ∨
        e = .noValue k .current ∧ before .current k = none ∨ e = .unencodable)
      (hh : l.fileName k ≠ ".." → Harmless l k (before.baselines k (r.has k .addition)) e)
      (hafter : after = before) : Failed v l r k f before changed after e r
  | displacing (e : Failure) (hr : v.Rough) (hc : before .current k ≠ none)
      (hs : Stuck l before k (r.has k .addition) e after) :
      Failed v l r k f before changed after e r
  | committing (e : IoError) (hr : v.Rough)
      (hafter : Uncommitted before k (r.has k .addition) after) :
      Failed v l r k f before changed after (.file (.replace (l.artifactPath .current k)) e) r
  | saving (e : Failure) (hr : v.Rough) (he : Unsaved l e) (hnew : r.has k f = false)
      (hafter : after = changed) :
      Failed v l r k f before changed after e (r.raised k f)

/-- How a change ends that gives the store other values and raises a flag. -/
def Changed (v : Weather) (l : Layout) (cwd : Place) (r : FlagRegistry) (k : Key) (f : Flag)
    (changed : Holdings) (fs fs' : FileSystem) (r' : FlagRegistry) : Except Failure Unit → Prop
  | .ok () => r' = r.raised k f ∧ l.held cwd fs' = changed ∧
      (r.has k f = true ∧ l.document cwd fs' = l.document cwd fs ∨
        r.has k f = false ∧ l.document cwd fs' = some (Utf8.encode r'.toJson.indented))
  | .error e => RecordsStay l cwd fs fs' ∧
      Failed v l r k f (l.held cwd fs) changed (l.held cwd fs') e r'

theorem raise_record_ends {fs : FileSystem} {changed : Holdings} (hf : Footing l cwd w)
    (hheld : l.held cwd w.files = changed)
    (hstay : RecordsStay l cwd fs w.files) (action : Journal.Action) (details : Json) :
    Action.Ends v (fun o s w' => ∃ r', s = ⟨l, i, r'⟩ ∧ Footing l cwd w' ∧
        Changed v l cwd r k f changed fs w'.files r' o ∧
        (o = .ok () → Noted v l cwd fs w' [⟨action, some k, details⟩]))
      (do
        Store.raise k f
        Store.record action (some k) details) ⟨l, i, r⟩ w := by
  apply Action.ends_bind
  apply Action.ends_mono (raise_ends hf k f)
  rintro (e | ⟨⟩) s w₁ ⟨rfl, hf₁, hheld₁, hjournal₁, hr⟩
  · obtain ⟨hnew, ⟨hr, he⟩, hd⟩ := hr
    exact ⟨_, rfl, hf₁, ⟨hstay.trans ⟨hd, hjournal₁⟩,
      .saving e hr he hnew (hheld₁.trans hheld)⟩, by simp⟩
  · apply Action.ends_mono (record_ends hf₁ _ _ _)
    rintro o s w₂ ⟨rfl, rfl, hf₂, hj, hnoted⟩
    refine ⟨_, rfl, hf₂, ⟨rfl, hj.held.trans (hheld₁.trans hheld), ?_⟩,
      fun _ => hnoted.congr (hjournal₁.trans hstay.journal)⟩
    rw [hj.document]
    rcases hr with ⟨h, hd⟩ | ⟨h, hd⟩
    · exact .inl ⟨h, hd.trans hstay.document⟩
    · exact .inr ⟨h, hd⟩

theorem flag_ends (hf : Footing l cwd w) (k : Key) (f : Flag) :
    (Store.flag k f).Ends v (fun o s w' => ∃ r', s = ⟨l, i, r'⟩ ∧ Footing l cwd w' ∧
      Changed v l cwd r k f (l.held cwd w.files) w.files w'.files r' o ∧
      (o = .ok () → Noted v l cwd w.files w' [⟨.flag, some k, Store.flagDetails f⟩])) ⟨l, i, r⟩ w :=
  raise_record_ends hf rfl (.refl _) _ _

theorem delete_ends (hf : Footing l cwd w) (k : Key) :
    (Store.delete k).Ends v (fun o s w' => ∃ r', s = ⟨l, i, r'⟩ ∧ Footing l cwd w' ∧
      (o = .ok () ∨ r' ≠ r → l.held cwd w.files .current k ≠ none) ∧
      Changed v l cwd r k .deletion ((l.held cwd w.files).displaced k (r.has k .addition)) w.files
        w'.files r' o ∧
      (o = .ok () → Noted v l cwd w.files w' [⟨.delete, some k, Store.noDetails⟩]))
      ⟨l, i, r⟩ w := by
  unfold Store.delete
  apply Action.ends_bind
  apply Action.ends_get
  apply Action.ends_bind
  apply Action.ends_request (fun _ => rfl)
  simp only [Store.path, hf.pathExists]
  by_cases hn : l.fileName k = ".."
  · have hunheld := not_holdable_nameless (a := .previous) hn
    split
    · apply Action.ends_bind
      apply Action.ends_mono (displace_nameless_ends hf hn)
      rintro o s w₁ ⟨rfl, hf₁, hheld, hstay, e, rfl⟩
      exact ⟨_, rfl, hf₁, by simp, ⟨hstay,
        .untouched e (.inr (.inl hunheld)) (fun h => absurd hn h) hheld⟩, by simp⟩
    · exact Action.ends_fail ⟨_, rfl, hf, by simp, ⟨.refl _,
        .untouched _ (.inr (.inl hunheld)) (fun h => absurd hn h) rfl⟩, by simp⟩
  · rw [hf.sound.pathExists hn]
    cases hk : l.held cwd w.files .current k with
    | none =>
      exact Action.ends_fail ⟨_, rfl, hf, by simp, ⟨.refl _, .untouched _
        (.inr (.inr (.inl ⟨rfl, hk⟩))) (fun _ => harmless_of_none rfl (by simp) (by simp)) rfl⟩,
        by simp⟩
    | some c =>
      simp only [Option.isSome_some, if_true]
      apply Action.ends_bind
      apply Action.ends_mono (displace_ends hf hk)
      rintro (e | b) s w₁ ⟨rfl, hf₁, ha, hd⟩
      · refine ⟨_, rfl, hf₁, by simp, ⟨ha.records, ?_⟩, by simp⟩
        rcases hd with ⟨he, hd, hh⟩ | ⟨hr, hd⟩
        · exact .untouched e (he.imp_right .inl) (fun _ => hh) hd
        · exact .displacing e hr (by simp [hk]) hd
      · apply Action.ends_mono (raise_record_ends hf₁ hd.2 ha.records _ _)
        rintro o s w₂ ⟨r', hs, hf₂, ho⟩
        exact ⟨r', hs, hf₂, by simp, ho⟩

theorem stage_nameless_ends (hf : Footing l cwd w) (hn : l.fileName k = "..") (x : Bytes) :
    (Staged.stage (l.artifactPath a k) x).Ends v (fun o w' => Footing l cwd w' ∧
      l.held cwd w'.files = l.held cwd w.files ∧
      RecordsStay l cwd w.files w'.files ∧ ∃ e, o = .error e) w := by
  have hd := folder_folder l cwd a k
  rw [artifactPath_eq, hn]
  unfold Staged.stage
  apply Task.ends_bind
  apply Task.ends_mono (ensureParent_ends hf hd Path.isPart_dots)
  rintro (e | ⟨⟩) w₁ ⟨hf₁, ha, -⟩
  · exact ⟨hf₁, ha.held hf.sound.storable, ha.records, e, rfl⟩
  · unfold Staged.temporaryPath
    rw [Path.fileName?_join_dots]
    apply Task.ends_bind
    exact Task.ends_fail ⟨hf₁, ha.held hf.sound.storable, ha.records, _, rfl⟩

theorem not_within_current {n : String} (hb : b ≠ .current) :
    within (b.name :: l.rootPlace cwd) (n :: l.folderPlace cwd .current k) = false := by
  obtain ⟨xs, -, hxs, -⟩ := site_eq_append l cwd .current k
  rw [hxs]
  exact not_within_of_length (fun he => hb (area_name_injective he)) (n :: xs.tail) rfl

theorem Pending.apart {d n t : String} {c : Bytes} (hu : FileName.Storable l.extension.toList)
    (h : Pending fs d n (l.folderPlace cwd .current k) t c) (ha : Apart l cwd k fs fs') :
    Pending fs' d n (l.folderPlace cwd .current k) t c := by
  have hfolder : l.folderPlace cwd .current k ≠ l.site cwd .current k := fun he => by
    simpa [site] using congrArg List.length he
  refine { h with directory := ?_, file := ?_ }
  · rw [ha _ (fun b hb => not_within_folder (Ne.symm hb)) hfolder]
    exact h.directory
  · rw [ha _ (fun b hb => not_within_current hb)
      (Ne.symm (ne_site_of_temporary hu h.temporary .current k))]
    exact h.file

theorem Unwound.of_failed {c : Bytes} {b : Bool} (hp : l.held cwd fs .previous k = some c)
    (hm : Moved v l cwd .previous .current k c fs fs' (.error e)) :
    Unwound (l.held cwd fs) k b (l.held cwd fs') := by
  rcases hm with ⟨-, hm, -⟩ | ⟨-, hm, -⟩
  · rw [hm]
    exact .still
  · rw [hm, ← hp]
    exact .copied

theorem Unwound.of_moved {y : Bytes} {b : Bool} {fs₁ : FileSystem} {o : Except Failure Unit}
    (hbase : b = true) (hy : l.held cwd fs .baseline k = some y)
    (hback : l.held cwd fs₁ = ((l.held cwd fs).set .current k
      (l.held cwd fs .previous k)).set .previous k none)
    (hm : Moved v l cwd .baseline .previous k y fs₁ fs' o) :
    Unwound (l.held cwd fs) k b (l.held cwd fs') := by
  cases o with
  | ok _ =>
    have hm : l.held cwd fs' =
      ((l.held cwd fs₁).set .previous k (some y)).set .baseline k none := hm
    rw [hm, hback, ← hy, Holdings.set_set]
    exact .restored hbase
  | error e =>
    rcases hm with ⟨-, hm, -⟩ | ⟨-, hm, -⟩
    · rw [hm, hback]
      exact .returned
    · rw [hm, hback, ← hy, Holdings.set_set]
      exact .rebased hbase

theorem undoDisplace_ends {c : Bytes} (hf : Footing l cwd w)
    (hp : l.held cwd w.files .previous k = some c) {b : Bool}
    (hb : b = true → l.held cwd w.files .baseline k ≠ none) :
    (Store.undoDisplace k b).Ends v (fun o s w' => o = .ok () ∧ s = ⟨l, i, r⟩ ∧
      Footing l cwd w' ∧ RecordsStay l cwd w.files w'.files ∧
      Unwound (l.held cwd w.files) k b (l.held cwd w'.files)) ⟨l, i, r⟩ w := by
  unfold Store.undoDisplace
  apply Action.ends_bind
  apply Action.ends_get
  apply Action.ends_bind
  apply Action.ends_ofTask
  apply Task.ends_outcome
  apply Task.ends_mono (moveFile_ends hf (by decide) hp)
  rintro (e | ⟨⟩) w₁ ⟨hf₁, hn, hm⟩
  · exact Action.ends_pure ⟨rfl, rfl, hf₁, hn.records, .of_failed hp hm⟩
  have hback : l.held cwd w₁.files = ((l.held cwd w.files).set .current k
      (l.held cwd w.files .previous k)).set .previous k none := by
    rw [hp]
    exact hm
  dsimp only
  split
  next hbase =>
    obtain ⟨y, hy⟩ := Option.ne_none_iff_exists'.mp (hb hbase)
    have hy₁ : l.held cwd w₁.files .baseline k = some y := by
      rw [hm, Holdings.set_area (by decide), Holdings.set_area (by decide)]
      exact hy
    apply Action.ends_bind
    apply Action.ends_ofTask
    apply Task.ends_outcome
    apply Task.ends_mono (moveFile_ends hf₁ (by decide) hy₁)
    rintro o w₂ ⟨hf₂, hn₂, hm₂⟩
    exact Action.ends_pure
      ⟨rfl, rfl, hf₂, hn.records.trans hn₂.records, .of_moved hbase hy hback hm₂⟩
  next =>
    refine Action.ends_pure ⟨rfl, rfl, hf₁, hn.records, ?_⟩
    rw [hback]
    exact .returned

theorem makeWay_ends (hf : Footing l cwd w) :
    Action.Ends v (fun o s w' => s = ⟨l, i, r⟩ ∧ Footing l cwd w' ∧ Apart l cwd k w.files w'.files ∧
        match o with
        | .ok b => l.held cwd w'.files = (if (l.held cwd w.files .current k).isSome then
              (l.held cwd w.files).displaced k (r.has k .addition) else l.held cwd w.files) ∧
            (b = true → (l.held cwd w.files).baselines k (r.has k .addition) = true)
        | .error e => (v.Rough ∨ ¬ Holdable l .previous k) ∧
              l.held cwd w'.files = l.held cwd w.files ∧
              Harmless l k ((l.held cwd w.files).baselines k (r.has k .addition)) e ∨
            v.Rough ∧ l.held cwd w.files .current k ≠ none ∧
              Stuck l (l.held cwd w.files) k (r.has k .addition) e (l.held cwd w'.files))
      (if (l.held cwd w.files .current k).isSome then Store.displace k else pure false) ⟨l, i, r⟩
      w := by
  cases hk : l.held cwd w.files .current k with
  | none => exact Action.ends_pure ⟨rfl, hf, fun _ _ _ => rfl, rfl, by simp⟩
  | some c =>
    simp only [Option.isSome_some, if_true]
    apply Action.ends_mono (displace_ends hf hk)
    rintro (e | b) s w' ⟨hs, hf', ha, hd⟩
    · exact ⟨hs, hf', ha, hd.imp_right fun h => ⟨h.1, by simp, h.2⟩⟩
    · exact ⟨hs, hf', ha, hd.2, fun hb => hd.1 ▸ hb⟩

theorem giveUp_ends {t : String} {c : Bytes} {fs : FileSystem} {f : Flag} {changed : Holdings}
    (hf : Footing l cwd w)
    (hp : Pending w.files (l.folder .current k) (l.fileName k) (l.folderPlace cwd .current k) t c)
    (hstay : RecordsStay l cwd fs w.files)
    (hfailed : Failed v l r k f (l.held cwd fs) changed (l.held cwd w.files) e r) :
    Action.Ends v (fun (o : Except Failure Unit) s w' => s = ⟨l, i, r⟩ ∧ Footing l cwd w' ∧
        ∃ e, o = .error e ∧ RecordsStay l cwd fs w'.files ∧
          Failed v l r k f (l.held cwd fs) changed (l.held cwd w'.files) e r)
      (do
        Action.ofTask (Staged.discard
          ⟨Path.join (l.folder .current k) t, l.artifactPath .current k⟩)
        Store.fail e) ⟨l, i, r⟩ w := by
  apply Action.ends_bind
  apply Action.ends_ofTask
  rw [artifactPath_eq]
  apply Task.ends_mono (discard_ends hf (folder_folder l cwd .current k) hp)
  rintro o w' ⟨rfl, hf', ha⟩
  refine Action.ends_fail ⟨rfl, hf', _, rfl, hstay.trans ha.records, ?_⟩
  rw [ha.held hf.sound.storable]
  exact hfailed

theorem goBack_ends {fs : FileSystem} {b : Bool} (hf : Footing l cwd w)
    (hstay : RecordsStay l cwd fs w.files)
    (hheld : l.held cwd w.files = if (l.held cwd fs .current k).isSome then
      (l.held cwd fs).displaced k (r.has k .addition) else l.held cwd fs)
    (hb : b = true → (l.held cwd fs).baselines k (r.has k .addition) = true) (hr : v.Rough)
    (f : Flag) (changed : Holdings) (e : IoError) :
    Action.Ends v (fun (o : Except Failure Unit) s w' => s = ⟨l, i, r⟩ ∧ Footing l cwd w' ∧
        ∃ e, o = .error e ∧ RecordsStay l cwd fs w'.files ∧
          Failed v l r k f (l.held cwd fs) changed (l.held cwd w'.files) e r)
      (do
        if (l.held cwd fs .current k).isSome then Store.undoDisplace k b
        Store.fail (.file (.replace (l.artifactPath .current k)) e)) ⟨l, i, r⟩ w := by
  cases hc : l.held cwd fs .current k with
  | none =>
    rw [hc] at hheld
    exact Action.ends_fail ⟨rfl, hf, _, rfl, hstay, .committing e hr (.inl ⟨hc, hheld⟩)⟩
  | some c =>
    rw [hc, Option.isSome_some, if_pos rfl] at hheld
    have hprevious : l.held cwd w.files .previous k = some c := by
      rw [hheld, Holdings.displaced_previous, hc]
    have hbaseline : b = true → l.held cwd w.files .baseline k ≠ none := by
      intro h
      have hb := hb h
      rw [hheld, Holdings.displaced_baseline, if_pos hb]
      simp only [Holdings.baselines, Bool.and_eq_true] at hb
      exact Option.isSome_iff_ne_none.mp hb.1.1
    apply Action.ends_bind
    apply Action.ends_mono (undoDisplace_ends hf hprevious hbaseline)
    rintro o s w' ⟨rfl, rfl, hf', hstay', hunwound⟩
    rw [hheld] at hunwound
    exact Action.ends_fail ⟨rfl, hf', _, rfl, hstay.trans hstay',
      .committing e hr (.inr ⟨by simp [hc], b, hb, hunwound⟩)⟩

theorem writeBytes_ends (hf : Footing l cwd w) (k : Key) (x : Bytes) :
    (Store.writeBytes k x).Ends v (fun o s w' => ∃ r', s = ⟨l, i, r'⟩ ∧ Footing l cwd w' ∧
      Changed v l cwd r k ((l.held cwd w.files).writeFlag k)
        ((l.held cwd w.files).written k (r.has k .addition) x) w.files w'.files r' o ∧
      (o = .ok () → Noted v l cwd w.files w'
        [⟨.write, some k, Store.flagDetails ((l.held cwd w.files).writeFlag k)⟩])) ⟨l, i, r⟩ w := by
  unfold Store.writeBytes
  apply Action.ends_bind
  apply Action.ends_get
  apply Action.ends_bind
  apply Action.ends_ofTask
  by_cases hn : l.fileName k = ".."
  · apply Task.ends_mono (stage_nameless_ends hf hn x)
    rintro o w₁ ⟨hf₁, hheld, hstay, e, rfl⟩
    exact ⟨_, rfl, hf₁, ⟨hstay, .untouched e (.inr (.inl (not_holdable_nameless hn)))
      (fun h => absurd hn h) hheld⟩, by simp⟩
  have hd := folder_folder l cwd .current k
  have hpath : l.artifactPath .current k = Path.join (l.folder .current k) (l.fileName k) :=
    artifactPath_eq l .current k
  have hstage := stage_ends (v := v) hf hd (isName_fileName hf.sound.storable hn) x
  simp only [← hpath] at hstage
  apply Task.ends_mono hstage
  rintro (e | staged) w₁ ⟨hf₁, ha₁, ho₁⟩
  · exact ⟨_, rfl, hf₁, ⟨ha₁.records, .untouched e (.inl ho₁.1)
      (fun _ => harmless_of_current ho₁.2) (ha₁.held hf.sound.storable)⟩, by simp⟩
  obtain ⟨t, rfl, hp₁⟩ := ho₁
  have hheld₁ : l.held cwd w₁.files = l.held cwd w.files := ha₁.held hf.sound.storable
  apply Action.ends_bind
  apply Action.ends_request (fun _ => rfl)
  simp only [Store.path, hf₁.pathExists_artifact hn, hheld₁]
  apply Action.ends_bind
  apply Action.ends_request (fun _ => rfl)
  simp only [hf₁.pathExists_artifact hn, hheld₁]
  apply Action.ends_bind
  apply Action.ends_outcome
  have hway := makeWay_ends (v := v) (k := k) (i := i) (r := r) hf₁
  rw [hheld₁] at hway
  apply Action.ends_mono hway
  rintro (e | b) s w₂ ⟨rfl, hf₂, ha₂, ho₂⟩
  all_goals
    have hp₂ := hp₁.apart hf.sound.storable ha₂
    have hstay₂ : RecordsStay l cwd w.files w₂.files := ha₁.records.trans ha₂.records
  · have hfailed : Failed v l r k ((l.held cwd w.files).writeFlag k) (l.held cwd w.files)
        ((l.held cwd w.files).written k (r.has k .addition) x) (l.held cwd w₂.files) e r := by
      rcases ho₂ with ⟨he, h, hh⟩ | ⟨hr, hc, h⟩
      · exact .untouched e (he.imp_right .inl) (fun _ => hh) h
      · exact .displacing e hr hc h
    apply Action.ends_mono (giveUp_ends hf₂ hp₂ hstay₂ hfailed)
    rintro o s w₃ ⟨rfl, hf₃, e, rfl, hstay₃, hfailed₃⟩
    exact ⟨_, rfl, hf₃, ⟨hstay₃, hfailed₃⟩, by simp⟩
  obtain ⟨hheld₂, hb⟩ := ho₂
  apply Action.ends_bind
  apply Action.ends_ofTask
  apply Task.ends_outcome
  have hcommit := commit_ends (v := v) hf₂ hd (slot_site hf.sound.storable hn) hp₂
  rw [← hpath] at hcommit
  apply Task.ends_mono hcommit
  rintro (e | ⟨⟩) w₃ ⟨hf₃, ho₃⟩
  · obtain ⟨hr, ⟨e', rfl⟩, ha₃⟩ := ho₃
    have hheld₃ := (ha₃.held hf.sound.storable).trans hheld₂
    apply Action.ends_mono (goBack_ends hf₃ (hstay₂.trans ha₃.records) hheld₃ hb hr _ _ e')
    rintro o s w₄ ⟨rfl, hf₄, e, rfl, hstay₄, hfailed₄⟩
    exact ⟨_, rfl, hf₄, ⟨hstay₄, hfailed₄⟩, by simp⟩
  · have hheld₃ : l.held cwd w₃.files = (l.held cwd w.files).written k (r.has k .addition) x := by
      rw [Puts.held ho₃ hf.sound.storable, hheld₂, Holdings.written]
    exact raise_record_ends hf₃ hheld₃ (hstay₂.trans (Puts.records_of_site ho₃)) _ _

section Values

variable {Q : Except Failure Unit → Store → World → Prop} {s : Store}

theorem write_none_ends (k : Key) (h : Q (.error .unencodable) s w) :
    (Store.write k none).Ends v Q s w :=
  Action.ends_bind (Action.ends_get (Action.ends_fail h))

theorem write_some_ends (k : Key) {x : Json}
    (h : (Store.writeBytes k (s.encode x.canonical)).Ends v Q s w) :
    (Store.write k (some x)).Ends v Q s w :=
  Action.ends_bind (Action.ends_get h)

end Values

end SourceDelta.Layout
