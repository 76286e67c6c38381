import Mathlib.Data.Finset.Card
import SourceDelta.Proofs.Displacement

/-!
# What the journal tells

An account is kept beside a store: a note of every call that succeeds, and the
artifacts of which a value was moved away in this generation. It is kept without a
look at the journal. The flag of a write is told by what can be read before it, and
the numbers of a rollback are told by the flags and by the account itself. When
nothing is refused the journal is read back as the notes of the account.
-/

set_option autoImplicit false

namespace SourceDelta

def FlagRegistry.flagged (r : FlagRegistry) (f : Flag) : Finset Key :=
  (r.entries.map (·.1)).toFinset.filter fun k => r.has k f

namespace Store

def Change.raised (known : Bool) : Change → Flag
  | write _ _ | writeBytes _ _ => if known then .modification else .addition
  | delete _ => .deletion
  | flag _ f => f

def Change.note (f : Flag) : Change → Journal.Note
  | write k _ | writeBytes k _ => ⟨.write, some k, flagDetails f⟩
  | delete k => ⟨.delete, some k, noDetails⟩
  | flag k _ => ⟨.flag, some k, flagDetails f⟩

instance (c : Change) : Decidable c.Moves :=
  match c with
  | .write _ _ | .writeBytes _ _ | .delete _ => .isTrue trivial
  | .flag _ _ => .isFalse id

structure Account where
  notes : List Journal.Note
  /-- The artifacts of which a value was moved away in this generation. -/
  moved : Finset Key

namespace Account

def opened : Account := ⟨[], ∅⟩

/-- The artifact has a value, or had one in this generation. -/
def knows (a : Account) (s : Store) (w : World) (k : Key) : Bool :=
  (s.values w k).isSome || decide (k ∈ a.moved)

def restored (a : Account) (r : FlagRegistry) : Finset Key :=
  a.moved.filter fun k => r.has k .addition = false

/-- The account after a call that succeeds. -/
def after (a : Account) (s : Store) (w : World) : Call → Account
  | .change c =>
    ⟨a.notes ++ [c.note (c.raised (a.knows s w c.key))],
      if c.Moves ∧ s.values w c.key ≠ none then insert c.key a.moved else a.moved⟩
  | .clearHistory => ⟨a.notes ++ [⟨.clearHistory, none, noDetails⟩], ∅⟩
  | .rollback =>
    ⟨a.notes ++ [⟨.rollback, none, rollbackDetails (s.flags.flagged .addition).card
      (a.restored s.flags).card⟩, ⟨.clearHistory, none, noDetails⟩], ∅⟩

/-- The numbers of artifacts that a rollback tells are machine words. -/
def Counts (a : Account) (r : FlagRegistry) : Prop :=
  (r.flagged .addition).card < 2 ^ 64 ∧ (a.restored r).card < 2 ^ 64

instance (a : Account) (r : FlagRegistry) : Decidable (a.Counts r) :=
  inferInstanceAs (Decidable (_ ∧ _))

end Account

/-- The stores that an account is kept of, from an empty root: calls are made of which nothing is
refused and for which there is room, and the numbers of a rollback are words; the store is opened
again; and in between time passes and values are read. -/
inductive Accounted (l : Layout) (cwd : Place) : Account → Store → World → Prop
  | opened {i : Bool} {s : Store} {w w' : World} (hw : w.place = cwd) (hv : l.Vacant cwd w.files)
      (hclock : w.clock.Valid) (hrun : (openAt l i).run.run w = (.ok s, w')) :
      Accounted l cwd .opened s w'
  | passed {a : Account} {s : Store} {w w' : World} (h : Accounted l cwd a s w)
      (hfiles : w'.files = w.files) (hplace : w'.place = w.place) (hclock : w'.clock.Valid) :
      Accounted l cwd a s w'
  | called {a : Account} {s s' : Store} {w w' : World} (h : Accounted l cwd a s w) (c : Call)
      (hcounts : c = .rollback → a.Counts s.flags) (hroom : (c.action.on s).roomy w = true)
      (hrun : (c.action.on s).run w = ((.ok (), s'), w')) :
      Accounted l cwd (a.after s w c) s' w'
  | failed {a : Account} {s s' : Store} {w w' : World} (h : Accounted l cwd a s w) (c : Call)
      {e : Failure} (hroom : (c.action.on s).roomy w = true)
      (hrun : (c.action.on s).run w = ((.error e, s'), w')) : Accounted l cwd a s' w'
  | reopened {a : Account} {s s' : Store} {w w' : World} (h : Accounted l cwd a s w) {i : Bool}
      (hrun : (openAt l i).run.run w = (.ok s', w')) : Accounted l cwd a s' w'

end Store

namespace Journal

theorem legible_noDetails : Legible Store.noDetails :=
  ⟨Json.spells_compact_object [] (by simp), by decide, rfl⟩

theorem legible_flagDetails (f : Flag) : Legible (Store.flagDetails f) := by
  refine ⟨?_, ?_, rfl⟩
  · apply Json.spells_compact_object
    intro p hp
    rw [List.mem_singleton.mp hp]
    exact ⟨.all, rfl, .string _⟩
  · apply Json.newline_not_mem_object
    intro p hp
    rw [List.mem_singleton.mp hp]
    exact Json.newline_not_mem_quote _

theorem legible_rollbackDetails {n m : Nat} (hn : n < 2 ^ 64) (hm : m < 2 ^ 64) :
    Legible (Store.rollbackDetails n m) := by
  have hmem : ∀ p ∈ [("removed", Json.ofNat n), ("restored", Json.ofNat m)],
      ∃ x < 2 ^ 64, p.2 = Json.ofNat x := by
    intro p hp
    simp only [List.mem_cons, List.not_mem_nil, or_false] at hp
    rcases hp with rfl | rfl
    · exact ⟨n, hn, rfl⟩
    · exact ⟨m, hm, rfl⟩
  refine ⟨?_, ?_, rfl⟩
  · apply Json.spells_compact_object
    intro p hp
    obtain ⟨x, hx, hpx⟩ := hmem p hp
    have htext : Json.compactChars (.ofNat x) = Nat.toDigits 10 x := by
      simp [Json.ofNat, Json.compactChars, Json.literal, Json.Number.text]
    rw [hpx, htext]
    exact ⟨.all, rfl, .natural hx⟩
  · apply Json.newline_not_mem_object
    intro p hp
    obtain ⟨x, -, hpx⟩ := hmem p hp
    rw [hpx]
    exact Json.newline_not_mem_natural x

theorem legible_note (c : Store.Change) (f : Flag) : Legible (c.note f).details := by
  cases c with
  | delete k => exact legible_noDetails
  | _ => exact legible_flagDetails f

theorem encode_text (es : List Entry) : Utf8.encode (text es) =
    es.flatMap fun e => Utf8.encode e.line ++ Utf8.encode "\n" := by
  induction es with
  | nil => rfl
  | cons e es ih =>
    have hline : text [e] = e.line ++ "\n" := by simp [text]
    rw [← List.singleton_append, text_append, Utf8.encode_append, ih, hline,
      Utf8.encode_append]
    rfl

theorem read_run {w : World} {path : String} {es : List Entry}
    (hexists : w.files.pathExists w.place path = true)
    (hread : w.files.readFile w.place path = .ok (Utf8.encode (text es)))
    (hlegible : ∀ e ∈ es, e.time.Valid ∧ Legible e.details) :
    (read path).run.run w = (.ok es, w) := by
  have hlines := ofLines_text (fun e he => (hlegible e he).1)
    fun e he => (hlegible e he).2
  rw [read_of_file hexists hread, hlines]
  rfl

end Journal

theorem FlagRegistry.mem_flagged {r : FlagRegistry} (h : r.Ordered) {k : Key} {f : Flag} :
    k ∈ r.flagged f ↔ r.has k f = true := by
  rw [flagged, Finset.mem_filter, List.mem_toFinset, and_iff_right_iff_imp]
  intro hk
  have hwith : k ∈ r.keysWith k.kind f := h.mem_keysWith.mpr ⟨rfl, hk⟩
  obtain ⟨e, he, rfl⟩ := List.mem_map.mp hwith
  exact List.mem_map_of_mem (List.mem_of_mem_filter he)

namespace Layout
open SourceDelta.Store (Account Accounted Action Call Change)
open SourceDelta.FileSystem (Fits)

variable {l : Layout} {cwd : Place} {fs fs' : FileSystem} {w w' : World} {s s' : Store} {k : Key}
  {a : Account} {notes : List Journal.Note} {i : Bool} {r : FlagRegistry} {f : Flag} {v : Weather}

theorem Sound.journalFit (h : Sound l cwd fs) (hd : l.document cwd fs ≠ none) :
    Fits l.journalPath := by
  have hnode : fs.node? (l.flagsPlace cwd) ≠ none := fun hn =>
    hd (by rw [document, FileSystem.content?, hn])
  have hfits : Fits l.flagsPath := h.flagsFit hnode
  have hmeta := isName_meta.toIsPart
  have hjournal := isName_journal.toIsPart
  refine ⟨?_, ?_⟩
  · have hroot := (FileSystem.Fits.of_join hmeta
      (FileSystem.Fits.of_join isName_flags.toIsPart hfits)).noNul
    rw [journalPath, Bool.eq_false_iff, ne_eq, Path.hasNul_join hjournal, hroot]
    decide
  · have hshort := hfits.short
    rw [flagsPath, Path.join_join_size hmeta isName_flags.toIsPart, Path.join_size hmeta] at hshort
    rw [journalPath, Path.join_size hjournal]
    have h₁ : "meta".utf8ByteSize = 4 := by decide
    have h₂ : "flags.json".utf8ByteSize = 10 := by decide
    have h₃ : "journal.ndjson".utf8ByteSize = 14 := by decide
    omega

theorem Sound.pathExists_journal (h : Sound l cwd fs) (hj : l.journal cwd fs = none) :
    fs.pathExists cwd l.journalPath = false := by
  have hnone := FileSystem.node?_of_content?_none h.journal_not_directory hj
  rw [FileSystem.pathExists]
  split
  next p hp =>
    obtain ⟨-, -, hplace, hnode, -⟩ := FileSystem.walk_of_find hp
    rw [hplace, journalPath, FileSystem.placeOf_join isName_journal] at hnode
    rw [journalPlace, rootPlace] at hnone
    rw [hnone] at hnode
    cases hnode
  next => rfl

/-- The journal has the lines of entries that agree with the notes. -/
def Journaled (l : Layout) (cwd : Place) (fs : FileSystem) (notes : List Journal.Note) : Prop :=
  ∃ es : List Journal.Entry, es.map (·.note) = notes ∧
    (∀ e ∈ es, e.time.Valid ∧ Journal.Legible e.details) ∧
    (l.journal cwd fs = none ∧ es = [] ∨
      Fits l.journalPath ∧ l.journal cwd fs = some (Utf8.encode (Journal.text es)))

theorem Journaled.congr (h : Journaled l cwd fs notes) (hj : l.journal cwd fs' = l.journal cwd fs) :
    Journaled l cwd fs' notes := by
  rw [Journaled, hj]
  exact h

theorem Journaled.append {added : List Journal.Note} (h : Journaled l cwd w.files notes)
    (hf : Footing l cwd w') (hd : l.document cwd w'.files ≠ none) (hclock : w'.clock.Valid)
    (hadded : ∀ n ∈ added, Journal.Legible n.details)
    (hnoted : Noted .calm l cwd w.files w' added) :
    Journaled l cwd w'.files (notes ++ added) := by
  obtain ⟨es, hes, hlegible, hjournal⟩ := h
  have hfits := hf.sound.journalFit hd
  have hbefore : (l.journal cwd w.files).getD [] = Utf8.encode (Journal.text es) := by
    rcases hjournal with ⟨hj, rfl⟩ | ⟨-, hj⟩
    · rw [hj]
      rfl
    · rw [hj, Option.getD_some]
  refine ⟨es ++ added.map (·.entry w'.clock), ?_, ?_, .inr ⟨hfits, ?_⟩⟩
  · rw [List.map_append, hes, List.map_map]
    congr 1
    exact List.map_id added
  · intro e he
    rcases List.mem_append.mp he with he | he
    · exact hlegible e he
    · obtain ⟨n, hn, rfl⟩ := List.mem_map.mp he
      exact ⟨hclock, hadded n hn⟩
  · rw [hnoted Weather.not_rough_calm hfits, hbefore, Journal.text_append, Utf8.encode_append]

theorem Journaled.read (h : Journaled l cwd w.files notes) (hf : Footing l cwd w) :
    ∃ es, (Journal.read l.journalPath).run.run w = (.ok es, w) ∧ es.map (·.note) = notes := by
  obtain ⟨es, hes, hlegible, hjournal⟩ := h
  refine ⟨es, ?_, hes⟩
  rcases hjournal with ⟨hj, rfl⟩ | ⟨hfits, hj⟩
  · have hexists : w.answer (.pathExists l.journalPath) = (false, w) := by
      rw [World.answer, hf.place, hf.sound.pathExists_journal hj]
    unfold Journal.read
    rw [Task.run_bind, Task.run_ask, hexists]
    rfl
  · have hreach := hf.sound.reaches_journal hfits
    have hnode := FileSystem.content?_eq_some.mp hj
    rw [journalPlace] at hnode
    refine Journal.read_run ?_ ?_ hlegible
    · rw [hf.place, hreach.pathExists, hnode]
      rfl
    · rw [hf.place, hreach.readFile hnode]

/-- An account tells of a store, in its files and in memory. -/
structure Audited (l : Layout) (cwd : Place) (a : Account) (s : Store) (w : World) : Prop where
  layout : s.layout = l
  footing : Footing l cwd w
  ordered : s.flags.Ordered
  recorded : Recorded l cwd w.files s.flags
  clock : w.clock.Valid
  moved : ∀ k, k ∈ a.moved ↔ l.held cwd w.files .previous k ≠ none
  journaled : Journaled l cwd w.files a.notes

theorem Audited.still (h : Audited l cwd a s w) (hl : s'.layout = l) (hflags : s'.flags = s.flags)
    (hf : Footing l cwd w') (hclock : w'.clock.Valid) (hstay : RecordsStay l cwd w.files w'.files)
    (hp : ∀ k, l.held cwd w'.files .previous k = l.held cwd w.files .previous k) :
    Audited l cwd a s' w' := by
  refine ⟨hl, hf, ?_, ?_, hclock, ?_, h.journaled.congr hstay.journal⟩
  · rw [hflags]
    exact h.ordered
  · rw [hflags]
    exact h.recorded.congr hstay.document
  · intro k
    rw [hp]
    exact h.moved k

theorem Audited.knows_eq (h : Audited l cwd a s w) (k : Key) :
    a.knows s w k = ((l.held cwd w.files .current k).isSome ||
      (l.held cwd w.files .previous k).isSome) := by
  have hmoved : decide (k ∈ a.moved) = (l.held cwd w.files .previous k).isSome := by
    rw [Bool.eq_iff_iff, decide_eq_true_iff, h.moved, Option.isSome_iff_ne_none]
  rw [Account.knows, values_eq h.layout h.footing, hmoved]

theorem Changed.documented {changed : Holdings} {r' : FlagRegistry}
    (hc : Changed v l cwd r k f changed fs fs' r' (.ok ())) (hr : Recorded l cwd fs r) :
    l.document cwd fs' ≠ none := by
  obtain ⟨-, -, ⟨hhas, hd⟩ | ⟨-, hd⟩⟩ := hc
  · rcases hr with hr | ⟨-, rfl⟩
    · rw [hd, hr]
      simp
    · rw [FlagRegistry.has_empty] at hhas
      cases hhas
  · rw [hd]
    simp

theorem Audited.done {c : Change} {changed : Holdings} {r' : FlagRegistry}
    (h : Audited l cwd a ⟨l, i, r⟩ w) (hf : Footing l cwd w') (hclock : w'.clock = w.clock)
    (hc : Changed .calm l cwd r c.key f changed w.files w'.files r' (.ok ()))
    (hflag : c.raised (a.knows ⟨l, i, r⟩ w c.key) = f)
    (hnoted : Noted .calm l cwd w.files w' [c.note f])
    (hmoved : ∀ j, changed .previous j ≠ none ↔ j ∈ (a.after ⟨l, i, r⟩ w (.change c)).moved) :
    r' = r.raised c.key (c.raised (a.knows ⟨l, i, r⟩ w c.key)) ∧
      Audited l cwd (a.after ⟨l, i, r⟩ w (.change c)) ⟨l, i, r'⟩ w' := by
  have hvalid : w'.clock.Valid := hclock ▸ h.clock
  have hjournaled := h.journaled.append hf (hc.documented h.recorded) hvalid
    (fun n hn => List.mem_singleton.mp hn ▸ Journal.legible_note c f) hnoted
  have hrecorded := hc.recorded h.recorded
  obtain ⟨rfl, hheld, -⟩ := hc
  rw [hflag]
  refine ⟨rfl, rfl, hf, h.ordered.raised, hrecorded, hvalid, fun j => ?_, ?_⟩
  · rw [hheld]
    exact (hmoved j).symm
  · rw [Account.after, hflag]
    exact hjournaled

theorem Audited.undone {changed : Holdings} {r' : FlagRegistry} {e : Failure}
    (h : Audited l cwd a ⟨l, i, r⟩ w) (hf : Footing l cwd w') (hclock : w'.clock = w.clock)
    (hc : Changed .calm l cwd r k f changed w.files w'.files r' (.error e)) :
    Audited l cwd a ⟨l, i, r'⟩ w' := by
  obtain ⟨rfl, hheld, hstay⟩ := hc.undone
  exact h.still rfl rfl hf (hclock ▸ h.clock) hstay fun k => by rw [hheld]

theorem Audited.moved_insert {c : Change} {changed : Holdings}
    (h : Audited l cwd a ⟨l, i, r⟩ w)
    (hkey : ∀ j, j ≠ c.key → changed .previous j = l.held cwd w.files .previous j)
    (hown : changed .previous c.key =
      if c.Moves ∧ l.held cwd w.files .current c.key ≠ none then l.held cwd w.files .current c.key
      else l.held cwd w.files .previous c.key) (j : Key) :
    changed .previous j ≠ none ↔ j ∈ (a.after ⟨l, i, r⟩ w (.change c)).moved := by
  rw [Account.after, values_eq rfl h.footing]
  by_cases hc : c.Moves ∧ l.held cwd w.files .current c.key ≠ none
  · rw [if_pos hc] at hown
    rw [if_pos hc, Finset.mem_insert, h.moved]
    by_cases hj : j = c.key
    · rw [hj, hown]
      exact iff_of_true hc.2 (.inl rfl)
    · rw [hkey j hj]
      exact (or_iff_right hj).symm
  · rw [if_neg hc] at hown
    rw [if_neg hc, h.moved]
    by_cases hj : j = c.key
    · rw [hj, hown]
    · rw [hkey j hj]

theorem Audited.writeBytes (h : Audited l cwd a ⟨l, i, r⟩ w) {c : Change} (b : Bytes)
    (hmoves : c.Moves) (hraised : ∀ known, c.raised known = if known then .modification else .addition)
    (hnote : ∀ f, c.note f = ⟨.write, some c.key, Store.flagDetails f⟩) :
    (Store.writeBytes c.key b).Ends .calm (fun o s' w' => match o with
      | .ok () => s'.flags = r.raised c.key (c.raised (a.knows ⟨l, i, r⟩ w c.key)) ∧
          Audited l cwd (a.after ⟨l, i, r⟩ w (.change c)) s' w'
      | .error _ => Audited l cwd a s' w') ⟨l, i, r⟩ w := by
  apply Action.ends_mono
    (Action.ends_and (writeBytes_ends h.footing c.key b) (Action.ends_clock _ _ w))
  rintro (e | ⟨⟩) s' w' ⟨⟨r', rfl, hf', hc, hnoted⟩, hclock⟩
  · exact h.undone hf' hclock hc
  · refine h.done hf' hclock hc ?_ ?_ (h.moved_insert (fun j hj => Holdings.written_key hj _) ?_)
    · rw [hraised, h.knows_eq, Holdings.writeFlag]
    · rw [hnote]
      exact hnoted rfl
    · rw [Holdings.written, Holdings.set_area (by decide)]
      by_cases hcurrent : l.held cwd w.files .current c.key = none
      · simp [hcurrent]
      · rw [if_pos (Option.isSome_iff_ne_none.mpr hcurrent), if_pos ⟨hmoves, hcurrent⟩,
          Holdings.displaced_previous]

theorem Audited.change (h : Audited l cwd a s w) (c : Change) :
    c.action.Ends .calm (fun o s' w' => match o with
      | .ok () => s'.flags = s.flags.raised c.key (c.raised (a.knows s w c.key)) ∧
          Audited l cwd (a.after s w (.change c)) s' w'
      | .error _ => Audited l cwd a s' w') s w := by
  obtain ⟨l', i, r⟩ := s
  obtain rfl : l' = l := h.layout
  have hf := h.footing
  cases c with
  | write k value =>
    cases value with
    | none => exact write_none_ends k h
    | some x =>
      exact write_some_ends k
        (h.writeBytes (c := .write k (some x)) _ trivial (fun _ => rfl) fun _ => rfl)
  | writeBytes k b =>
    exact h.writeBytes (c := .writeBytes k b) b trivial (fun _ => rfl) fun _ => rfl
  | delete k =>
    apply Action.ends_mono (Action.ends_and (delete_ends hf k) (Action.ends_clock _ _ w))
    rintro (e | ⟨⟩) s' w' ⟨⟨r', rfl, hf', hsome, hc, hnoted⟩, hclock⟩
    · exact h.undone hf' hclock hc
    · refine h.done (c := .delete k) hf' hclock hc rfl (hnoted rfl)
        (h.moved_insert (fun j hj => Holdings.displaced_key hj _) ?_)
      rw [if_pos ⟨trivial, hsome (.inl rfl)⟩]
      exact Holdings.displaced_previous
  | flag k f =>
    apply Action.ends_mono (Action.ends_and (flag_ends hf k f) (Action.ends_clock _ _ w))
    rintro (e | ⟨⟩) s' w' ⟨⟨r', rfl, hf', hc, hnoted⟩, hclock⟩
    · exact h.undone hf' hclock hc
    · refine h.done (c := .flag k f) hf' hclock hc rfl (hnoted rfl)
        (h.moved_insert (fun _ _ => rfl) ?_)
      rw [if_neg fun hm => hm.1]

theorem nodup_added (h : r.Ordered) : (Store.added ⟨l, i, r⟩).Nodup := by
  rw [Store.added, List.nodup_flatMap]
  refine ⟨fun kind _ => h.nodup_keysWith kind .addition, ?_⟩
  have hdisjoint : ∀ kind kind', kind ≠ kind' →
      List.Disjoint (r.keysWith kind .addition) (r.keysWith kind' .addition) := by
    intro kind kind' hne k hk hk'
    exact hne ((h.mem_keysWith.mp hk).1.symm.trans (h.mem_keysWith.mp hk').1)
  exact List.Pairwise.imp (hdisjoint _ _) (by decide : ArtifactKind.all.Pairwise (· ≠ ·))

theorem Audited.rollbackNote_eq (hu : FileName.Usable l.extension.toList)
    (h : Audited l cwd a ⟨l, i, r⟩ w) : rollbackNote l cwd w.files (Store.added ⟨l, i, r⟩) =
      ⟨.rollback, none, Store.rollbackDetails (r.flagged .addition).card (a.restored r).card⟩ := by
  have hadded : (Store.added ⟨l, i, r⟩).toFinset = r.flagged .addition := by
    ext k
    rw [List.mem_toFinset, mem_added h.ordered, FlagRegistry.mem_flagged h.ordered]
  have hrestored : ((l.listed cwd w.files .previous).filter
      fun k => !(Store.added ⟨l, i, r⟩).contains k).toFinset = a.restored r := by
    ext k
    have hnot : (!(Store.added ⟨l, i, r⟩).contains k) = true ↔ r.has k .addition = false := by
      rw [Bool.not_eq_true', ← Bool.not_eq_true, List.contains_iff_mem, mem_added h.ordered,
        Bool.not_eq_true]
    rw [List.mem_toFinset, List.mem_filter, h.footing.sound.mem_listed, hnot, Account.restored,
      Finset.mem_filter, h.moved, and_iff_left (listable_of_usable hu k)]
  have hlisted := (h.footing.sound.listed_nodup .previous).filter
    fun k => !(Store.added ⟨l, i, r⟩).contains k
  rw [rollbackNote, ← List.toFinset_card_of_nodup (nodup_added h.ordered), hadded,
    ← List.toFinset_card_of_nodup hlisted, hrestored]

theorem not_mem_empty_iff {b : Area} (he : Emptied l cwd b fs) (k : Key) :
    k ∈ (∅ : Finset Key) ↔ l.held cwd fs b k ≠ none :=
  iff_of_false (Finset.notMem_empty k) fun hn => hn (he.held k)

theorem Audited.call (hu : FileName.Usable l.extension.toList) (h : Audited l cwd a s w)
    (c : Call) : c.action.Ends .calm (fun o s' w' => match o with
      | .ok () => (c = .rollback → a.Counts s.flags) → Audited l cwd (a.after s w c) s' w'
      | .error _ => Audited l cwd a s' w') s w := by
  obtain ⟨l', i, r⟩ := s
  obtain rfl : l' = l := h.layout
  have hf := h.footing
  cases c with
  | change c =>
    apply Action.ends_mono (h.change c)
    rintro (e | ⟨⟩) s' w' ho
    · exact ho
    · exact fun _ => ho.2
  | clearHistory =>
    apply Action.ends_mono (Action.ends_and (clearHistory_ends hf) (Action.ends_clock _ _ w))
    rintro (e | ⟨⟩) s' w' ⟨⟨r', rfl, hf', hc, hnoted⟩, hclock⟩
    · exact absurd hc.1 Weather.not_rough_calm
    · obtain ⟨rfl, -, he, -, hd⟩ := hc
      have hvalid : w'.clock.Valid := hclock ▸ h.clock
      refine fun _ =>
        ⟨rfl, hf', FlagRegistry.ordered_empty, .inl hd, hvalid, not_mem_empty_iff he, ?_⟩
      exact h.journaled.append hf' (by simp [hd]) hvalid (by simp [Journal.legible_noDetails])
        (hnoted rfl)
  | rollback =>
    apply Action.ends_mono
      (Action.ends_and (rollback_ends hf h.ordered) (Action.ends_clock _ _ w))
    rintro (e | ⟨⟩) s' w' ⟨⟨r', rfl, hf', hends⟩, hclock⟩
    · obtain ⟨rfl, hstay, hp⟩ := hends.still Weather.not_rough_calm
      exact h.still rfl rfl hf' (hclock ▸ h.clock) hstay hp
    · obtain rfl := hends.flags
      have hd := hends.document
      have hvalid : w'.clock.Valid := hclock ▸ h.clock
      have hnotes := hends.noted
      rw [h.rollbackNote_eq hu] at hnotes
      refine fun hcounts =>
        ⟨rfl, hf', FlagRegistry.ordered_empty, .inl hd, hvalid, not_mem_empty_iff hends.previous, ?_⟩
      refine h.journaled.append hf' (by simp [hd]) hvalid ?_ hnotes
      intro n hn
      simp only [List.mem_cons, List.not_mem_nil, or_false] at hn
      rcases hn with rfl | rfl
      · exact Journal.legible_rollbackDetails (hcounts rfl).1 (hcounts rfl).2
      · exact Journal.legible_noDetails

theorem Audited.reopen (h : Audited l cwd a s w) :
    (Store.openAt l i).Ends v (fun o w' => ∀ s', o = .ok s' → Audited l cwd a s' w') w := by
  apply Task.ends_mono
    (Task.ends_and (openAt_ends h.footing h.recorded h.ordered) (Task.ends_clock _ w))
  rintro o w' ⟨⟨hf', hheld, hstay, ho, -⟩, hclock⟩ s' hs
  obtain rfl := ho s' hs
  exact h.still rfl rfl hf' (hclock ▸ h.clock) hstay fun k => by rw [hheld]

theorem Audited.opened (hw : w.place = cwd) (hv : l.Vacant cwd w.files) (hclock : w.clock.Valid)
    (hu : FileName.Usable l.extension.toList) :
    (Store.openAt l i).Ends v (fun o w' => ∀ s, o = .ok s → Audited l cwd .opened s w') w := by
  apply Task.ends_mono (Task.ends_and (openAt_vacant_ends hw hv hu.storable) (Task.ends_clock _ w))
  rintro o w' ⟨h, hsame⟩ s hs
  obtain ⟨rfl, hf', he, hd, hj⟩ := h s hs
  exact ⟨rfl, hf', FlagRegistry.ordered_empty, .inr ⟨hd, rfl⟩, hsame ▸ hclock,
    not_mem_empty_iff (he _), [], rfl, by simp, .inl ⟨hj, rfl⟩⟩

theorem audited_of_accounted (hu : FileName.Usable l.extension.toList)
    (h : Accounted l cwd a s w) : Audited l cwd a s w := by
  induction h with
  | @opened i s w w' hw hv hclock hrun =>
    have hends := Script.run_of_ends (Audited.opened (i := i) hw hv hclock hu) rough_any
    rw [hrun] at hends
    exact hends s rfl
  | @passed a s w w' _ hfiles hplace hclock ih =>
    refine ih.still ih.layout rfl ⟨hplace.trans ih.footing.place, hfiles ▸ ih.footing.sound⟩
      hclock ?_ fun k => by rw [hfiles]
    rw [hfiles]
    exact .refl _
  | @called a s s' w w' _ c hcounts hroom hrun ih =>
    have hends := Script.run_of_roomy (ih.call hu c) hroom
    rw [hrun] at hends
    exact hends hcounts
  | @failed a s s' w w' _ c e hroom hrun ih =>
    have hends := Script.run_of_roomy (ih.call hu c) hroom
    rw [hrun] at hends
    exact hends
  | @reopened a s s' w w' _ i hrun ih =>
    have hends := Script.run_of_ends (ih.reopen (i := i)) rough_any
    rw [hrun] at hends
    exact hends s' rfl

/-- Every call that succeeds is in the journal, in the order of the calls, and nothing else is; a
change raises the flag that is noted of it. -/
theorem journal_accounts (hu : FileName.Usable l.extension.toList) (h : Accounted l cwd a s w) :
    (∃ es, (Journal.read l.journalPath).run.run w = (.ok es, w) ∧ es.map (·.note) = a.notes) ∧
      ∀ (c : Change) (s' : Store) (w' : World), (c.action.on s).roomy w = true →
        (c.action.on s).run w = ((.ok (), s'), w') →
          s'.flags = s.flags.raised c.key (c.raised (a.knows s w c.key)) := by
  have haudited := audited_of_accounted hu h
  refine ⟨haudited.journaled.read haudited.footing, fun c s' w' hroom hrun => ?_⟩
  have hends := Script.run_of_roomy (haudited.change c) hroom
  rw [hrun] at hends
  exact hends.1

def recount (a : Account) (s : Store) (w : World) (c : Call) : Option Account :=
  if a.Counts s.flags then some (a.after s w c) else none

theorem accounted_of_recount {a' : Account} {cs : List Call} (h : Accounted l cwd a s w)
    (hcs : Store.makeCalls recount cs a s w = some (a', s', w')) : Accounted l cwd a' s' w' := by
  refine Store.makeCalls_induction (fun {a a' s s' w w'} c h hnote hroom hrun => ?_) h hcs
  rw [recount] at hnote
  split at hnote
  next hcounts =>
    cases hnote
    exact h.called c (fun _ => hcounts) hroom hrun
  next => cases hnote

def recountFrom (extension : String) (cs : List Call) : Option (Account × Store × World) :=
  match (Store.openAt ⟨"/s", extension⟩ true).run.run emptyWorld with
  | (.ok s, w) => Store.makeCalls recount cs .opened s w
  | (.error _, _) => none

theorem valid_default : (default : Instant).Valid := ⟨by decide, by decide⟩

theorem accounted_of_recountFrom {extension : String} (cs : List Call)
    {P : Account × Store × World → Bool} (h : (recountFrom extension cs).any P = true) :
    ∃ a s w, Accounted ⟨"/s", extension⟩ [] a s w ∧ P (a, s, w) = true := by
  obtain ⟨⟨a, s, w⟩, hcs, hP⟩ := (Option.any_eq_true _ _).mp h
  refine ⟨a, s, w, ?_, hP⟩
  unfold recountFrom at hcs
  generalize hrun : (Store.openAt ⟨"/s", extension⟩ true).run.run emptyWorld = p at hcs
  obtain ⟨o, w₀⟩ := p
  cases o with
  | error e => cases hcs
  | ok s₀ =>
    have hv : Vacant ⟨"/s", extension⟩ [] emptyWorld.files := vacant_emptyWorld rfl
    have hcs : Store.makeCalls recount cs .opened s₀ w₀ = some (a, s, w) := hcs
    have hopened : Accounted ⟨"/s", extension⟩ [] .opened s₀ w₀ :=
      .opened (w := emptyWorld) rfl hv valid_default hrun
    exact accounted_of_recount hopened hcs

set_option maxRecDepth 100000 in
theorem journal_accounts_after_rollback : ∃ a s w, Accounted smallLayout [] a s w ∧
    a.notes.length = 3 ∧
    (∃ es, (Journal.read smallLayout.journalPath).run.run w = (.ok es, w) ∧
      es.map (·.note) = a.notes) ∧
    ∀ (c : Change) (s' : Store) (w' : World), (c.action.on s).roomy w = true →
      (c.action.on s).run w = ((.ok (), s'), w') →
        s'.flags = s.flags.raised c.key (c.raised (a.knows s w c.key)) := by
  have hcalls : (recountFrom "c" [.change (.writeBytes (.code "a") [1]), .rollback]).any
      (fun p => p.1.notes.length = 3) = true := by decide +kernel
  obtain ⟨a, s, w, haccounted, hlength⟩ := accounted_of_recountFrom _ hcalls
  have haccounts := journal_accounts usable_smallLayout haccounted
  exact ⟨a, s, w, haccounted, of_decide_eq_true hlength, haccounts⟩

/-- The journal of a store of the layout is not read as an account tells of the store. -/
def Misaccounted (l : Layout) : Prop :=
  ∃ a s w, Accounted l [] a s w ∧ ∀ es w',
    (Journal.read l.journalPath).run.run w = (.ok es, w') → es.map (·.note) ≠ a.notes

def unlistedJournal : List Journal.Entry :=
  [⟨default, .write, some (.code ".x"), Store.flagDetails .addition⟩,
    ⟨default, .clearHistory, none, Store.noDetails⟩,
    ⟨default, .delete, some (.code ".x"), Store.noDetails⟩,
    ⟨default, .rollback, none, Store.rollbackDetails 0 0⟩,
    ⟨default, .clearHistory, none, Store.noDetails⟩]

theorem legible_unlistedJournal :
    ∀ e ∈ unlistedJournal, e.time.Valid ∧ Journal.Legible e.details := by
  intro e he
  simp only [unlistedJournal, List.mem_cons, List.not_mem_nil, or_false] at he
  rcases he with rfl | rfl | rfl | rfl | rfl
  · exact ⟨valid_default, Journal.legible_flagDetails _⟩
  · exact ⟨valid_default, Journal.legible_noDetails⟩
  · exact ⟨valid_default, Journal.legible_noDetails⟩
  · exact ⟨valid_default, Journal.legible_rollbackDetails (by decide) (by decide)⟩
  · exact ⟨valid_default, Journal.legible_noDetails⟩

set_option maxRecDepth 100000 in
/-- An artifact with the name of a staged file is not listed, so that a rollback does not count
it. -/
theorem misaccounted_unlisted : Misaccounted ⟨"/s", "tmp"⟩ := by
  have hcalls : (recountFrom "tmp" [.change (.writeBytes (.code ".x") [1]), .clearHistory,
      .change (.delete (.code ".x")), .rollback]).any (fun p =>
        p.2.2.files.pathExists p.2.2.place "/s/journal.ndjson" &&
        decide ((p.2.2.files.readFile p.2.2.place "/s/journal.ndjson").toOption =
          some (unlistedJournal.flatMap fun e => Utf8.encode e.line ++ Utf8.encode "\n")) &&
        decide (p.1.notes.map (·.details.compact) ≠ unlistedJournal.map (·.details.compact))) =
          true := by
    decide +kernel
  obtain ⟨a, s, w, haccounted, hP⟩ := accounted_of_recountFrom _ hcalls
  simp only [Bool.and_eq_true, decide_eq_true_eq, and_assoc] at hP
  obtain ⟨hexists, hread, hdetails⟩ := hP
  refine ⟨a, s, w, haccounted, fun es w' hes hnotes => hdetails ?_⟩
  have hbytes : w.files.readFile w.place "/s/journal.ndjson" =
      .ok (Utf8.encode (Journal.text unlistedJournal)) := by
    rw [← Journal.encode_text] at hread
    cases hfile : w.files.readFile w.place "/s/journal.ndjson" with
    | error e =>
      rw [hfile] at hread
      cases hread
    | ok b =>
      rw [hfile] at hread
      exact congrArg Except.ok (Option.some.inj hread)
  have hjournal := Journal.read_run hexists hbytes legible_unlistedJournal
  cases hjournal.symm.trans hes
  rw [← hnotes, List.map_map]
  rfl

set_option maxRecDepth 100000 in
/-- An artifact that is stored in the place of the journal is no journal. -/
theorem misaccounted_overwritten : Misaccounted ⟨"/s", "/../../../journal.ndjson"⟩ := by
  have hcalls : (recountFrom "/../../../journal.ndjson"
      [.change (.writeBytes (.code "x") [0xff])]).any (fun p =>
        ((Journal.read "/s/journal.ndjson").run.run p.2.2).1.toOption.isNone) = true := by
    decide +kernel
  obtain ⟨a, s, w, haccounted, hP⟩ := accounted_of_recountFrom _ hcalls
  refine ⟨a, s, w, haccounted, fun es w' hes => ?_⟩
  have hnone : ((Journal.read "/s/journal.ndjson").run.run w).1.toOption.isNone = true := hP
  rw [show (Journal.read "/s/journal.ndjson").run.run w = (.ok es, w') from hes] at hnone
  cases hnone

/-- With such extensions, which do not end in `.tmp` either, a journal does not tell what has
happened. -/
theorem journal_needs_extension :
    (∀ front, "tmp".toList ≠ front ++ ".tmp".toList) ∧ Misaccounted ⟨"/s", "tmp"⟩ ∧
    (∀ front, "/../../../journal.ndjson".toList ≠ front ++ ".tmp".toList) ∧
      Misaccounted ⟨"/s", "/../../../journal.ndjson"⟩ := by
  refine ⟨fun front h => ?_, misaccounted_unlisted, fun front h => ?_, misaccounted_overwritten⟩
  · have := congrArg List.length h
    simp at this
  · have := congrArg List.getLast? h
    simp at this

end Layout

end SourceDelta
