import SourceDelta.Proofs.Refusals
import SourceDelta.Proofs.Runs

/-!
# One artifact at a time

What a store keeps of one artifact is its shelf: the value in each area and the
flags. A step of a store is a change of one artifact or a step that all artifacts
take. What a step does to a shelf depends on that shelf and on nothing else, and
a change leaves the shelves of the other artifacts alone. So a shelf is at any
time what the steps have made of it that concern its artifact.
-/

set_option autoImplicit false

namespace SourceDelta

namespace Store

inductive Step
  | change (c : Change)
  | clearHistory
  | rollback
  | reopen (indented : Bool)

namespace Step

def concerns (k : Key) : Step → Bool
  | change c => c.key = k
  | clearHistory | rollback | reopen _ => true

def finished {α : Type} (a : Script (Except Failure α × Store)) (w : World) :
    Option (Store × World) :=
  match a.run w with
  | ((.ok _, s), w) => some (s, w)
  | ((.error _, _), _) => none

/-- Takes the step, if the system refuses nothing that it asks for. A change may still come to
nothing, as the deletion of a missing value does. -/
def take : Step → Store → World → Option (Store × World)
  | change c, s, w =>
    match (c.action.on s).run w with
    | ((.ok _, s), w) => some (s, w)
    | ((.error e, s), w) => if e.refused then none else some (s, w)
  | clearHistory, s, w => finished (Store.clearHistory.on s) w
  | rollback, s, w => finished (Store.rollback.on s) w
  | reopen i, s, w =>
    match (openAt s.layout i).run.run w with
    | (.ok s, w) => some (s, w)
    | (.error _, _) => none

theorem take_change_eq_some {c : Change} {s s' : Store} {w w' : World} :
    (change c).take s w = some (s', w') ↔ ∃ o, (c.action.on s).run w = ((o, s'), w') ∧
      ∀ e, o = .error e → e.refused = false := by
  rw [take]
  generalize (c.action.on s).run w = p
  obtain ⟨⟨o, s₁⟩, w₁⟩ := p
  cases o with
  | ok u => simp
  | error e => cases hr : e.refused <;> simp [hr]

end Step

def perform : List Step → Store → World → Option (Store × World)
  | [], s, w => some (s, w)
  | t :: ts, s, w => (t.take s w).bind fun (s, w) => perform ts s w

/-- What a store keeps of one artifact, and how it writes values. -/
structure Shelf where
  current : Option Bytes
  previous : Option Bytes
  baseline : Option Bytes
  flags : FlagSet
  indented : Bool

namespace Shelf

def raised (h : Shelf) (f : Flag) : Shelf := { h with flags := h.flags.insert f }

def displaced (h : Shelf) : Shelf :=
  { h with
    current := none
    previous := h.current
    baseline :=
      if h.previous.isSome && h.baseline.isNone && !h.flags.contains .addition then h.previous
      else h.baseline }

def written (h : Shelf) (x : Bytes) : Shelf :=
  { (if h.current.isSome then h.displaced else h) with current := some x }.raised
    (if h.current.isSome || h.previous.isSome then .modification else .addition)

def deleted (h : Shelf) : Shelf := if h.current.isSome then h.displaced.raised .deletion else h

def recovered (h : Shelf) : Option Bytes :=
  if h.flags.contains .addition then none
  else if h.previous = none then h.current
  else h.baseline.or h.previous

def retained (h : Shelf) : Option Bytes := if h.flags.contains .addition then none else h.current

def started (h : Shelf) (x : Option Bytes) : Shelf := ⟨x, none, none, .empty, h.indented⟩

def encoded (h : Shelf) (value : Json) : Bytes :=
  Utf8.encode (if h.indented then value.canonical.indented else value.canonical.compact)

/-- What a step makes of the shelf of an artifact that it concerns. An artifact that can have no
file is never stored. -/
def after (hasFile : Bool) (h : Shelf) : Step → Shelf
  | .change (.write _ none) => h
  | .change (.write _ (some value)) => if hasFile then h.written (h.encoded value) else h
  | .change (.writeBytes _ x) => if hasFile then h.written x else h
  | .change (.delete _) => h.deleted
  | .change (.flag _ f) => h.raised f
  | .clearHistory => h.started h.current
  | .rollback => h.started h.recovered
  | .reopen i => { h with indented := i }

/-- The change can be made: what it stores can be put into JSON and has a file, and what it deletes is
there. -/
def allows (hasFile : Bool) (h : Shelf) : Change → Bool
  | .write _ none => false
  | .write _ (some _) | .writeBytes _ _ => hasFile
  | .delete _ => h.current.isSome
  | .flag _ _ => true

end Shelf

end Store

theorem FlagSet.insert_of_contains {s : FlagSet} {f : Flag} (h : s.contains f = true) :
    s.insert f = s := by
  obtain ⟨a, b, c, d, e⟩ := s
  cases f <;> simp_all [FlagSet.insert, FlagSet.contains]

theorem FlagRegistry.get_raised {r : FlagRegistry} {j k : Key} {f : Flag} :
    (r.raised k f).get j = if j = k then (r.get k).insert f else r.get j := by
  rw [FlagRegistry.raised]
  split
  next h =>
    split
    next hj => rw [hj, FlagSet.insert_of_contains h]
    next => rfl
  next => rw [FlagRegistry.insert, FlagRegistry.get_put]

theorem Failure.refused_of_directory? {e : Failure} {d : String} (h : e.directory? = some d) :
    e.refused = true := by
  cases e <;> first | rfl | cases h

namespace Holdings
open SourceDelta.Store (Shelf)

variable {v v' : Holdings} {g : FlagSet} {i added : Bool} {j k : Key}

def shelf (v : Holdings) (g : FlagSet) (i : Bool) (k : Key) : Shelf :=
  ⟨v .current k, v .previous k, v .baseline k, g, i⟩

theorem shelf_congr (h : ∀ a, v' a k = v a k) : v'.shelf g i k = v.shelf g i k := by
  rw [shelf, shelf, h, h, h]

theorem displaced_shelf (hg : g.contains .addition = added) :
    (v.displaced k added).shelf g i k = (v.shelf g i k).displaced := by
  rw [shelf, displaced_current, displaced_previous, displaced_baseline, baselines, ← hg]
  rfl

theorem written_shelf (x : Bytes) (hg : g.contains .addition = added) :
    (v.written k added x).shelf (g.insert (v.writeFlag k)) i k = (v.shelf g i k).written x := by
  have hset : ∀ u : Holdings, (u.set .current k (some x)).shelf (g.insert (v.writeFlag k)) i k =
      { u.shelf g i k with current := some x }.raised (v.writeFlag k) := by
    intro u
    rw [shelf, set_self, set_area (by decide), set_area (by decide)]
    rfl
  rw [written, hset, Shelf.written, writeFlag]
  by_cases hc : (v .current k).isSome = true
  · rw [if_pos hc, displaced_shelf hg, show (v.shelf g i k).current = v .current k from rfl,
      if_pos hc]
    rfl
  · rw [if_neg hc, show (v.shelf g i k).current = v .current k from rfl, if_neg hc]
    rfl

end Holdings

namespace Layout
open SourceDelta.Store (Action Change Step Shelf perform)

variable {l : Layout} {cwd : Place} {fs fs' : FileSystem} {w w' : World} {s s' : Store} {j k : Key}
  {v : Weather} {i : Bool} {r r' : FlagRegistry} {f : Flag} {o : Except Failure Unit}

def shelf (l : Layout) (cwd : Place) (s : Store) (w : World) (k : Key) : Shelf :=
  (l.held cwd w.files).shelf (s.flags.get k) s.indented k

def hasFile (l : Layout) (k : Key) : Bool := l.fileName k ≠ ".."

/-- Nothing is pending: the flags are those of the document, and displaced code has its directory. -/
structure Settled (l : Layout) (cwd : Place) (s : Store) (w : World) : Prop where
  layout : s.layout = l
  footing : Footing l cwd w
  ordered : s.flags.Ordered
  recorded : Recorded l cwd w.files s.flags
  previous : HasPrevious l cwd w

structure Leads (l : Layout) (cwd : Place) (k : Key) (h : Shelf) (s : Store) (w : World)
    (s' : Store) (w' : World) : Prop where
  settled : Settled l cwd s' w'
  changed : l.shelf cwd s' w' k = h
  other : ∀ j, j ≠ k → l.shelf cwd s' w' j = l.shelf cwd s w j

theorem Changed.idle {changed : Holdings} {e : Failure}
    (hc : Changed v l cwd r k f changed fs fs' r' (.error e)) (he : e.refused = false)
    (hk : l.held cwd fs .current k = none) :
    r' = r ∧ l.held cwd fs' = l.held cwd fs ∧ RecordsStay l cwd fs fs' := by
  obtain ⟨hd, hfailed⟩ := hc
  cases hfailed with
  | untouched _ _ _ hheld => exact ⟨rfl, hheld, hd⟩
  | displacing _ _ hcurrent => exact absurd hk hcurrent
  | committing => cases he
  | saving _ _ hu =>
    rw [Failure.refused_of_directory? hu] at he
    cases he

theorem Settled.idle {changed : Holdings} {e : Failure} (hs : Settled l cwd ⟨l, i, r⟩ w)
    (hf : Footing l cwd w') (hp : HasPrevious l cwd w')
    (hc : Changed v l cwd r k f changed w.files w'.files r' (.error e)) (he : e.refused = false)
    (hk : l.held cwd w.files .current k = none) :
    Leads l cwd k (l.shelf cwd ⟨l, i, r⟩ w k) ⟨l, i, r⟩ w ⟨l, i, r'⟩ w' := by
  obtain ⟨rfl, hheld, hd⟩ := hc.idle he hk
  have hsame : ∀ j, l.shelf cwd ⟨l, i, r'⟩ w' j = l.shelf cwd ⟨l, i, r'⟩ w j :=
    fun j => Holdings.shelf_congr fun a => by rw [hheld]
  exact ⟨⟨rfl, hf, hs.ordered, hs.recorded.congr hd.document, hp⟩, hsame k, fun j _ => hsame j⟩

theorem Settled.changed {changed : Holdings} {h : Shelf} (hs : Settled l cwd ⟨l, i, r⟩ w)
    (hf : Footing l cwd w') (hp : HasPrevious l cwd w')
    (hc : Changed v l cwd r k f changed w.files w'.files r' (.ok ()))
    (hk : changed.shelf ((r.get k).insert f) i k = h)
    (hother : ∀ j a, j ≠ k → changed a j = l.held cwd w.files a j) :
    Leads l cwd k h ⟨l, i, r⟩ w ⟨l, i, r'⟩ w' := by
  have hrecorded := hc.recorded hs.recorded
  obtain ⟨rfl, hheld, -⟩ := hc
  refine ⟨⟨rfl, hf, hs.ordered.raised, hrecorded, hp⟩, ?_, fun j hj => ?_⟩
  · rw [shelf, hheld, FlagRegistry.get_raised, if_pos rfl, hk]
  · rw [shelf, hheld, FlagRegistry.get_raised, if_neg hj]
    exact Holdings.shelf_congr fun a => hother j a hj

variable (hu : FileName.Storable l.extension.toList)

include hu in
theorem Settled.writeBytes {x : Bytes} (hs : Settled l cwd ⟨l, i, r⟩ w)
    (hrun : ((Store.writeBytes k x).on ⟨l, i, r⟩).run w = ((o, s'), w'))
    (ho : ∀ e, o = .error e → e.refused = false) :
    Leads l cwd k (if l.hasFile k then (l.shelf cwd ⟨l, i, r⟩ w k).written x
      else l.shelf cwd ⟨l, i, r⟩ w k) ⟨l, i, r⟩ w s' w' ∧ (o = .ok () ↔ l.hasFile k = true) := by
  have hends := Script.run_of_ends (Action.ends_and
    (writeBytes_ends (v := .any) (i := i) (r := r) hs.footing k x)
    (steady_writeBytes hu k x ⟨l, i, r⟩ w rfl hs.footing.place hs.previous)) rough_any
  rw [hrun] at hends
  obtain ⟨⟨r', rfl, hf', hc, -⟩, -, hp', hsteady⟩ := hends
  cases o with
  | error e =>
    have he := ho e rfl
    have hn : l.fileName k = ".." := hsteady.resolve_left (by simp [he])
    rw [hasFile, hn]
    exact ⟨hs.idle hf' hp' hc he (hs.footing.sound.held_nameless hn), by simp⟩
  | ok u =>
    have hstored : l.held cwd w'.files .current k = some x := by
      rw [hc.2.1, Holdings.written, Holdings.set_self]
    have hn : l.hasFile k = true := by
      rw [hasFile, decide_eq_true_eq]
      exact (hf'.sound.holdable_of_held (a := .current) (by simp [hstored])).name.ne_dots
    rw [if_pos hn]
    exact ⟨hs.changed hf' hp' hc (Holdings.written_shelf x rfl)
      fun j a hj => Holdings.written_key hj a, iff_of_true rfl hn⟩

include hu in
theorem Settled.delete (hs : Settled l cwd ⟨l, i, r⟩ w)
    (hrun : ((Store.delete k).on ⟨l, i, r⟩).run w = ((o, s'), w'))
    (ho : ∀ e, o = .error e → e.refused = false) :
    Leads l cwd k (l.shelf cwd ⟨l, i, r⟩ w k).deleted ⟨l, i, r⟩ w s' w' ∧
      (o = .ok () ↔ (l.shelf cwd ⟨l, i, r⟩ w k).current.isSome = true) := by
  have hnameless : l.fileName k = ".." → l.held cwd w.files .current k = none :=
    hs.footing.sound.held_nameless
  have hmissing : w.files.pathExists cwd (l.artifactPath .current k) = false →
      l.held cwd w.files .current k = none := by
    intro h
    by_cases hn : l.fileName k = ".."
    · exact hnameless hn
    · rw [hs.footing.sound.pathExists hn] at h
      simpa using h
  have hends := Script.run_of_ends (Action.ends_and
    (delete_ends (v := .any) (i := i) (r := r) hs.footing k)
    (steady_delete hu rfl hs.footing.place hs.previous hnameless hmissing)) rough_any
  rw [hrun] at hends
  obtain ⟨⟨r', rfl, hf', hsome, hc, -⟩, hp', hsteady⟩ := hends
  have hcurrent : (l.shelf cwd ⟨l, i, r⟩ w k).current = l.held cwd w.files .current k := rfl
  cases o with
  | error e =>
    have he := ho e rfl
    have hk := (hsteady e rfl).resolve_left (by simp [he])
    rw [Shelf.deleted, hcurrent, hk]
    exact ⟨hs.idle hf' hp' hc he hk, by simp⟩
  | ok u =>
    have hk := Option.isSome_iff_ne_none.mpr (hsome (.inl rfl))
    rw [Shelf.deleted, hcurrent, if_pos hk]
    refine ⟨hs.changed hf' hp' hc ?_ fun j a hj => Holdings.displaced_key hj a, iff_of_true rfl hk⟩
    rw [shelf, ← Holdings.displaced_shelf rfl]
    rfl

theorem Settled.flag (hs : Settled l cwd ⟨l, i, r⟩ w)
    (hrun : ((Store.flag k f).on ⟨l, i, r⟩).run w = ((o, s'), w'))
    (ho : ∀ e, o = .error e → e.refused = false) :
    Leads l cwd k ((l.shelf cwd ⟨l, i, r⟩ w k).raised f) ⟨l, i, r⟩ w s' w' ∧ o = .ok () := by
  have hends := Script.run_of_ends (Action.ends_and
    (flag_ends (v := .any) (i := i) (r := r) hs.footing k f)
    (steady_flag (X := False) k f ⟨l, i, r⟩ w rfl hs.footing.place hs.previous)) rough_any
  rw [hrun] at hends
  obtain ⟨⟨r', rfl, hf', hc, -⟩, -, hp', hsteady⟩ := hends
  cases o with
  | error e => exact absurd (hsteady.resolve_right id) (by simp [ho e rfl])
  | ok u => exact ⟨hs.changed hf' hp' hc rfl fun _ _ _ => rfl, rfl⟩

theorem Settled.write_none (hs : Settled l cwd ⟨l, i, r⟩ w)
    (hrun : ((Store.write k none).on ⟨l, i, r⟩).run w = ((o, s'), w')) :
    Leads l cwd k (l.shelf cwd ⟨l, i, r⟩ w k) ⟨l, i, r⟩ w s' w' ∧ o ≠ .ok () := by
  cases hrun
  exact ⟨⟨hs, rfl, fun _ _ => rfl⟩, nofun⟩

theorem on_get_bind {α : Type} (next : Store → Action α) (s : Store) :
    (get >>= next : Action α).on s = (next s).on s := rfl

theorem write_some (k : Key) (value : Json) (s : Store) :
    (Store.write k (some value)).on s = (Store.writeBytes k (s.encode value.canonical)).on s :=
  on_get_bind _ s

include hu in
theorem Settled.change (hs : Settled l cwd ⟨l, i, r⟩ w) (c : Change)
    (hrun : (c.action.on ⟨l, i, r⟩).run w = ((o, s'), w'))
    (ho : ∀ e, o = .error e → e.refused = false) :
    Leads l cwd c.key ((l.shelf cwd ⟨l, i, r⟩ w c.key).after (l.hasFile c.key) (.change c))
        ⟨l, i, r⟩ w s' w' ∧
      (o = .ok () ↔ (l.shelf cwd ⟨l, i, r⟩ w c.key).allows (l.hasFile c.key) c = true) := by
  cases c with
  | write k value =>
    cases value with
    | none =>
      obtain ⟨hleads, ho⟩ := hs.write_none hrun
      exact ⟨hleads, iff_of_false ho Bool.false_ne_true⟩
    | some value =>
      dsimp only [Change.action] at hrun
      rw [write_some] at hrun
      exact hs.writeBytes hu hrun ho
  | writeBytes k x =>
    dsimp only [Change.action] at hrun
    exact hs.writeBytes hu hrun ho
  | delete k =>
    dsimp only [Change.action] at hrun
    exact hs.delete hu hrun ho
  | flag k f =>
    dsimp only [Change.action] at hrun
    obtain ⟨hleads, ho⟩ := hs.flag hrun ho
    exact ⟨hleads, iff_of_true ho rfl⟩

structure Turns (l : Layout) (cwd : Place) (h : Key → Shelf) (s' : Store) (w' : World) : Prop where
  settled : Settled l cwd s' w'
  shelves : ∀ k, l.shelf cwd s' w' k = h k

theorem finished_eq_some {α : Type} {a : Script (Except Failure α × Store)}
    (h : Step.finished a w = some (s', w')) : ∃ x, a.run w = ((.ok x, s'), w') := by
  rw [Step.finished] at h
  split at h
  next x s w hrun =>
    cases h
    exact ⟨x, hrun⟩
  next => cases h

theorem Settled.clearHistory (hs : Settled l cwd ⟨l, i, r⟩ w)
    (h : Step.finished (Store.clearHistory.on ⟨l, i, r⟩) w = some (s', w')) :
    Turns l cwd (fun k => (l.shelf cwd ⟨l, i, r⟩ w k).after (l.hasFile k) .clearHistory) s' w' := by
  obtain ⟨x, hrun⟩ := finished_eq_some h
  have hends := Script.run_of_ends (Action.ends_and
    (clearHistory_ends (v := .any) (i := i) (r := r) hs.footing)
    (clearHistory_hasPrevious rfl hs.footing.place)) rough_any
  rw [hrun] at hends
  obtain ⟨⟨r', rfl, hf', ⟨rfl, hheld, -, -, hd⟩, -⟩, hp'⟩ := hends
  refine ⟨⟨rfl, hf', FlagRegistry.ordered_empty, .inl hd, hp' rfl⟩, fun k => ?_⟩
  rw [shelf, hheld]
  rfl

theorem rough_honest : Weather.honest.Rough := ⟨.busy, nofun⟩

theorem Settled.rolledBack (hs : Settled l cwd ⟨l, i, r⟩ w)
    (h : Step.finished (Store.rollback.on ⟨l, i, r⟩) w = some (s', w')) :
    Settled l cwd s' w' ∧ ∃ x : Key → Option Bytes,
      (∀ k, l.shelf cwd s' w' k = (l.shelf cwd ⟨l, i, r⟩ w k).started (x k)) ∧
      (∀ k, l.Listable k → x k = (l.shelf cwd ⟨l, i, r⟩ w k).recovered) ∧
      ∀ k, ¬ l.Listable k → x k = (l.shelf cwd ⟨l, i, r⟩ w k).retained := by
  obtain ⟨x, hrun⟩ := finished_eq_some h
  have hends := Script.run_of_ends (Action.ends_and
    (rollback_ends (v := .honest) (i := i) (r := r) hs.footing hs.ordered)
    (rollback_hasPrevious rfl hs.footing.place)) rough_honest
  rw [hrun] at hends
  obtain ⟨⟨r', rfl, hf', hdone⟩, hp'⟩ := hends
  obtain rfl := hdone.flags
  refine ⟨⟨rfl, hf', FlagRegistry.ordered_empty, .inl hdone.document, hp' rfl⟩,
    l.held cwd w'.files .current, fun k => ?_, hdone.listed fun h => h rfl,
    hdone.unlisted fun h => h rfl⟩
  rw [shelf, Holdings.shelf, hdone.previous.held, hdone.baseline.held]
  rfl

theorem Settled.rollback (hlist : ∀ k, l.Listable k) (hs : Settled l cwd ⟨l, i, r⟩ w)
    (h : Step.finished (Store.rollback.on ⟨l, i, r⟩) w = some (s', w')) :
    Turns l cwd (fun k => (l.shelf cwd ⟨l, i, r⟩ w k).after (l.hasFile k) .rollback) s' w' := by
  obtain ⟨hs', x, hshelf, hx, -⟩ := hs.rolledBack h
  exact ⟨hs', fun k => by rw [hshelf, hx k (hlist k), Shelf.after]⟩

theorem Settled.reopen {i' : Bool} (hs : Settled l cwd ⟨l, i, r⟩ w)
    (hrun : (Store.openAt l i').run.run w = (.ok s', w')) :
    Turns l cwd (fun k => (l.shelf cwd ⟨l, i, r⟩ w k).after (l.hasFile k) (.reopen i')) s' w' := by
  have hends := Script.run_of_ends (Task.ends_and
    (openAt_ends (v := .any) (i := i') hs.footing hs.recorded hs.ordered)
    (openAt_hasPrevious hs.footing.place)) rough_any
  rw [hrun] at hends
  obtain ⟨⟨hf', hheld, hd, ho, -⟩, hp'⟩ := hends
  obtain rfl := ho s' rfl
  refine ⟨⟨rfl, hf', hs.ordered, hs.recorded.congr hd.document, hp' _ rfl⟩, fun k => ?_⟩
  rw [shelf, hheld]
  rfl

include hu in
/-- A step changes the shelves that it concerns, each one by itself. -/
theorem Settled.take {t : Step} (hlist : t = .rollback → ∀ k, l.Listable k) (hs : Settled l cwd s w)
    (h : t.take s w = some (s', w')) : Settled l cwd s' w' ∧ ∀ k, l.shelf cwd s' w' k =
      if t.concerns k then (l.shelf cwd s w k).after (l.hasFile k) t else l.shelf cwd s w k := by
  obtain ⟨l', i, r⟩ := s
  obtain rfl : l' = l := hs.layout
  cases t with
  | change c =>
    obtain ⟨o, hrun, ho⟩ := Step.take_change_eq_some.mp h
    obtain ⟨hleads, -⟩ := hs.change hu c hrun ho
    refine ⟨hleads.settled, fun k => ?_⟩
    by_cases hk : c.key = k
    · rw [if_pos (by simp [Step.concerns, hk]), ← hk]
      exact hleads.changed
    · rw [if_neg (by simp [Step.concerns, hk])]
      exact hleads.other k (Ne.symm hk)
  | clearHistory => exact ⟨(hs.clearHistory h).settled, (hs.clearHistory h).shelves⟩
  | rollback => exact ⟨(hs.rollback (hlist rfl) h).settled, (hs.rollback (hlist rfl) h).shelves⟩
  | reopen i' =>
    rw [Step.take] at h
    split at h
    next hrun =>
      cases h
      exact ⟨(hs.reopen hrun).settled, (hs.reopen hrun).shelves⟩
    next => cases h

include hu in
/-- A shelf is what the steps have made of it that concern its artifact. -/
theorem Settled.perform {ts : List Step} (hlist : .rollback ∈ ts → ∀ k, l.Listable k)
    (hs : Settled l cwd s w)
    (h : Store.perform ts s w = some (s', w')) : Settled l cwd s' w' ∧ ∀ k, l.shelf cwd s' w' k =
      (ts.filter (·.concerns k)).foldl (Shelf.after (l.hasFile k)) (l.shelf cwd s w k) := by
  induction ts generalizing s w with
  | nil =>
    cases h
    exact ⟨hs, fun _ => rfl⟩
  | cons t ts ih =>
    obtain ⟨⟨s₁, w₁⟩, htake, hrest⟩ := Option.bind_eq_some_iff.mp h
    obtain ⟨hs₁, hshelf⟩ := hs.take hu (fun ht => hlist (ht ▸ List.mem_cons_self)) htake
    obtain ⟨hs', hfold⟩ := ih (fun hmem => hlist (List.mem_cons_of_mem _ hmem)) hs₁ hrest
    refine ⟨hs', fun k => ?_⟩
    rw [hfold, hshelf, List.filter_cons]
    split <;> rfl

include hu in
theorem settled_of_clean (h : Store.Clean l cwd s w) : Settled l cwd s w := by
  have hfresh := fresh_of_clean hu h
  refine ⟨hfresh.kept.layout, hfresh.kept.footing, hfresh.kept.ordered,
    hfresh.flags ▸ hfresh.recorded, ?_⟩
  cases h with
  | @opened i refuse n w _ _ hw hv hrun =>
    have hends := Script.runRefusing_of_ends (openAt_hasPrevious (l := l) (i := i) hw) rough_any
      (refuse_any refuse) n
    rw [hrun] at hends
    exact hends s rfl
  | @cleared s₀ _ w₀ _ hreach refuse n hrun =>
    have hk := kept_of_reachable hu hreach
    have hends := Script.runRefusing_of_ends
      (clearHistory_hasPrevious hk.layout hk.footing.place) rough_any (refuse_any refuse) n
    rw [hrun] at hends
    exact hends rfl
  | @rolledBack s₀ _ w₀ _ hreach refuse n hrun =>
    have hk := kept_of_reachable hu hreach
    have hends := Script.runRefusing_of_ends
      (rollback_hasPrevious hk.layout hk.footing.place) rough_any (refuse_any refuse) n
    rw [hrun] at hends
    exact hends rfl

end Layout

end SourceDelta
