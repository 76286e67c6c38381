import SourceDelta.Store
import SourceDelta.World

/-!
# How scripts end

A statement about a script speaks of every way it can go. In rough weather
requests may be refused, with the errors that this weather has, and a request
that makes a file or a directory may find no room for it. In calm weather
nothing is refused and there is room; what the file system still refuses then,
it refuses because of the files that it holds.
-/

set_option autoImplicit false

namespace SourceDelta

/-- There was no room for what the request makes, or no name. -/
def Request.lacksRoom {β : Type} : Request β → β → Bool
  | .createDirAll _, .error _ => true
  | .createFile _, .error _ => true
  | _, _ => false

/-- The errors with which requests may be refused. -/
def Weather : Type := IoError → Prop

namespace Weather

def Rough (v : Weather) : Prop := ∃ e, v e

def calm : Weather := fun _ => False

def any : Weather := fun _ => True

def honest : Weather := fun e => e ≠ .noEntry

theorem not_rough_calm : ¬ calm.Rough := fun ⟨_, h⟩ => h

end Weather

namespace World

theorem change_place (w : World) (o : Except IoError FileSystem) :
    (w.change o).2.place = w.place := by
  cases o <;> rfl

/-- A run of git leaves behind that it was made, if it was. -/
theorem exists_runGit (w : World) (d : String) (args : List String) :
    ∃ runs, (w.runGit d args).2 = { w with gitRuns := runs } := by
  rw [runGit]
  split
  · exact ⟨_, rfl⟩
  · split
    · exact ⟨_, rfl⟩
    · exact ⟨_, rfl⟩
    · split
      · exact ⟨_, rfl⟩
      · exact ⟨_, rfl⟩

theorem answer_place {β : Type} (w : World) (r : Request β) : (w.answer r).2.place = w.place := by
  cases r with
  | createFile | openAppend | write | sync | rename | removeFile => exact w.change_place _
  | git d args =>
    obtain ⟨runs, hruns⟩ := w.exists_runGit d args
    rw [answer, hruns]
  | pathExists | isFile | readFile | listDirectory | createDirAll | removeDirAll | freshName | now
  | workingDirectory => rfl

theorem change_clock (w : World) (o : Except IoError FileSystem) :
    (w.change o).2.clock = w.clock := by
  cases o <;> rfl

theorem answer_clock {β : Type} (w : World) (r : Request β) : (w.answer r).2.clock = w.clock := by
  cases r with
  | createFile | openAppend | write | sync | rename | removeFile => exact w.change_clock _
  | git d args =>
    obtain ⟨runs, hruns⟩ := w.exists_runGit d args
    rw [answer, hruns]
  | pathExists | isFile | readFile | listDirectory | createDirAll | removeDirAll | freshName | now
  | workingDirectory => rfl

end World

namespace Script

variable {α γ : Type}

/-- The run finds room for every file and directory that it makes. -/
def roomy : Script α → World → Bool
  | .done _, _ => true
  | .ask r next, w => !r.lacksRoom (w.answer r).1 && (next (w.answer r).1).roomy (w.answer r).2

/-- Every way the script can go ends as `Q` says. -/
def Ends (v : Weather) (Q : α → World → Prop) : Script α → World → Prop
  | .done a, w => Q a w
  | .ask r next, w =>
    (v.Rough ∨ r.lacksRoom (w.answer r).1 = false →
      (next (w.answer r).1).Ends v Q (w.answer r).2) ∧
    (v.Rough → ∀ e b, v e → r.refusal? e = some b → (next b).Ends v Q w)

variable {v : Weather} {Q R : α → World → Prop} {w : World}

theorem ends_mono {s : Script α} (h : s.Ends v Q w) (hQ : ∀ a w', Q a w' → R a w') :
    s.Ends v R w := by
  induction s generalizing w with
  | done a => exact hQ a w h
  | ask r next ih =>
    exact ⟨fun hr => ih _ (h.1 hr), fun hr e b hv hb => ih b (h.2 hr e b hv hb)⟩

theorem ends_bind {s : Script α} {f : α → Script γ} {Q : γ → World → Prop}
    (h : s.Ends v (fun a w' => (f a).Ends v Q w') w) : (s.bind f).Ends v Q w := by
  induction s generalizing w with
  | done a => exact h
  | ask r next ih =>
    exact ⟨fun hr => ih _ (h.1 hr), fun hr e b hv hb => ih b (h.2 hr e b hv hb)⟩

theorem ends_and {s : Script α} (h : s.Ends v Q w) (h' : s.Ends v R w) :
    s.Ends v (fun a w' => Q a w' ∧ R a w') w := by
  induction s generalizing w with
  | done a => exact ⟨h, h'⟩
  | ask r next ih =>
    exact ⟨fun hr => ih _ (h.1 hr) (h'.1 hr), fun hr e b hv hb => ih b (h.2 hr e b hv hb)
      (h'.2 hr e b hv hb)⟩

theorem ends_place (s : Script α) (w : World) : s.Ends v (fun _ w' => w'.place = w.place) w := by
  induction s generalizing w with
  | done a => rfl
  | ask r next ih =>
    exact ⟨fun _ => ends_mono (ih _ _) fun _ _ h => h.trans (w.answer_place r),
      fun _ _ b _ _ => ih b w⟩

theorem ends_clock (s : Script α) (w : World) : s.Ends v (fun _ w' => w'.clock = w.clock) w := by
  induction s generalizing w with
  | done a => rfl
  | ask r next ih =>
    exact ⟨fun _ => ends_mono (ih _ _) fun _ _ h => h.trans (w.answer_clock r),
      fun _ _ b _ _ => ih b w⟩

theorem run_of_ends {s : Script α} (h : s.Ends v Q w) (hv : v.Rough) :
    Q (s.run w).1 (s.run w).2 := by
  induction s generalizing w with
  | done a => exact h
  | ask r next ih => exact ih _ (h.1 (.inl hv))

theorem run_of_roomy {s : Script α} (h : s.Ends v Q w) (hroom : s.roomy w = true) :
    Q (s.run w).1 (s.run w).2 := by
  induction s generalizing w with
  | done a => exact h
  | ask r next ih =>
    simp only [roomy, Bool.and_eq_true, Bool.not_eq_true'] at hroom
    exact ih _ (h.1 (.inr hroom.1)) hroom.2

theorem roomy_bind {s : Script α} {f : α → Script γ} :
    (s.bind f).roomy w = (s.roomy w && (f (s.run w).1).roomy (s.run w).2) := by
  induction s generalizing w with
  | done a => simp [bind, roomy, run]
  | ask r next ih => simp [bind, roomy, run, ih, Bool.and_assoc]

def runRoomy : Script α → World → Option (α × World)
  | .done a, w => some (a, w)
  | .ask r next, w =>
    let (b, w) := w.answer r
    if r.lacksRoom b then none else (next b).runRoomy w

theorem runRoomy_eq_some {s : Script α} {p : α × World} :
    s.runRoomy w = some p ↔ s.roomy w = true ∧ s.run w = p := by
  induction s generalizing w with
  | done a => simp [runRoomy, roomy, run]
  | ask r next ih =>
    simp only [runRoomy, roomy, run, Bool.and_eq_true, Bool.not_eq_true']
    split
    next h => simp [h]
    next h =>
      rw [ih]
      simp [h]

def Light : Script α → Prop
  | .done _ => True
  | .ask r next => (∀ b, r.lacksRoom b = false) ∧ ∀ b, (next b).Light

theorem roomy_of_light {s : Script α} (h : s.Light) (w : World) : s.roomy w = true := by
  induction s generalizing w with
  | done a => rfl
  | ask r next ih =>
    simp only [roomy, h.1, Bool.not_false, Bool.true_and]
    exact ih _ (h.2 _) _

theorem light_bind {s : Script α} {f : α → Script γ} (hs : s.Light) (hf : ∀ a, (f a).Light) :
    (s.bind f).Light := by
  induction s with
  | done a => exact hf a
  | ask r next ih => exact ⟨hs.1, fun b => ih b (hs.2 b)⟩

theorem runRefusing_of_ends {s : Script α} (h : s.Ends v Q w) (hv : v.Rough)
    {refuse : Nat → Option IoError} (hrefuse : ∀ n e, refuse n = some e → v e) (n : Nat) :
    Q (s.runRefusing refuse n w).1 (s.runRefusing refuse n w).2 := by
  induction s generalizing w n with
  | done a => exact h
  | ask r next ih =>
    simp only [runRefusing]
    split
    next b hb =>
      obtain ⟨e, hn, he⟩ := Option.bind_eq_some_iff.mp hb
      exact ih b (h.2 hv e b (hrefuse n e hn) he) (n + 1)
    next => exact ih _ (h.1 (.inl hv)) (n + 1)

end Script

namespace Task

variable {α β γ : Type}

def Ends (v : Weather) (Q : Except Failure α → World → Prop) (t : Task α) (w : World) : Prop :=
  t.run.Ends v Q w

variable {v : Weather} {w : World}

theorem ends_pure {Q : Except Failure α → World → Prop} {a : α} (h : Q (.ok a) w) :
    (pure a : Task α).Ends v Q w := h

theorem ends_fail {Q : Except Failure α → World → Prop} {f : Failure} (h : Q (.error f) w) :
    (Task.fail f : Task α).Ends v Q w := h

theorem ends_mono {Q R : Except Failure α → World → Prop} {t : Task α} (h : t.Ends v Q w)
    (hQ : ∀ o w', Q o w' → R o w') : t.Ends v R w :=
  Script.ends_mono h hQ

theorem ends_and {Q R : Except Failure α → World → Prop} {t : Task α} (h : t.Ends v Q w)
    (h' : t.Ends v R w) : t.Ends v (fun o w' => Q o w' ∧ R o w') w :=
  Script.ends_and h h'

theorem ends_place (t : Task α) (w : World) : t.Ends v (fun _ w' => w'.place = w.place) w :=
  Script.ends_place t.run w

theorem ends_clock (t : Task α) (w : World) : t.Ends v (fun _ w' => w'.clock = w.clock) w :=
  Script.ends_clock t.run w

theorem ends_bind {Q : Except Failure γ → World → Prop} {t : Task α} {f : α → Task γ}
    (h : t.Ends v (fun o w' => match o with
      | .ok a => (f a).Ends v Q w'
      | .error e => Q (.error e) w') w) : (t >>= f).Ends v Q w := by
  apply Script.ends_bind
  apply Script.ends_mono h
  intro o w' ho
  cases o with
  | ok a => exact ho
  | error e => exact ho

theorem ends_ask {Q : Except Failure β → World → Prop} {r : Request β}
    (hr : ∀ e, r.refusal? e = none) (h : Q (.ok (w.answer r).1) (w.answer r).2) :
    (Task.ask r).Ends v Q w := by
  refine ⟨fun _ => h, fun _ e b _ hb => ?_⟩
  rw [hr e] at hb
  cases hb

theorem ends_reply {Q : Except Failure β → World → Prop} {r : Request β}
    (hanswer : v.Rough ∨ r.lacksRoom (w.answer r).1 = false →
      Q (.ok (w.answer r).1) (w.answer r).2)
    (hrefused : v.Rough → ∀ e b, v e → r.refusal? e = some b → Q (.ok b) w) :
    (Task.ask r).Ends v Q w :=
  ⟨hanswer, hrefused⟩

theorem ends_attempt {Q : Except Failure β → World → Prop} {r : Request (Except IoError β)}
    {failure : IoError → Failure}
    (hanswer : v.Rough ∨ r.lacksRoom (w.answer r).1 = false →
      Q ((w.answer r).1.mapError failure) (w.answer r).2)
    (hrefused : v.Rough → ∀ e b, v e → r.refusal? e = some b → Q (b.mapError failure) w) :
    (Task.attempt r failure).Ends v Q w := by
  refine ⟨fun hr => ?_, fun hr e b hv hb => ?_⟩
  · have h := hanswer hr
    revert h
    cases (w.answer r).1 <;> exact id
  · have h := hrefused hr e b hv hb
    revert h
    cases b <;> exact id

theorem ends_granted {Q : Except Failure β → World → Prop} {r : Request (Except IoError β)}
    {failure : IoError → Failure} {b : β} {w' : World} (hv : ¬ v.Rough)
    (hr : w.answer r = (.ok b, w')) (h : Q (.ok b) w') : (Task.attempt r failure).Ends v Q w := by
  refine ends_attempt (fun _ => ?_) fun hrough => absurd hrough hv
  rw [hr]
  exact h

end Task

namespace Task

variable {α β γ : Type} {w : World}

theorem run_bind (t : Task α) (f : α → Task γ) (w : World) :
    (t >>= f).run.run w = match t.run.run w with
      | (.ok a, w') => (f a).run.run w'
      | (.error e, w') => (.error e, w') := by
  show Script.run (Script.bind t.run _) w = _
  rw [Script.run_bind]
  cases t.run.run w with
  | mk o w' => cases o <;> rfl

theorem roomy_bind (t : Task α) (f : α → Task γ) (w : World) :
    (t >>= f).run.roomy w = (t.run.roomy w && match t.run.run w with
      | (.ok a, w') => (f a).run.roomy w'
      | (.error _, _) => true) := by
  show Script.roomy (Script.bind t.run _) w = _
  rw [Script.roomy_bind]
  cases t.run.run w with
  | mk o w' => cases o <;> rfl

theorem run_ask (r : Request β) (w : World) :
    (ask r).run.run w = (.ok (w.answer r).1, (w.answer r).2) := rfl

theorem run_attempt (r : Request (Except IoError β)) (failure : IoError → Failure) (w : World) :
    (attempt r failure).run.run w = ((w.answer r).1.mapError failure, (w.answer r).2) := by
  show Script.run (Script.bind (Script.single r) _) w = _
  rw [Script.run_bind]
  rw [show (Script.single r).run w = w.answer r from rfl]
  obtain ⟨b, w'⟩ := w.answer r
  cases b <;> rfl

theorem roomy_attempt (r : Request (Except IoError β)) (failure : IoError → Failure) (w : World) :
    (attempt r failure).run.roomy w = !r.lacksRoom (w.answer r).1 := by
  show (!r.lacksRoom (w.answer r).1 && _) = _
  obtain ⟨b, w'⟩ := w.answer r
  cases b <;> exact Bool.and_true _

theorem light_bind {t : Task α} {f : α → Task γ} (ht : t.run.Light)
    (hf : ∀ a, (f a).run.Light) : (t >>= f).run.Light := by
  apply Script.light_bind ht
  rintro (e | a)
  · trivial
  · exact hf a

theorem light_ask {r : Request β} (hr : ∀ b, r.lacksRoom b = false) : (ask r).run.Light :=
  ⟨hr, fun _ => trivial⟩

theorem light_attempt {r : Request (Except IoError β)} {failure : IoError → Failure}
    (hr : ∀ b, r.lacksRoom b = false) : (attempt r failure).run.Light :=
  ⟨hr, fun b => by cases b <;> trivial⟩

end Task

namespace Store.Action

variable {α β γ : Type}

def Ends (v : Weather) (Q : Except Failure α → Store → World → Prop) (a : Action α) (s : Store)
    (w : World) : Prop :=
  (a.on s).Ends v (fun p w' => Q p.1 p.2 w') w

variable {v : Weather} {s : Store} {w : World}

theorem ends_pure {Q : Except Failure α → Store → World → Prop} {a : α} (h : Q (.ok a) s w) :
    (pure a : Action α).Ends v Q s w := h

theorem ends_fail {Q : Except Failure α → Store → World → Prop} {f : Failure}
    (h : Q (.error f) s w) : (Store.fail f : Action α).Ends v Q s w := h

theorem ends_mono {Q R : Except Failure α → Store → World → Prop} {a : Action α}
    (h : a.Ends v Q s w) (hQ : ∀ o s' w', Q o s' w' → R o s' w') : a.Ends v R s w :=
  Script.ends_mono h fun p w' => hQ p.1 p.2 w'

theorem ends_and {Q R : Except Failure α → Store → World → Prop} {a : Action α}
    (h : a.Ends v Q s w) (h' : a.Ends v R s w) :
    a.Ends v (fun o s' w' => Q o s' w' ∧ R o s' w') s w :=
  Script.ends_and h h'

theorem ends_place (a : Action α) (s : Store) (w : World) :
    a.Ends v (fun _ _ w' => w'.place = w.place) s w :=
  Script.ends_place (a.on s) w

theorem ends_clock (a : Action α) (s : Store) (w : World) :
    a.Ends v (fun _ _ w' => w'.clock = w.clock) s w :=
  Script.ends_clock (a.on s) w

theorem ends_bind {Q : Except Failure γ → Store → World → Prop} {a : Action α} {f : α → Action γ}
    (h : a.Ends v (fun o s' w' => match o with
      | .ok x => (f x).Ends v Q s' w'
      | .error e => Q (.error e) s' w') s w) : (a >>= f).Ends v Q s w := by
  apply Script.ends_bind
  apply Script.ends_mono h
  rintro ⟨o, s'⟩ w' ho
  cases o with
  | ok x => exact ho
  | error e => exact ho

theorem ends_get {Q : Except Failure Store → Store → World → Prop} (h : Q (.ok s) s w) :
    (get : Action Store).Ends v Q s w := h

theorem ends_set {Q : Except Failure Unit → Store → World → Prop} {s' : Store}
    (h : Q (.ok ()) s' w) : (set s' : Action Unit).Ends v Q s w := h

theorem ends_ofTask {Q : Except Failure α → Store → World → Prop} {t : Task α}
    (h : t.Ends v (fun o w' => Q o s w') w) : (Action.ofTask t).Ends v Q s w := by
  apply Script.ends_bind
  exact Script.ends_mono h fun o w' ho => ho

theorem ends_request {Q : Except Failure β → Store → World → Prop} {r : Request β}
    (hr : ∀ e, r.refusal? e = none) (h : Q (.ok (w.answer r).1) s (w.answer r).2) :
    (Store.request r).Ends v Q s w :=
  ends_ofTask (Task.ends_ask hr h)

theorem ends_outcome {Q : Except Failure (Except Failure α) → Store → World → Prop} {a : Action α}
    (h : a.Ends v (fun o s' w' => Q (.ok o) s' w') s w) :
    Ends v Q (ExceptT.lift (ExceptT.run a)) s w := by
  apply Script.ends_bind
  exact Script.ends_mono h fun p w' hp => hp

end Store.Action

theorem Task.ends_outcome {α : Type} {v : Weather} {w : World}
    {Q : Except Failure (Except Failure α) → World → Prop} {t : Task α}
    (h : t.Ends v (fun o w' => Q (.ok o) w') w) :
    Task.Ends v Q (ExceptT.lift t.run) w := by
  apply Script.ends_bind
  exact Script.ends_mono h fun o w' ho => ho

-- A script is read through the rules above, and never by running it.
attribute [irreducible] Script.Ends

end SourceDelta
