import SourceDelta.Proofs.FoundFiles

/-!
# Requests that fail halfway

A request that fails need not have been without effect: some of the directories on the
way were made before one could not be, and some of the bytes were written before there
was no room for more. A script withstands faults when it ends well however the requests
that may fail do fail, and whichever of them.
-/

set_option autoImplicit false

namespace SourceDelta

open FileSystem (Makes OnWay)

/-- Which requests may fail. -/
def Faults : Type 1 := ∀ β : Type, Request β → Prop

namespace Faults

def any : Faults := fun _ _ => True

def sparingRemovals : Faults
  | _, .removeFile _ => False
  | _, _ => True

end Faults

namespace Request

variable {β : Type} {may : Faults} {r : Request β} {b : β} {w w' : World}

/-- What a request that fails is answered, and the world that it leaves. -/
def Fails (w : World) : {β : Type} → Request β → β → World → Prop
  | _, .createDirAll path, b, w' =>
    (∃ e, b = .error e) ∧ ∃ fs, Makes (OnWay w.place path) w.files fs ∧ w' = { w with files := fs }
  | _, .write path bytes, b, w' =>
    (∃ e, b = .error e) ∧ (w' = w ∨ ∃ part fs, part <+: bytes ∧
      w.files.modifyFile (· ++ part) w.place path = .ok fs ∧ w' = { w with files := fs })
  | _, r, b, w' => (∃ e, r.refusal? e = some b) ∧ w' = w

def Replies (may : Faults) (w : World) (r : Request β) (b : β) (w' : World) : Prop :=
  w.answer r = (b, w') ∨ may β r ∧ r.Fails w b w'

theorem fails_of_refusal? {e : IoError} (h : r.refusal? e = some b) : r.Fails w b w := by
  cases r with
  | createDirAll path => exact ⟨⟨e, (Option.some.inj h).symm⟩, w.files, .refl, rfl⟩
  | write path bytes => exact ⟨⟨e, (Option.some.inj h).symm⟩, .inl rfl⟩
  | pathExists | isFile | freshName | now => cases h
  | readFile | listDirectory | removeDirAll | createFile | openAppend | sync | rename | removeFile
  | workingDirectory | git => exact ⟨⟨e, h⟩, rfl⟩

variable {path old new : String} {bytes : Bytes} {done : Except IoError Unit}

theorem replies_pathExists {seen : Bool} (h : (pathExists path).Replies may w seen w') :
    seen = w.files.pathExists w.place path ∧ w' = w := by
  rcases h with h | ⟨-, ⟨e, he⟩, -⟩
  · cases h
    exact ⟨rfl, rfl⟩
  · cases he

theorem replies_freshName {name : Nat × Nat} (h : freshName.Replies may w name w') :
    name = (w.process, w.fresh) ∧ w' = { w with fresh := w.fresh + 1 } := by
  rcases h with h | ⟨-, ⟨e, he⟩, -⟩
  · cases h
    exact ⟨rfl, rfl⟩
  · cases he

theorem replies_createDirAll (h : (createDirAll path).Replies may w done w') :
    ∃ fs, Makes (OnWay w.place path) w.files fs ∧ w' = { w with files := fs } := by
  rcases h with h | ⟨-, -, hmakes⟩
  · cases h
    exact ⟨_, FileSystem.createDirAll_makes path, rfl⟩
  · exact hmakes

theorem replies_readFile {content : Except IoError Bytes}
    (h : (readFile path).Replies may w content w') :
    (content = w.files.readFile w.place path ∨ ∃ e, content = .error e) ∧ w' = w := by
  rcases h with h | ⟨-, ⟨e, he⟩, rfl⟩
  · cases h
    exact ⟨.inl rfl, rfl⟩
  · cases he
    exact ⟨.inr ⟨e, rfl⟩, rfl⟩

def Changes (o : Except IoError FileSystem) (w : World) (done : Except IoError Unit) (w' : World) :
    Prop :=
  (∃ fs, o = .ok fs ∧ done = .ok () ∧ w' = { w with files := fs }) ∨ (∃ e, done = .error e) ∧ w' = w

theorem changes_of_change {o : Except IoError FileSystem} (h : w.change o = (done, w')) :
    Changes o w done w' := by
  cases o with
  | ok fs =>
    cases h
    exact .inl ⟨fs, rfl, rfl, rfl⟩
  | error e =>
    cases h
    exact .inr ⟨⟨e, rfl⟩, rfl⟩

theorem replies_createFile (h : (createFile path).Replies may w done w') :
    Changes (w.files.openFile (fun _ => []) w.place path) w done w' := by
  rcases h with h | ⟨-, ⟨e, he⟩, hw⟩
  · exact changes_of_change h
  · exact .inr ⟨⟨e, (Option.some.inj he).symm⟩, hw⟩

theorem replies_sync (h : (sync path).Replies may w done w') :
    Changes (w.files.modifyFile id w.place path) w done w' := by
  rcases h with h | ⟨-, ⟨e, he⟩, hw⟩
  · exact changes_of_change h
  · exact .inr ⟨⟨e, (Option.some.inj he).symm⟩, hw⟩

theorem replies_rename (h : (rename old new).Replies may w done w') :
    Changes (w.files.rename w.place old new) w done w' := by
  rcases h with h | ⟨-, ⟨e, he⟩, hw⟩
  · exact changes_of_change h
  · exact .inr ⟨⟨e, (Option.some.inj he).symm⟩, hw⟩

theorem replies_removeFile (h : (removeFile path).Replies may w done w') :
    Changes (w.files.removeFile w.place path) w done w' := by
  rcases h with h | ⟨-, ⟨e, he⟩, hw⟩
  · exact changes_of_change h
  · exact .inr ⟨⟨e, (Option.some.inj he).symm⟩, hw⟩

theorem replies_write (h : (write path bytes).Replies may w done w') :
    Changes (w.files.modifyFile (· ++ bytes) w.place path) w done w' ∨
      ∃ part, part <+: bytes ∧ (∃ e, done = .error e) ∧ ∃ fs,
        w.files.modifyFile (· ++ part) w.place path = .ok fs ∧ w' = { w with files := fs } := by
  rcases h with h | ⟨-, he, rfl | ⟨part, fs, hpart, hfs, rfl⟩⟩
  · exact .inl (changes_of_change h)
  · exact .inl (.inr ⟨he, rfl⟩)
  · exact .inr ⟨part, hpart, he, fs, hfs, rfl⟩

end Request

namespace Script

variable {α γ : Type} {may : Faults} {Q R : α → World → Prop} {w : World}

/-- Every way the script can go ends as `Q` says. -/
def Withstands (may : Faults) (Q : α → World → Prop) : Script α → World → Prop
  | .done a, w => Q a w
  | .ask r next, w => ∀ b w', r.Replies may w b w' → (next b).Withstands may Q w'

theorem withstands_mono {s : Script α} (h : s.Withstands may Q w)
    (hQ : ∀ a w', Q a w' → R a w') : s.Withstands may R w := by
  induction s generalizing w with
  | done a => exact hQ a w h
  | ask r next ih => exact fun b w' hb => ih b (h b w' hb)

theorem withstands_bind {s : Script α} {f : α → Script γ} {Q : γ → World → Prop}
    (h : s.Withstands may (fun a w' => (f a).Withstands may Q w') w) :
    (s.bind f).Withstands may Q w := by
  induction s generalizing w with
  | done a => exact h
  | ask r next ih => exact fun b w' hb => ih b (h b w' hb)

theorem run_of_withstands {s : Script α} (h : s.Withstands may Q w) : Q (s.run w).1 (s.run w).2 := by
  induction s generalizing w with
  | done a => exact h
  | ask r next ih => exact ih _ (h _ _ (.inl rfl))

theorem runRefusing_of_withstands {s : Script α} (h : s.Withstands Faults.any Q w)
    (refuse : Nat → Option IoError) (n : Nat) :
    Q (s.runRefusing refuse n w).1 (s.runRefusing refuse n w).2 := by
  induction s generalizing w n with
  | done a => exact h
  | ask r next ih =>
    simp only [runRefusing]
    split
    next b hb =>
      obtain ⟨e, -, he⟩ := Option.bind_eq_some_iff.mp hb
      exact ih b (h b w (.inr ⟨trivial, Request.fails_of_refusal? he⟩)) (n + 1)
    next => exact ih _ (h _ _ (.inl rfl)) (n + 1)

end Script

namespace Task

variable {α β γ : Type} {may : Faults} {w : World}

def Withstands (may : Faults) (Q : Except Failure α → World → Prop) (t : Task α) (w : World) : Prop :=
  t.run.Withstands may Q w

theorem withstands_pure {Q : Except Failure α → World → Prop} {a : α} (h : Q (.ok a) w) :
    (pure a : Task α).Withstands may Q w := h

theorem withstands_fail {Q : Except Failure α → World → Prop} {f : Failure} (h : Q (.error f) w) :
    (Task.fail f : Task α).Withstands may Q w := h

theorem withstands_mono {Q R : Except Failure α → World → Prop} {t : Task α}
    (h : t.Withstands may Q w) (hQ : ∀ o w', Q o w' → R o w') : t.Withstands may R w :=
  Script.withstands_mono h hQ

theorem withstands_bind {Q : Except Failure γ → World → Prop} {t : Task α} {f : α → Task γ}
    (h : t.Withstands may (fun o w' => match o with
      | .ok a => (f a).Withstands may Q w'
      | .error e => Q (.error e) w') w) : (t >>= f).Withstands may Q w := by
  apply Script.withstands_bind
  apply Script.withstands_mono h
  intro o w' ho
  cases o with
  | ok a => exact ho
  | error e => exact ho

theorem withstands_ask {Q : Except Failure β → World → Prop} {r : Request β}
    (h : ∀ b w', r.Replies may w b w' → Q (.ok b) w') : (Task.ask r).Withstands may Q w := h

theorem withstands_attempt {Q : Except Failure β → World → Prop} {r : Request (Except IoError β)}
    {failure : IoError → Failure}
    (h : ∀ b w', r.Replies may w b w' → Q (b.mapError failure) w') :
    (Task.attempt r failure).Withstands may Q w := by
  intro b w' hb
  have hQ := h b w' hb
  revert hQ
  cases b <;> exact id

theorem run_of_withstands {Q : Except Failure α → World → Prop} {t : Task α}
    (h : t.Withstands may Q w) : Q (t.run.run w).1 (t.run.run w).2 :=
  Script.run_of_withstands h

/-- That the requests of some numbers are refused is one of the ways, if all may fail. -/
theorem runRefusing_of_withstands {Q : Except Failure α → World → Prop} {t : Task α}
    (h : t.Withstands Faults.any Q w) (refuse : Nat → Option IoError) (n : Nat) :
    Q (t.run.runRefusing refuse n w).1 (t.run.runRefusing refuse n w).2 :=
  Script.runRefusing_of_withstands h refuse n

section

variable {Q : Except Failure α → World → Prop} {t : Task α} {last : Except Failure α × World}

theorem exists_ok (h : Q last.1 last.2) (hok : last.1.toOption.isSome = true) :
    ∃ a w', last = (.ok a, w') ∧ Q (.ok a) w' := by
  obtain ⟨o, w'⟩ := last
  cases o with
  | ok a => exact ⟨a, w', rfl, h⟩
  | error e => cases hok

theorem exists_error (h : Q last.1 last.2) (herror : last.1.toOption.isNone = true) :
    ∃ e w', last = (.error e, w') ∧ Q (.error e) w' := by
  obtain ⟨o, w'⟩ := last
  cases o with
  | ok a => cases herror
  | error e => exact ⟨e, w', rfl, h⟩

theorem run_ok (h : t.Withstands may Q w) (hok : (t.run.run w).1.toOption.isSome = true) :
    ∃ a w', t.run.run w = (.ok a, w') ∧ Q (.ok a) w' :=
  exists_ok (run_of_withstands h) hok

theorem run_error (h : t.Withstands may Q w) (herror : (t.run.run w).1.toOption.isNone = true) :
    ∃ e w', t.run.run w = (.error e, w') ∧ Q (.error e) w' :=
  exists_error (run_of_withstands h) herror

theorem runRefusing_error (h : t.Withstands Faults.any Q w) (refuse : Nat → Option IoError) (n : Nat)
    (herror : (t.run.runRefusing refuse n w).1.toOption.isNone = true) :
    ∃ e w', t.run.runRefusing refuse n w = (.error e, w') ∧ Q (.error e) w' :=
  exists_error (runRefusing_of_withstands h refuse n) herror

end

end Task

-- A script is read through the rules above, and never by running it.
attribute [irreducible] Script.Withstands

end SourceDelta
