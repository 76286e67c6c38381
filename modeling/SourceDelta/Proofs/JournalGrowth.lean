import SourceDelta.Proofs.FoundFiles
import SourceDelta.Proofs.JsonPrinted
import SourceDelta.Proofs.VariabilityLines

/-!
# How a journal grows

An entry is added as its line and a line break, right behind what stands in the file. So it
is a line of its own only where the last line was ended; behind an entry without its line
break it makes a line that is no entry, and the journal is not read any more.
-/

set_option autoImplicit false

namespace SourceDelta
open SourceDelta.Text

variable {cs tail line : List Char} {ls ms : List (List Char)} {path text : String} {w w' : World}

namespace Text

theorem ofPieces_append (ps : List (List Char)) {qs : List (List Char)} (h : qs ≠ []) :
    ofPieces (ps ++ qs) = ps.map dropReturn ++ ofPieces qs := by
  induction ps with
  | nil => rfl
  | cons p ps ih =>
    have hne : ps ++ qs ≠ [] := List.append_ne_nil_of_right_ne_nil ps h
    obtain ⟨r, rs, hrs⟩ := List.exists_cons_of_ne_nil hne
    rw [List.map_cons, List.cons_append, List.cons_append, ← ih, hrs]
    cases p <;> rfl

theorem lines_append_newline (cs rest : List Char) :
    lines (cs ++ '\n' :: rest) = (pieces '\n' cs).map dropReturn ++ lines rest := by
  rw [lines, pieces_append_sep, ofPieces_append _ (pieces_ne_nil _ _), lines]

theorem dropReturn_append {c : Char} (h : c ≠ '\r') (cs : List Char) :
    dropReturn (cs ++ [c]) = cs ++ [c] := by
  rw [dropReturn, List.reverse_append]
  simp [h]

theorem exists_lines (h : LastPart '\n' cs tail) : ∃ ls, lines cs = ls ++ lines tail ∧
    ∀ added, lines (cs ++ added) = ls ++ lines (tail ++ added) := by
  rcases h with ⟨-, rfl | ⟨front, rfl⟩⟩
  · exact ⟨[], rfl, fun _ => rfl⟩
  · refine ⟨_, lines_append_newline front tail, fun added => ?_⟩
    rw [List.append_assoc, List.cons_append, lines_append_newline]

theorem lines_ended (h : '\n' ∉ cs) : lines (cs ++ ['\n']) = [dropReturn cs] := lines_append h

end Text

namespace Journal

variable {e : Entry} {es : List Entry} {n : Nat}

theorem ofLines_append (n : Nat) (ls ms : List (List Char)) : ofLines n (ls ++ ms) =
    (ofLines n ls).bind fun es => (ofLines (n + es.length) ms).map (es ++ ·) := by
  induction ls generalizing n with
  | nil =>
    have hid : ∀ o : Except Nat (List Entry), o.map ([] ++ ·) = o := by
      rintro (k | es) <;> rfl
    exact (hid _).symm
  | cons l ls ih =>
    rw [List.cons_append, ofLines, ofLines]
    split
    next => exact ih n
    next =>
      split
      next => rfl
      next e _ =>
        rw [ih]
        cases ofLines (n + 1) ls with
        | error k => rfl
        | ok es =>
          have hlength : n + (e :: es).length = n + 1 + es.length := by
            rw [List.length_cons]
            omega
          simp only [Except.bind, Except.map, hlength]
          cases ofLines (n + 1 + es.length) ms <;> rfl

theorem ofLines_singleton (h : allBlank line = false) :
    ofLines n [line] = match Entry.ofLine? (String.ofList line) with
      | none => .error n
      | some e => .ok [e] := by
  rw [ofLines, h, if_neg Bool.false_ne_true]
  cases Entry.ofLine? (String.ofList line) <;> rfl

namespace Entry

theorem exists_line (e : Entry) : ∃ cs, e.line.toList = '\x7b' :: cs ++ ['\x7d'] := by
  rw [line, toJson, Json.compact, String.toList_ofList]
  exact ⟨_, rfl⟩

theorem newline_not_mem_line (e : Entry) : '\n' ∉ e.line.toList := by
  rw [line, Json.compact, String.toList_ofList]
  exact Json.newline_not_mem_compact _

theorem dropReturn_line (tail : List Char) (e : Entry) :
    dropReturn (tail ++ e.line.toList) = tail ++ e.line.toList := by
  obtain ⟨cs, hline⟩ := e.exists_line
  rw [hline, ← List.append_assoc]
  exact dropReturn_append (by decide) _

theorem allBlank_line (tail : List Char) (e : Entry) :
    allBlank (tail ++ e.line.toList) = false := by
  obtain ⟨cs, hline⟩ := e.exists_line
  rw [hline, allBlank, List.all_append, List.cons_append, List.all_cons]
  have hbrace : isBlank '\x7b' = false := by decide
  simp [hbrace]

end Entry

/-- The last line of a text is ended: nothing but blanks of the format stands behind the last line
break. -/
def Ended (text : String) : Prop := Json.Blank (lastPart '\n' text.toList)

theorem Entry.not_ended (e : Entry) : ¬ Ended e.line := by
  intro h
  have hpart : LastPart '\n' e.line.toList e.line.toList := ⟨e.newline_not_mem_line, .inl rfl⟩
  obtain ⟨cs, hline⟩ := e.exists_line
  rw [Ended, hpart.lastPart_eq, hline] at h
  exact absurd (h '\x7b' (by simp)) (by decide)

theorem ofLines_line (h : Entry.ofLine? e.line = some e) :
    ofLines 1 (lines e.line.toList) = .ok [e] := by
  have hne : e.line.toList ≠ [] := by
    obtain ⟨cs, hline⟩ := e.exists_line
    simp [hline]
  have hblank : allBlank e.line.toList = false := by simpa using e.allBlank_line []
  rw [lines_of_not_mem e.newline_not_mem_line hne, ofLines_singleton hblank, String.ofList_toList, h]

theorem ofLine?_blank (h : Json.Blank tail) (e : Entry) :
    Entry.ofLine? (String.ofList (tail ++ e.line.toList)) = Entry.ofLine? e.line := by
  rw [Entry.ofLine?, Entry.ofLine?, Json.take?_blank h, String.ofList_toList]

theorem isBlank_of_starts {c : Char} (h : Json.Starts c) : isBlank c = false := by
  rcases h with h | rfl | h
  · simp only [List.mem_cons, List.not_mem_nil, or_false] at h
    rcases h with rfl | rfl | rfl | rfl | rfl | rfl <;> decide
  · decide
  · exact Instant.isBlank_of_isDigit h

theorem take?_odd_blank (hall : allBlank tail = true) (h : ¬ Json.Blank tail) (w : Json.Wanted)
    (rest : List Char) : Json.take? w (String.ofList (tail ++ rest)) = none := by
  obtain ⟨s, hs, htail⟩ := Json.exists_skip tail
  cases hskip : Json.skip tail with
  | nil =>
    rw [hskip, List.append_nil] at htail
    exact absurd (htail ▸ hs) h
  | cons c cs =>
    rw [hskip] at htail
    have hblank : isBlank c = true := List.all_eq_true.mp hall c (by rw [htail]; simp)
    have hspace : Json.isSpace c = false := Json.isSpace_of_mem_skip (by rw [hskip]; rfl)
    refine Json.take?_eq_none fun d hd hstarts => ?_
    rw [htail, List.append_assoc, Json.skip_blank hs, List.cons_append,
      Json.skip_cons hspace] at hd
    cases hd
    rw [isBlank_of_starts hstarts] at hblank
    cases hblank

/-- No entry is read from a line that goes on behind an entry. -/
theorem ofLine?_unended (h : ¬ Json.Blank tail)
    (htail : allBlank tail = true ∨ ∃ e', Entry.ofLine? (String.ofList tail) = some e')
    (e : Entry) :
    Entry.ofLine? (String.ofList (tail ++ e.line.toList)) = none := by
  have hnone : Json.take? Entry.wanted (String.ofList (tail ++ e.line.toList)) = none := by
    rcases htail with hall | ⟨e', he'⟩
    · exact take?_odd_blank hall h _ _
    · obtain ⟨j, hj, -⟩ := Option.bind_eq_some_iff.mp he'
      obtain ⟨cs, hline⟩ := e.exists_line
      rw [hline]
      exact Json.take?_append hj ⟨by decide, by decide, by decide, by decide⟩ (by decide)
  rw [Entry.ofLine?, hnone]
  rfl

theorem allBlank_of_blank (h : Json.Blank tail) : allBlank tail = true := by
  refine List.all_eq_true.mpr fun c hc => ?_
  rcases Json.eq_of_isSpace (h c hc) with rfl | rfl | rfl | rfl <;> decide

theorem ofLines_tail (hn : '\n' ∉ tail) (h : ofLines n (lines tail) = .ok es) :
    (allBlank tail = true ∧ es = []) ∨
      allBlank tail = false ∧ ∃ e', Entry.ofLine? (String.ofList tail) = some e' := by
  by_cases hne : tail = []
  · subst hne
    cases h
    exact .inl ⟨rfl, rfl⟩
  rw [lines_of_not_mem hn hne] at h
  cases hblank : allBlank tail with
  | true =>
    rw [ofLines, hblank, if_pos rfl] at h
    cases h
    exact .inl ⟨rfl, rfl⟩
  | false =>
    rw [ofLines_singleton hblank] at h
    cases hread : Entry.ofLine? (String.ofList tail) with
    | none =>
      rw [hread] at h
      cases h
    | some e' => exact .inr ⟨rfl, e', rfl⟩

/-- What a journal is read as that an entry is added to. -/
theorem ofLines_added (h : ofLines 1 (lines text.toList) = .ok es) (e : Entry) :
    (Ended text → ofLines 1 (lines (text.toList ++ e.line.toList ++ ['\n'])) =
      match Entry.ofLine? e.line with
      | none => .error (es.length + 1)
      | some e' => .ok (es ++ [e'])) ∧
    (¬ Ended text → ∃ n, ofLines 1 (lines (text.toList ++ e.line.toList ++ ['\n'])) = .error n) := by
  obtain ⟨tail, htail⟩ := exists_lastPart '\n' text.toList
  have hended : Ended text ↔ Json.Blank tail := by rw [Ended, htail.lastPart_eq]
  obtain ⟨ls, hls, hadded⟩ := exists_lines htail
  have hline : '\n' ∉ tail ++ e.line.toList := by
    simp [htail.1, e.newline_not_mem_line]
  rw [hls, ofLines_append] at h
  rw [List.append_assoc, hadded, ← List.append_assoc, lines_ended hline, e.dropReturn_line,
    ofLines_append]
  cases hfront : ofLines 1 ls with
  | error k =>
    rw [hfront] at h
    cases h
  | ok es₀ =>
    rw [hfront] at h
    simp only [Except.bind] at h ⊢
    rw [ofLines_singleton (e.allBlank_line tail), hended]
    cases hread : ofLines (1 + es₀.length) (lines tail) with
    | error k =>
      rw [hread] at h
      cases h
    | ok es₁ =>
      rw [hread] at h
      cases h
      have hparts := ofLines_tail htail.1 hread
      constructor
      · intro hblank
        rw [ofLine?_blank hblank]
        rcases hparts with ⟨-, rfl⟩ | ⟨hfull, -⟩
        · simp only [List.append_nil, Nat.add_comm]
          cases Entry.ofLine? e.line <;> rfl
        · rw [allBlank_of_blank hblank] at hfull
          cases hfull
      · intro hblank
        refine ⟨1 + es₀.length, ?_⟩
        rw [ofLine?_unended hblank (hparts.imp And.left And.right)]
        rfl

/-- The journal has the text, or there is none and the text is empty. -/
def Holds (w : World) (path text : String) : Prop :=
  w.files.Shows w.place path (Utf8.encode text) ∨
    w.files.node? (FileSystem.placeOf w.place path) = none ∧ text = ""

def bytesAt (fs : FileSystem) (p : Place) : Bytes :=
  match fs.node? p with
  | some (.file c) => c
  | _ => []

theorem Holds.bytesAt (h : Holds w path text) :
    bytesAt w.files (FileSystem.placeOf w.place path) = Utf8.encode text := by
  rcases h with h | ⟨h, rfl⟩
  · rw [Journal.bytesAt, h.node?]
  · rw [Journal.bytesAt, h]
    rfl

theorem bytesAt_of_makes {way : Place → Prop} {fs fs' : FileSystem}
    (h : FileSystem.Makes way fs fs') (p : Place) : bytesAt fs' p = bytesAt fs p := by
  rcases h.node? p with h | ⟨hnone, hmade, -⟩
  · rw [bytesAt, bytesAt, h]
  · rw [bytesAt, bytesAt, hnone, hmade]

theorem written_shows (h : (do
      Task.attempt (.openAppend path) (.file (.openJournal path))
      Task.attempt (.write path (Utf8.encode e.line)) (.file (.appendJournal path))
      Task.attempt (.write path (Utf8.encode "\n")) (.file (.appendJournal path))
      Task.attempt (.sync path) (.file (.appendJournal path))).run.run w = (.ok (), w')) :
    w'.files.Shows w'.place path (bytesAt w.files (FileSystem.placeOf w.place path) ++
      Utf8.encode e.line ++ Utf8.encode "\n") := by
  obtain ⟨_, w₁, hopen, h⟩ := Task.bind_ok.mp h
  obtain ⟨_, w₂, hline, h⟩ := Task.bind_ok.mp h
  obtain ⟨_, w₃, hbreak, hsync⟩ := Task.bind_ok.mp h
  obtain ⟨fs₁, hfs₁, rfl⟩ := World.change_ok.mp (Task.attempt_ok.mp hopen)
  obtain ⟨fs₂, hfs₂, rfl⟩ := World.change_ok.mp (Task.attempt_ok.mp hline)
  obtain ⟨fs₃, hfs₃, rfl⟩ := World.change_ok.mp (Task.attempt_ok.mp hbreak)
  obtain ⟨fs₄, hfs₄, rfl⟩ := World.change_ok.mp (Task.attempt_ok.mp hsync)
  have hopened := FileSystem.shows_openFile hfs₁
  exact ((hopened.modifyFile hfs₂).modifyFile hfs₃).modifyFile hfs₄

theorem append_shows (hholds : Holds w path text)
    (h : (append path e).run.run w = (.ok (), w')) :
    w'.files.Shows w'.place path (Utf8.encode (text ++ e.line ++ "\n")) := by
  rw [Utf8.encode_append, Utf8.encode_append, ← hholds.bytesAt]
  rw [append] at h
  split at h
  next => exact written_shows h
  next parent _ =>
    obtain ⟨found, w₁, hask, h⟩ := Task.bind_ok.mp h
    cases Task.ask_ok.mp hask
    split at h
    next => exact written_shows h
    next =>
      obtain ⟨_, w₂, hmake, h⟩ := Task.bind_ok.mp h
      have hmade := congrArg Prod.snd (Task.attempt_ok.mp hmake)
      subst hmade
      have hmakes : FileSystem.Makes (FileSystem.OnWay w.place parent) w.files
          (w.files.createDirAll w.place parent).2 := FileSystem.createDirAll_makes parent
      have hshows := written_shows h
      rw [← bytesAt_of_makes hmakes]
      exact hshows

theorem Holds.ofLines (hholds : Holds w path text)
    (hread : (read path).run.run w = (.ok es, w)) : ofLines 1 (lines text.toList) = .ok es := by
  rcases hholds with h | ⟨hnone, rfl⟩
  · rw [read_of_file h.pathExists h.readFile] at hread
    cases hlines : Journal.ofLines 1 (lines text.toList) with
    | error n =>
      rw [hlines] at hread
      cases hread
    | ok es' =>
      rw [hlines] at hread
      cases hread
      rfl
  · have hmissing : w.files.pathExists w.place path = false := by
      rw [FileSystem.pathExists]
      split
      next found hfind =>
        obtain ⟨-, -, hp, hn, -⟩ := FileSystem.walk_of_find hfind
        rw [hp, hnone] at hn
        cases hn
      next => rfl
    unfold read at hread
    rw [Task.run_bind, Task.run_ask, World.answer, hmissing] at hread
    cases hread
    rfl

/-- A journal to which an entry is added is read as before and the entry when its last line was
ended and the line of the entry is read as the entry. Behind a line without its end it is not
read any more. -/
theorem append_keeps_iff (hholds : Holds w path text)
    (hread : (read path).run.run w = (.ok es, w))
    (happend : (append path e).run.run w = (.ok (), w')) :
    w'.files.Shows w'.place path (Utf8.encode (text ++ e.line ++ "\n")) ∧
    ((read path).run.run w' = (.ok (es ++ [e]), w') ↔
      Ended text ∧ Entry.ofLine? e.line = some e) ∧
    (¬ Ended text → ∃ n, (read path).run.run w' = (.error (.journalText n path), w')) ∧
    (e.time.Valid → e.details.canonical = e.details →
      (∀ n ∈ e.details.numbers, Json.ReadBack n) →
      (Entry.ofLine? e.line = some e ↔ e.details.depth ≤ 126)) := by
  have hshows := append_shows hholds happend
  have hlines : (text ++ e.line ++ "\n").toList = text.toList ++ e.line.toList ++ ['\n'] := by simp
  have hafter := read_of_file hshows.pathExists hshows.readFile
  obtain ⟨hended, hunended⟩ := ofLines_added (hholds.ofLines hread) e
  rw [← hlines] at hended hunended
  refine ⟨hshows, ?_, fun h => ?_, Entry.ofLine?_line_iff⟩
  · rw [hafter]
    by_cases h : Ended text
    · rw [hended h]
      cases hline : Entry.ofLine? e.line with
      | none => simp [Except.mapError]
      | some e' => simp [Except.mapError, h]
    · obtain ⟨n, hn⟩ := hunended h
      rw [hn]
      simp [Except.mapError, h]
  · obtain ⟨n, hn⟩ := hunended h
    exact ⟨n, by rw [hafter, hn]; rfl⟩

def plainEntry : Entry := ⟨default, .rollback, none, .object []⟩

def stoppedWorld : World :=
  ⟨⟨[(["j"], .file (Utf8.encode plainEntry.line))], []⟩, "/", [], 1, 0, default, none, []⟩

theorem ofLine?_plainEntry : Entry.ofLine? plainEntry.line = some plainEntry :=
  (Entry.ofLine?_line_iff ⟨by decide, by decide⟩ rfl (List.forall_mem_nil _)).mpr (by decide)

set_option maxRecDepth 100000 in
theorem append_keeps_iff_of_stopped : ∃ w',
    (append "/j" plainEntry).run.run stoppedWorld = (.ok (), w') ∧
    (read "/j").run.run stoppedWorld = (.ok [plainEntry], stoppedWorld) ∧
    ∃ n, (read "/j").run.run w' = (.error (.journalText n "/j"), w') := by
  have hshows : stoppedWorld.files.Shows stoppedWorld.place "/j" (Utf8.encode plainEntry.line) := by
    unfold FileSystem.Shows
    decide +kernel
  have hread : (read "/j").run.run stoppedWorld = (.ok [plainEntry], stoppedWorld) := by
    rw [read_of_file hshows.pathExists hshows.readFile, ofLines_line ofLine?_plainEntry]
    rfl
  have happend : ((append "/j" plainEntry).run.run stoppedWorld).1.toOption = some () := by
    decide +kernel
  generalize hrun : (append "/j" plainEntry).run.run stoppedWorld = p at happend
  obtain ⟨_ | u, w'⟩ := p
  · cases happend
  · exact ⟨w', rfl, hread, (append_keeps_iff (.inl hshows) hread hrun).2.2.1 plainEntry.not_ended⟩

end Journal

end SourceDelta
