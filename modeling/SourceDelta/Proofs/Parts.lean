import SourceDelta.Proofs.HunkGrammar
import SourceDelta.Proofs.Joining
import SourceDelta.Proofs.Offsets

/-!
# Documents part by part

A document is cut into one part for each of its sections. It is read by reading
every part as a document of its own and joining the changes in order; the first
part that cannot be read or joined decides the fault, which is found so many lines
on as stand before the part. A reader that takes the lines one by one, and closes a
section when the next one opens, comes to the same.
-/

set_option autoImplicit false

namespace SourceDelta.Diff
open SourceDelta.Text

/-- The text has one section, which starts with its first line. -/
def OneSection (p : String) : Prop :=
  ∃ l ls, lines p.toList = l :: ls ∧ startsWith marker l = true ∧
    ∀ x ∈ ls, startsWith marker x = false

/-- The lines of the text are some without a marker and those of its parts. -/
structure Parted (text : String) (lead : List (List Char)) (parts : List String) : Prop where
  cut : lines text.toList = lead ++ parts.flatMap fun p => lines p.toList
  lead : ∀ l ∈ lead, startsWith marker l = false
  parts : ∀ p ∈ parts, OneSection p

/-- As a document of its own the part states the change and nothing else. -/
def ReadsAlone (contextLine : Bool) (p : String) (c : FileChange) : Prop :=
  ∃ set, parse contextLine p = .ok set ∧ set.entries = [c]

/-- What is wrong with the part behind `n` lines and the changes of the set. -/
inductive Fails (contextLine : Bool) (n : Nat) (set : DiffSet) (p : String) : Malformed → Prop
  | alone {m : Malformed} (h : parse contextLine p = .error m) :
      Fails contextLine n set p (m.behind n)
  | repeated {c : FileChange} (hc : ReadsAlone contextLine p c) (h : set.absorb? c = none) :
      Fails contextLine n set p ⟨n + 1, .duplicate c.path⟩

def lineCount (parts : List String) : Nat := (parts.flatMap fun p => lines p.toList).length

variable {contextLine : Bool} {text p : String} {parts : List String} {lead : List (List Char)}
  {n : Nat} {s : Section} {ss : List Section} {xs ys : List Line} {set set' : DiffSet}
  {c : FileChange} {cs : List FileChange} {m : Malformed}

theorem lineCount_cons (p : String) (parts : List String) :
    lineCount (p :: parts) = (lines p.toList).length + lineCount parts := by
  rw [lineCount, List.flatMap_cons, List.length_append, lineCount]

theorem absorb_eq_ok : absorb contextLine set s = .ok set' ↔
    ∃ c, s.read contextLine = .ok c ∧ set.absorb? c = some set' := by
  rw [absorb, bind_eq_ok]
  refine exists_congr fun c => and_congr_right fun _ => ?_
  cases set.absorb? c <;> simp

theorem absorb_eq_error : absorb contextLine set s = .error m ↔
    s.read contextLine = .error m ∨
      ∃ c, s.read contextLine = .ok c ∧ set.absorb? c = none ∧ m = ⟨s.line, .duplicate c.path⟩ := by
  rw [absorb]
  cases s.read contextLine with
  | error e => simp [bind, Except.bind]
  | ok c => cases h : set.absorb? c <;> simp [bind, Except.bind, h, eq_comm]

theorem foldlM_absorb_eq_ok : ss.foldlM (absorb contextLine) set = .ok set' ↔
    ∃ cs, List.Forall₂ (fun s c => s.read contextLine = .ok c) ss cs ∧
      cs.foldlM DiffSet.absorb? set = some set' := by
  induction ss generalizing set with
  | nil =>
    simp only [List.forall₂_nil_left_iff, exists_eq_left, List.foldlM_nil]
    exact ⟨fun h => congrArg some (Except.ok.inj h), fun h => congrArg _ (Option.some.inj h)⟩
  | cons s ss ih =>
    rw [List.foldlM_cons, bind_eq_ok]
    simp only [ih, absorb_eq_ok, List.forall₂_cons_left_iff]
    constructor
    · rintro ⟨set₁, ⟨c, hc, hset⟩, cs, hcs, hfold⟩
      refine ⟨c :: cs, ⟨c, cs, hc, hcs, rfl⟩, ?_⟩
      rw [List.foldlM_cons, hset]
      exact hfold
    · rintro ⟨_, ⟨c, cs, hc, hcs, rfl⟩, hfold⟩
      rw [List.foldlM_cons] at hfold
      obtain ⟨set₁, hset, hfold⟩ := Option.bind_eq_some_iff.mp hfold
      exact ⟨set₁, ⟨c, hc, hset⟩, cs, hcs, hfold⟩

theorem parse_eq_ok : parse contextLine text = .ok set ↔
    ∃ cs, List.Forall₂ (fun s c => s.read contextLine = .ok c)
        (sections (number 1 (lines text.toList))).2 cs ∧
      cs.foldlM DiffSet.absorb? .empty = some set := by
  rw [parse, foldlM_absorb_eq_ok]

theorem OneSection.section (h : OneSection p) :
    ∃ s, sections (number 1 (lines p.toList)) = ([], [s]) ∧ s.line = 1 := by
  obtain ⟨l, ls, hlines, hl, hls⟩ := h
  obtain ⟨names, hnames⟩ := Option.isSome_iff_exists.mp hl
  refine ⟨⟨1, names, number 2 ls⟩, ?_, rfl⟩
  rw [hlines]
  exact sections_single (x := ⟨1, l⟩) hnames fun y hy => hls _ (mem_number hy)

theorem parse_single (h : sections (number 1 (lines p.toList)) = ([], [s])) :
    parse contextLine p = absorb contextLine .empty s := by
  rw [parse, h]
  simp only [List.foldlM_cons, List.foldlM_nil, bind_pure]

theorem readsAlone_iff (h : sections (number 1 (lines p.toList)) = ([], [s])) :
    ReadsAlone contextLine p c ↔ s.read contextLine = .ok c := by
  rw [ReadsAlone, parse_single h]
  constructor
  · rintro ⟨set, hset, hentries⟩
    obtain ⟨c', hc', hset⟩ := absorb_eq_ok.mp hset
    cases hset
    rw [← List.singleton_inj.mp hentries]
    exact hc'
  · exact absorb_empty

theorem parse_error_iff (h : sections (number 1 (lines p.toList)) = ([], [s])) :
    parse contextLine p = .error m ↔ s.read contextLine = .error m := by
  rw [parse_single h, absorb_eq_error]
  refine or_iff_left ?_
  rintro ⟨c, -, hc, -⟩
  cases hc

theorem sections_append (h : (sections ys).1 = []) : sections (xs ++ ys) =
    ((sections xs).1, (sections xs).2 ++ (sections ys).2) := by
  induction xs with
  | nil => exact Prod.ext h rfl
  | cons x xs ih =>
    rw [List.cons_append, sections, ih, sections]
    cases after? marker x.text <;> rfl

inductive Placed : Nat → List String → List Section → Prop
  | nil (n : Nat) : Placed n [] []
  | cons {n : Nat} {p : String} {parts : List String} {s : Section} {ss : List Section}
      (hp : sections (number 1 (lines p.toList)) = ([], [s])) (hline : s.line = 1)
      (h : Placed (n + (lines p.toList).length) parts ss) :
      Placed n (p :: parts) (s.behind n :: ss)

theorem exists_placed (h : ∀ p ∈ parts, OneSection p) (n : Nat) :
    ∃ ss, sections (number (1 + n) (parts.flatMap fun p => lines p.toList)) = ([], ss) ∧
      Placed n parts ss := by
  induction parts generalizing n with
  | nil => exact ⟨[], rfl, .nil n⟩
  | cons p parts ih =>
    obtain ⟨s, hs, hline⟩ := (h p List.mem_cons_self).section
    obtain ⟨ss, hss, hplaced⟩ :=
      ih (fun q hq => h q (List.mem_cons_of_mem _ hq)) (n + (lines p.toList).length)
    refine ⟨s.behind n :: ss, ?_, .cons hs hline hplaced⟩
    rw [List.flatMap_cons, number_append, Nat.add_assoc, sections_append (by rw [hss]), hss,
      number_behind, sections_behind, hs]
    rfl

theorem Parted.placed (h : Parted text lead parts) :
    ∃ ss, (sections (number 1 (lines text.toList))).2 = ss ∧ Placed lead.length parts ss := by
  obtain ⟨ss, hss, hplaced⟩ := exists_placed h.parts lead.length
  refine ⟨ss, ?_, hplaced⟩
  rw [h.cut, number_append, sections_append (by rw [hss]), hss,
    sections_lead fun x hx => h.lead _ (mem_number hx)]
  rfl

theorem Placed.reads (h : Placed n parts ss) :
    List.Forall₂ (fun s c => s.read contextLine = .ok c) ss cs ↔
      List.Forall₂ (ReadsAlone contextLine) parts cs := by
  induction h generalizing cs with
  | nil => rw [List.forall₂_nil_left_iff, List.forall₂_nil_left_iff]
  | cons hp _ _ ih =>
    simp only [List.forall₂_cons_left_iff, ih, read_behind, mapError_ok, readsAlone_iff hp]

theorem joins_iff (hp : sections (number 1 (lines p.toList)) = ([], [s])) :
    absorb contextLine set (s.behind n) = .ok set' ↔
      ∃ c, ReadsAlone contextLine p c ∧ set.absorb? c = some set' := by
  simp only [absorb_eq_ok, read_behind, mapError_ok, readsAlone_iff hp]

theorem fails_iff (hp : sections (number 1 (lines p.toList)) = ([], [s])) (hline : s.line = 1) :
    absorb contextLine set (s.behind n) = .error m ↔ Fails contextLine n set p m := by
  rw [absorb_eq_error, read_behind, mapError_error]
  simp only [mapError_ok]
  constructor
  · rintro (⟨e, he, rfl⟩ | ⟨c, hc, hset, rfl⟩)
    · exact .alone ((parse_error_iff hp).mpr he)
    · rw [Section.behind, hline, Nat.add_comm]
      exact .repeated ((readsAlone_iff hp).mpr hc) hset
  · rintro (⟨h⟩ | ⟨hc, hset⟩)
    · exact .inl ⟨_, (parse_error_iff hp).mp h, rfl⟩
    · refine .inr ⟨_, (readsAlone_iff hp).mp hc, hset, ?_⟩
      rw [Section.behind, hline, Nat.add_comm]

/-- The first part that cannot be read or joined decides the fault. -/
theorem Placed.foldlM_error (h : Placed n parts ss) :
    ss.foldlM (absorb contextLine) set = .error m ↔ ∃ before p after cs set',
      parts = before ++ p :: after ∧ List.Forall₂ (ReadsAlone contextLine) before cs ∧
      cs.foldlM DiffSet.absorb? set = some set' ∧
      Fails contextLine (n + lineCount before) set' p m := by
  induction h generalizing set with
  | nil n => simp [pure, Except.pure]
  | @cons n p parts s ss hp hline h ih =>
    rw [List.foldlM_cons]
    constructor
    · intro herror
      cases hs : absorb contextLine set (s.behind n) with
      | error e =>
        rw [hs] at herror
        cases herror
        exact ⟨[], p, parts, [], set, rfl, .nil, rfl, (fails_iff hp hline).mp hs⟩
      | ok set₁ =>
        rw [hs] at herror
        obtain ⟨before, q, after, cs, set', rfl, hcs, hset', hfails⟩ := ih.mp herror
        obtain ⟨c, hc, hset⟩ := (joins_iff hp).mp hs
        refine ⟨p :: before, q, after, c :: cs, set', rfl, .cons hc hcs, ?_, ?_⟩
        · rw [List.foldlM_cons, hset]
          exact hset'
        · rwa [lineCount_cons, ← Nat.add_assoc]
    · rintro ⟨before, q, after, cs, set', hparts, hcs, hset', hfails⟩
      cases before with
      | nil =>
        obtain ⟨rfl, rfl⟩ := List.cons.inj hparts
        obtain rfl := List.forall₂_nil_left_iff.mp hcs
        cases hset'
        have hs : absorb contextLine set (s.behind n) = .error m := (fails_iff hp hline).mpr hfails
        rw [hs]
        rfl
      | cons b before =>
        obtain ⟨rfl, rfl⟩ := List.cons.inj hparts
        obtain ⟨c, cs, hc, hbefore, rfl⟩ := List.forall₂_cons_left_iff.mp hcs
        rw [List.foldlM_cons] at hset'
        obtain ⟨set₁, hset, hset'⟩ := Option.bind_eq_some_iff.mp hset'
        have hs : absorb contextLine set (s.behind n) = .ok set₁ :=
          (joins_iff hp).mpr ⟨c, hc, hset⟩
        rw [hs]
        refine ih.mpr ⟨before, q, after, cs, set', rfl, hbefore, hset', ?_⟩
        rwa [lineCount_cons, ← Nat.add_assoc] at hfails

theorem lines_nil : lines [] = [] := rfl

theorem Parted.cons {u l start cs : List Char} (h : Parted (String.ofList cs) (lines start) parts)
    (htext : cs = start ++ parts.flatMap String.toList)
    (hstart : lines (u ++ start) = l :: lines start) (hall : lines (u ++ cs) = l :: lines cs) :
    ∃ (start' : List Char) (parts' : List String),
      u ++ cs = start' ++ parts'.flatMap String.toList ∧
      Parted (String.ofList (u ++ cs)) (lines start') parts' := by
  obtain ⟨hcut, hlead, hparts⟩ := h
  rw [String.toList_ofList] at hcut
  by_cases hmarker : startsWith marker l = true
  · refine ⟨[], String.ofList (u ++ start) :: parts, by simp [htext], ⟨?_, ?_, ?_⟩⟩
    · rw [String.toList_ofList, hall, hcut, lines_nil, List.flatMap_cons, String.toList_ofList,
        hstart]
      rfl
    · exact List.forall_mem_nil _
    · refine List.forall_mem_cons.mpr ⟨⟨l, lines start, ?_, hmarker, hlead⟩, hparts⟩
      rw [String.toList_ofList, hstart]
  · refine ⟨u ++ start, parts, by rw [htext, List.append_assoc], ⟨?_, ?_, hparts⟩⟩
    · rw [String.toList_ofList, hall, hcut, hstart]
      rfl
    · rw [hstart]
      exact List.forall_mem_cons.mpr ⟨Bool.eq_false_iff.mpr hmarker, hlead⟩

/-- Every text is what stands before its first marker and its parts behind one another. -/
theorem exists_parted (text : String) : ∃ (start : List Char) (parts : List String),
    text.toList = start ++ parts.flatMap String.toList ∧ Parted text (lines start) parts := by
  suffices h : ∀ {ls : List (List Char)} {cs : List Char}, Written ls cs →
      ∃ (start : List Char) (parts : List String), cs = start ++ parts.flatMap String.toList ∧
        Parted (String.ofList cs) (lines start) parts by
    obtain ⟨ls, hwritten⟩ := exists_written text.toList
    rw [← String.ofList_toList (s := text)]
    simpa using h hwritten
  have hnil : Parted (String.ofList []) (lines []) [] :=
    ⟨rfl, List.forall_mem_nil _, List.forall_mem_nil _⟩
  intro ls cs hwritten
  induction hwritten with
  | nil => exact ⟨[], [], rfl, hnil⟩
  | @last l hl hne =>
    have hlines : lines (l ++ []) = l :: lines [] := by
      rw [List.append_nil, lines_of_not_mem hl hne, lines_nil]
    have hparted := hnil.cons rfl hlines hlines
    rwa [List.append_nil] at hparted
  | @line l cs ls hl _ ih =>
    obtain ⟨start, parts, htext, h⟩ := ih
    have hlines : ∀ rest, lines (l ++ ['\n'] ++ rest) = dropReturn l :: lines rest := by
      intro rest
      rw [List.append_assoc, List.singleton_append, lines_append hl]
    have hparted := h.cons htext (hlines _) (hlines _)
    rwa [List.append_assoc, List.singleton_append] at hparted

/-- A document is its parts, read one by one and joined in order. -/
theorem document_by_parts (contextLine : Bool) (text : String) :
    (∃ (start : List Char) (parts : List String),
      text.toList = start ++ parts.flatMap String.toList ∧ Parted text (lines start) parts) ∧
    ∀ lead parts, Parted text lead parts →
      (∀ set, parse contextLine text = .ok set ↔
        ∃ cs, List.Forall₂ (ReadsAlone contextLine) parts cs ∧
          cs.foldlM DiffSet.absorb? .empty = some set) ∧
      (∀ set, parse contextLine text = .ok set →
        ∃ gs, List.Forall₂ (ReadsAlone contextLine) parts gs.flatten ∧
          List.Forall₂ DiffSet.Share gs set.entries) ∧
      ∀ m, parse contextLine text = .error m ↔ ∃ before p after cs set,
        parts = before ++ p :: after ∧ List.Forall₂ (ReadsAlone contextLine) before cs ∧
        cs.foldlM DiffSet.absorb? .empty = some set ∧
        Fails contextLine (lead.length + lineCount before) set p m := by
  refine ⟨exists_parted text, fun lead parts h => ?_⟩
  obtain ⟨ss, hss, hplaced⟩ := h.placed
  have hok : ∀ set, parse contextLine text = .ok set ↔
      ∃ cs, List.Forall₂ (ReadsAlone contextLine) parts cs ∧
        cs.foldlM DiffSet.absorb? .empty = some set := by
    intro set
    simp only [parse_eq_ok, hss, hplaced.reads]
  refine ⟨hok, fun set hset => ?_, fun m => ?_⟩
  · obtain ⟨cs, hcs, hfold⟩ := (hok set).mp hset
    obtain ⟨gs, rfl, hgs⟩ := DiffSet.foldlM_absorb?.mp hfold
    exact ⟨gs, hcs, hgs⟩
  · rw [parse, hss]
    exact hplaced.foldlM_error

/-- The changes joined so far and the open section with the lines that it has so far. -/
structure Scan where
  set : DiffSet
  opened : Option Section

namespace Scan

def close (contextLine : Bool) (r : Scan) : Except Malformed DiffSet :=
  match r.opened with
  | some s => absorb contextLine r.set s
  | none => .ok r.set

def feed (contextLine : Bool) (r : Scan) (l : Line) : Except Malformed Scan :=
  match after? marker l.text with
  | some names => do
    let set ← r.close contextLine
    let s : Section := ⟨l.number, names, []⟩
    let _ ← s.paths
    .ok ⟨set, some s⟩
  | none => .ok { r with opened := r.opened.map fun s => { s with body := s.body ++ [l] } }

def run (contextLine : Bool) (r : Scan) (ls : List Line) : Except Malformed DiffSet :=
  ls.foldlM (feed contextLine) r >>= close contextLine

def extend (r : Scan) (ls : List Line) : Scan :=
  { r with opened := r.opened.map fun s => { s with body := s.body ++ ls } }

theorem extend_nil (r : Scan) : r.extend [] = r := by
  obtain ⟨set, _ | s⟩ := r <;> simp [extend]

theorem extend_extend (r : Scan) (xs ys : List Line) :
    (r.extend xs).extend ys = r.extend (xs ++ ys) := by
  obtain ⟨set, _ | s⟩ := r <;> simp [extend]

theorem run_eq (r : Scan) (ls : List Line) : r.run contextLine ls =
    (r.extend (sections ls).1).close contextLine >>= fun set =>
      (sections ls).2.foldlM (absorb contextLine) set := by
  induction ls generalizing r with
  | nil =>
    rw [sections, extend_nil]
    exact (bind_pure _).symm
  | cons l ls ih =>
    rw [run, List.foldlM_cons, feed, sections]
    cases hnames : after? marker l.text with
    | none =>
      have hnext := ih (r.extend [l])
      rw [extend_extend] at hnext
      exact hnext
    | some names =>
      dsimp only
      rw [extend_nil]
      cases hclose : r.close contextLine with
      | error e => rfl
      | ok set =>
        cases hpaths : Section.paths ⟨l.number, names, []⟩ with
        | error e =>
          have hlead : Section.paths ⟨l.number, names, (sections ls).1⟩ = .error e := hpaths
          have habsorb : absorb contextLine set ⟨l.number, names, (sections ls).1⟩ = .error e := by
            rw [absorb, Section.read, hlead]
            rfl
          change Except.error e = absorb contextLine set _ >>= _
          rw [habsorb]
          rfl
        | ok p => exact ih ⟨set, some ⟨l.number, names, []⟩⟩

/-- Taking the lines one by one comes to cutting them first. -/
theorem run_eq_parse (contextLine : Bool) (text : String) :
    run contextLine ⟨.empty, none⟩ (number 1 (lines text.toList)) = parse contextLine text :=
  run_eq _ _

end Scan

end SourceDelta.Diff
