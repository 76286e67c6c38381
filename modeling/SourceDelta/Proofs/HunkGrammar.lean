import SourceDelta.Proofs.Expansion
import SourceDelta.Proofs.Translation

/-!
# The grammar of hunks

A hunk is its header and the shortest stretch of lines after it with as many old
and as many new lines as the header declares. A section is read when each of its
headers is followed by such a stretch, and its runs hold the lines of all of them
behind their gaps, in order and nothing else.
-/

set_option autoImplicit false

namespace SourceDelta.Diff
open SourceDelta.Text

def mark (l : Line) : Option Char := l.text.head?

def noteMark : Option Char := some '\\'

/-- The marks of the lines in a hunk. An empty line has none. -/
def hunkMarks : List (Option Char) := [none, some '+', some '-', some ' ', noteMark]

def oldMarks : List (Option Char) := [none, some '-', some ' ']

def newMarks : List (Option Char) := [none, some '+', some ' ']

/-- The lines are so many old and so many new ones, with notes among them. -/
structure Fills (old new : Nat) (p : List Line) : Prop where
  marked : ∀ l ∈ p, mark l ∈ hunkMarks
  old : p.countP (mark · ∈ oldMarks) = old
  new : p.countP (mark · ∈ newMarks) = new

/-- The shortest stretch at the start of the lines that fills the counts. -/
structure Stretch (old new : Nat) (ls p : List Line) : Prop where
  start : p <+: ls
  fills : Fills old new p
  shortest : ∀ q, q <+: ls → Fills old new q → p.length ≤ q.length

def kindOf : Option Char → LineKind
  | some '+' => .added
  | some '-' => .deleted
  | _ => .unmodified

/-- The lines of a stretch but the notes, without their marks. -/
def spelled (p : List Line) : List (LineKind × List Char) :=
  (p.filter (mark · ≠ noteMark)).map fun l => (kindOf (mark l), l.text.tail)

/-- The hunk that the block holds: its header and its shortest stretch. -/
structure Block.Holds (b : Block) (h : Hunk) : Prop where
  header : HunkHeader.ofLine? b.line.text = some h.header
  body : ∃ p, Stretch h.header.oldCount.toNat h.header.newCount.toNat b.rest p ∧ h.body = spelled p

def Block.Filled (b : Block) : Prop :=
  ∃ header p, HunkHeader.ofLine? b.line.text = some header ∧ p <+: b.rest ∧
    Fills header.oldCount.toNat header.newCount.toNat p

/-- The lines are a lead and blocks, each from one header line up to the next. -/
structure Cut (ls lead : List Line) (bs : List Block) : Prop where
  lines : ls = lead ++ bs.flatMap fun b => b.line :: b.rest
  lead : ∀ l ∈ lead, startsWith "@@".toList l.text = false
  first : ∀ b ∈ bs, startsWith "@@".toList b.line.text = true
  rest : ∀ b ∈ bs, ∀ l ∈ b.rest, startsWith "@@".toList l.text = false

variable {old new n : Nat} {l : Line} {ls lead p q : List Line} {k : LineKind} {t : List Char}
  {b : Block} {bs : List Block} {h : Hunk} {hs : List Hunk} {s : Section} {c : FileChange}
  {truncated : Nat → Nat → Malformed} {body : List (LineKind × List Char)} {unended : Bool}
  {contextLine : Bool} {inSection : Option Nat} {sectionLine : Nat} {cs : List Char}

theorem bind_eq_ok {ε α β : Type} {x : Except ε α} {f : α → Except ε β} {r : β} :
    x >>= f = .ok r ↔ ∃ a, x = .ok a ∧ f a = .ok r := by
  cases x <;> simp [bind, Except.bind]

theorem toOption_eq_some {ε α : Type} {x : Except ε α} {a : α} :
    x.toOption = some a ↔ x = .ok a := by
  cases x <;> simp [Except.toOption]

theorem startsWith_note : startsWith ['\\'] l.text = true ↔ mark l = noteMark := by
  rw [startsWith_iff, mark, noteMark, List.head?_eq_some_iff]
  rfl

theorem bodyLine?_eq_none (h : bodyLine? l.text = none) (hnote : mark l ≠ noteMark) :
    mark l ∉ hunkMarks := by
  obtain ⟨n, t⟩ := l
  cases t with
  | nil => cases h
  | cons c cs =>
    simp only [bodyLine?] at h
    split_ifs at h with hp hm hs
    have hb : c ≠ '\\' := fun hc => hnote (congrArg some hc)
    simp [mark, hunkMarks, noteMark, hp, hm, hs, hb]

structure Marked (l : Line) (k : LineKind) (t : List Char) : Prop where
  kind : k = kindOf (mark l)
  text : t = l.text.tail
  inHunk : mark l ∈ hunkMarks
  noNote : mark l ≠ noteMark
  old : k.inOld = decide (mark l ∈ oldMarks)
  new : k.inNew = decide (mark l ∈ newMarks)

theorem marked_of_bodyLine? (h : bodyLine? l.text = some (k, t)) : Marked l k t := by
  obtain ⟨n, text⟩ := l
  cases text with
  | nil =>
    cases h
    exact ⟨rfl, rfl, by simp [mark, hunkMarks], by simp [mark, noteMark], rfl, rfl⟩
  | cons c cs =>
    simp only [bodyLine?] at h
    split_ifs at h with hp hm hs
    all_goals
      subst c
      cases h
      exact ⟨rfl, rfl, by simp [mark, hunkMarks], by simp [mark, noteMark],
        by simp [mark, oldMarks, LineKind.inOld], by simp [mark, newMarks, LineKind.inNew]⟩

theorem fills_note (hnote : mark l = noteMark) : Fills old new (l :: p) ↔ Fills old new p := by
  have hold : ¬ mark l ∈ oldMarks := by rw [hnote]; decide
  have hnew : ¬ mark l ∈ newMarks := by rw [hnote]; decide
  have hin : mark l ∈ hunkMarks := by rw [hnote]; decide
  constructor
  · rintro ⟨hmarked, ho, hn⟩
    rw [List.countP_cons_of_neg (by simpa using hold)] at ho
    rw [List.countP_cons_of_neg (by simpa using hnew)] at hn
    exact ⟨fun x hx => hmarked x (List.mem_cons_of_mem _ hx), ho, hn⟩
  · rintro ⟨hmarked, ho, hn⟩
    refine ⟨List.forall_mem_cons.mpr ⟨hin, hmarked⟩, ?_, ?_⟩
    · rwa [List.countP_cons_of_neg (by simpa using hold)]
    · rwa [List.countP_cons_of_neg (by simpa using hnew)]

theorem fills_line (hl : Marked l k t) : Fills old new (l :: p) ↔
    ((k.inOld && old == 0) || (k.inNew && new == 0)) = false ∧
      Fills (if k.inOld then old - 1 else old) (if k.inNew then new - 1 else new) p := by
  have hside : ∀ {b : Bool} {x y : Nat}, x + (if b = true then 1 else 0) = y ↔
      (b && y == 0) = false ∧ x = if b then y - 1 else y := by
    intro b x y
    cases b
    · simp
    · simp only [if_true, Bool.true_and, beq_eq_false_iff_ne]
      omega
  rw [Bool.or_eq_false_iff]
  constructor
  · rintro ⟨hmarked, ho, hn⟩
    rw [List.countP_cons, ← hl.old, hside] at ho
    rw [List.countP_cons, ← hl.new, hside] at hn
    exact ⟨⟨ho.1, hn.1⟩, fun x hx => hmarked x (List.mem_cons_of_mem _ hx), ho.2, hn.2⟩
  · rintro ⟨⟨ho, hn⟩, hmarked, ho', hn'⟩
    refine ⟨List.forall_mem_cons.mpr ⟨hl.inHunk, hmarked⟩, ?_, ?_⟩
    · rw [List.countP_cons, ← hl.old, hside]
      exact ⟨ho, ho'⟩
    · rw [List.countP_cons, ← hl.new, hside]
      exact ⟨hn, hn'⟩

theorem fills_nil : Fills 0 0 [] := ⟨by simp, rfl, rfl⟩

theorem Fills.ne_nil (h : Fills old new p) (hsome : ¬ (old = 0 ∧ new = 0)) : p ≠ [] := by
  rintro rfl
  exact hsome ⟨h.old.symm, h.new.symm⟩

theorem stretch_nil (ls : List Line) : Stretch 0 0 ls [] :=
  ⟨List.nil_prefix, fills_nil, fun _ _ _ => Nat.zero_le _⟩

theorem Stretch.cons {old' new' : Nat} (h : Stretch old' new' ls p)
    (hsome : ¬ (old = 0 ∧ new = 0)) (hfills : ∀ q, Fills old new (l :: q) ↔ Fills old' new' q) :
    Stretch old new (l :: ls) (l :: p) := by
  refine ⟨(List.prefix_cons_inj l).mpr h.start, (hfills p).mpr h.fills, fun q hq hqf => ?_⟩
  cases q with
  | nil => exact absurd rfl (hqf.ne_nil hsome)
  | cons x q =>
    obtain ⟨rfl, hrest⟩ := List.cons_prefix_cons.mp hq
    exact Nat.succ_le_succ (h.shortest q hrest ((hfills q).mp hqf))

theorem Stretch.eq_nil (h : Stretch 0 0 ls p) : p = [] :=
  List.length_eq_zero_iff.mp (Nat.le_zero.mp (h.shortest [] List.nil_prefix fills_nil))

theorem exists_readBody (hp : p <+: ls) (hf : Fills old new p) (truncated : Nat → Nat → Malformed) :
    ∃ r, readBody truncated old new ls = .ok r := by
  induction ls generalizing old new p with
  | nil =>
    rw [List.prefix_nil.mp hp] at hf
    exact ⟨_, if_pos ⟨hf.old.symm, hf.new.symm⟩⟩
  | cons l ls ih =>
    rw [readBody]
    by_cases hnote : mark l = noteMark
    · rw [if_pos (startsWith_note.mpr hnote)]
      have hrest : ∃ q, q <+: ls ∧ Fills old new q := by
        cases p with
        | nil => exact ⟨[], List.nil_prefix, hf⟩
        | cons x p =>
          obtain ⟨rfl, hrest⟩ := List.cons_prefix_cons.mp hp
          exact ⟨p, hrest, (fills_note hnote).mp hf⟩
      obtain ⟨q, hq, hqf⟩ := hrest
      obtain ⟨r, hr⟩ := ih hq hqf
      rw [hr]
      exact ⟨_, rfl⟩
    · rw [if_neg (mt startsWith_note.mp hnote)]
      split_ifs with hdone
      · exact ih List.nil_prefix fills_nil
      · obtain ⟨x, p, rfl⟩ := List.exists_cons_of_ne_nil (hf.ne_nil hdone)
        obtain ⟨rfl, hstart⟩ := List.cons_prefix_cons.mp hp
        cases hl : bodyLine? x.text with
        | none => exact absurd (hf.marked x List.mem_cons_self) (bodyLine?_eq_none hl hnote)
        | some kt =>
          obtain ⟨hroom, hrest⟩ := (fills_line (marked_of_bodyLine? hl)).mp hf
          obtain ⟨r, hr⟩ := ih hstart hrest
          simp only [hroom, hr]
          exact ⟨_, rfl⟩

/-- What is read is the shortest stretch. -/
theorem stretch_of_readBody (h : readBody truncated old new ls = .ok (body, unended)) :
    ∃ p, Stretch old new ls p ∧ body = spelled p := by
  induction ls generalizing old new body unended with
  | nil =>
    rw [readBody] at h
    split at h
    next hdone =>
      obtain ⟨rfl, rfl⟩ := hdone
      cases h
      exact ⟨[], stretch_nil _, rfl⟩
    next => cases h
  | cons l ls ih =>
    by_cases hdone : old = 0 ∧ new = 0
    · -- Whatever follows is skipped, so it is read as the rest is.
      obtain ⟨rfl, rfl⟩ := hdone
      refine ⟨[], stretch_nil _, ?_⟩
      rw [readBody] at h
      split at h
      next =>
        obtain ⟨⟨body', u⟩, hrest, hr⟩ := bind_eq_ok.mp h
        cases hr
        obtain ⟨p, hp, rfl⟩ := ih hrest
        rw [hp.eq_nil]
      next =>
        obtain ⟨p, hp, rfl⟩ := ih h
        rw [hp.eq_nil]
    · rw [readBody] at h
      split at h
      next hnote =>
        obtain ⟨⟨body', u⟩, hrest, hr⟩ := bind_eq_ok.mp h
        cases hr
        obtain ⟨p, hp, rfl⟩ := ih hrest
        have hmark := startsWith_note.mp hnote
        refine ⟨l :: p, hp.cons hdone fun q => fills_note hmark, ?_⟩
        rw [spelled, spelled, List.filter_cons_of_neg (by simp [hmark])]
      next =>
        split at h
        next => cases h
        next k t hl =>
          split at h
          next => cases h
          next hroom =>
            obtain ⟨⟨body', u⟩, hrest, hr⟩ := bind_eq_ok.mp h
            cases hr
            obtain ⟨p, hp, rfl⟩ := ih hrest
            have hm := marked_of_bodyLine? hl
            refine ⟨l :: p, hp.cons hdone fun q => ?_, ?_⟩
            · rw [fills_line hm, and_iff_right (Bool.not_eq_true _ ▸ hroom)]
            · rw [spelled, spelled, List.filter_cons_of_pos (by simp [hm.noNote]), List.map_cons,
                ← hm.kind, ← hm.text]

theorem holds_of_ofBlock (hread : Hunk.ofBlock inSection b = .ok h) : b.Holds h := by
  rw [Hunk.ofBlock] at hread
  split at hread
  next => cases hread
  next header hheader =>
    obtain ⟨⟨body, u⟩, hbody, hr⟩ := bind_eq_ok.mp hread
    cases hr
    exact ⟨hheader, stretch_of_readBody hbody⟩

theorem exists_ofBlock (hb : b.Filled) (inSection : Option Nat) :
    ∃ h, Hunk.ofBlock inSection b = .ok h := by
  obtain ⟨header, p, hheader, hp, hf⟩ := hb
  obtain ⟨r, hr⟩ := exists_readBody hp hf fun old new =>
    ⟨b.line.number, .truncated old new inSection⟩
  rw [Hunk.ofBlock, hheader]
  simp only [hr]
  exact ⟨_, rfl⟩

theorem holds_of_ofBlocks (hread : Hunk.ofBlocks sectionLine bs = .ok hs) :
    List.Forall₂ Block.Holds bs hs := by
  induction bs generalizing hs with
  | nil =>
    cases hread
    exact .nil
  | cons b bs ih =>
    cases bs with
    | nil =>
      obtain ⟨h, hb, hr⟩ := bind_eq_ok.mp hread
      cases hr
      exact .cons (holds_of_ofBlock hb) .nil
    | cons b' bs =>
      rw [Hunk.ofBlocks] at hread
      · obtain ⟨h, hb, hr⟩ := bind_eq_ok.mp hread
        obtain ⟨hs', hbs, hr'⟩ := bind_eq_ok.mp hr
        cases hr'
        exact .cons (holds_of_ofBlock hb) (ih hbs)
      · exact List.cons_ne_nil _ _

theorem exists_ofBlocks (h : ∀ b ∈ bs, b.Filled) (sectionLine : Nat) :
    ∃ hs, Hunk.ofBlocks sectionLine bs = .ok hs := by
  induction bs with
  | nil => exact ⟨[], rfl⟩
  | cons b bs ih =>
    obtain ⟨hb, hbs⟩ := List.forall_mem_cons.mp h
    cases bs with
    | nil =>
      obtain ⟨h, hh⟩ := exists_ofBlock hb (some sectionLine)
      exact ⟨[h], by rw [Hunk.ofBlocks, hh]; rfl⟩
    | cons b' bs =>
      obtain ⟨h, hh⟩ := exists_ofBlock hb none
      obtain ⟨hs, hhs⟩ := ih hbs
      refine ⟨h :: hs, ?_⟩
      rw [Hunk.ofBlocks, hh, hhs]
      · rfl
      · exact List.cons_ne_nil _ _

theorem countP_spelled {side : LineKind → Bool} {marks : List (Option Char)}
    (hside : ∀ m ∈ hunkMarks, (side (kindOf m) && decide (m ≠ noteMark)) = decide (m ∈ marks))
    (hp : ∀ l ∈ p, mark l ∈ hunkMarks) :
    (spelled p).countP (side ·.1) = p.countP (mark · ∈ marks) := by
  rw [spelled, List.countP_map, List.countP_filter]
  refine List.countP_congr fun l hl => ?_
  rw [← hside _ (hp l hl)]
  rfl

theorem kindOf_ne_gap (m : Option Char) : kindOf m ≠ .gap := by
  unfold kindOf
  split <;> exact LineKind.noConfusion

theorem Block.Holds.balanced (hb : b.Holds h) : h.Balanced := by
  obtain ⟨p, hp, hbody⟩ := hb.body
  refine ⟨?_, ?_, ?_⟩
  · have hold : ∀ m ∈ hunkMarks,
        ((kindOf m).inOld && decide (m ≠ noteMark)) = decide (m ∈ oldMarks) := by decide
    rw [hbody, countP_spelled hold hp.fills.marked, hp.fills.old]
  · have hnew : ∀ m ∈ hunkMarks,
        ((kindOf m).inNew && decide (m ≠ noteMark)) = decide (m ∈ newMarks) := by decide
    rw [hbody, countP_spelled hnew hp.fills.marked, hp.fills.new]
  · intro l hl
    rw [hbody] at hl
    obtain ⟨x, -, rfl⟩ := List.mem_map.mp hl
    exact kindOf_ne_gap _

theorem balanced_of_ofBlocks (hread : Hunk.ofBlocks sectionLine bs = .ok hs) :
    ∀ h ∈ hs, h.Balanced := by
  intro h hh
  obtain ⟨b, -, hb⟩ := exists_of_forall₂ (List.Forall₂.flip (holds_of_ofBlocks hread)) hh
  exact Block.Holds.balanced hb

theorem blocks_flatMap (hfirst : ∀ b ∈ bs, startsWith "@@".toList b.line.text = true)
    (hrest : ∀ b ∈ bs, ∀ l ∈ b.rest, startsWith "@@".toList l.text = false) :
    blocks (bs.flatMap fun b => b.line :: b.rest) = ([], bs) := by
  induction bs with
  | nil => rfl
  | cons b bs ih =>
    obtain ⟨hb, hbs⟩ := List.forall_mem_cons.mp hfirst
    obtain ⟨hl, hls⟩ := List.forall_mem_cons.mp hrest
    rw [List.flatMap_cons, List.cons_append, blocks, blocks_append hl (ih hbs hls)]
    exact if_pos hb

theorem Cut.blocks (h : Cut ls lead bs) : Diff.blocks ls = (lead, bs) := by
  rw [h.lines]
  exact blocks_append h.lead (blocks_flatMap h.first h.rest)

theorem after?_subset {m rest : List Char} (h : after? m cs = some rest) : rest ⊆ cs := by
  rw [after?_eq_some.mp h]
  exact List.subset_append_right _ _

theorem range?_subset {start count : UInt32} {rest : List Char}
    (h : HunkHeader.range? cs = some (start, count, rest)) : rest ⊆ cs := by
  have hdrop : ∀ xs : List Char, xs.dropWhile isDigit ⊆ xs := fun xs =>
    (List.dropWhile_sublist isDigit).subset
  rw [HunkHeader.range?] at h
  obtain ⟨a, -, h⟩ := Option.bind_eq_some_iff.mp h
  split at h
  next more hmore =>
    obtain ⟨b, -, h⟩ := Option.bind_eq_some_iff.mp h
    cases h
    have hsub := hdrop cs
    rw [hmore] at hsub
    exact List.Subset.trans (hdrop more) (List.Subset.trans (List.subset_cons_self _ _) hsub)
  next =>
    cases h
    exact hdrop cs

theorem context_subset {header : HunkHeader} (h : HunkHeader.ofLine? cs = some header) :
    header.context ⊆ cs := by
  rw [HunkHeader.ofLine?] at h
  obtain ⟨xs, hxs, h⟩ := Option.bind_eq_some_iff.mp h
  obtain ⟨⟨oldStart, oldCount, ys⟩, hys, h⟩ := Option.bind_eq_some_iff.mp h
  obtain ⟨zs, hzs, h⟩ := Option.bind_eq_some_iff.mp h
  obtain ⟨⟨newStart, newCount, us⟩, hus, h⟩ := Option.bind_eq_some_iff.mp h
  obtain ⟨vs, hvs, h⟩ := Option.bind_eq_some_iff.mp h
  have hcontext : (after? [' '] vs).getD vs ⊆ vs := by
    cases hvs' : after? [' '] vs with
    | none => exact List.Subset.refl _
    | some ws => exact after?_subset hvs'
  have htail : vs ⊆ cs := calc
    vs ⊆ us := after?_subset hvs
    _ ⊆ zs := range?_subset hus
    _ ⊆ ys := after?_subset hzs
    _ ⊆ xs := range?_subset hys
    _ ⊆ cs := after?_subset hxs
  dsimp only at h
  split at h
  next =>
    cases h
    exact List.Subset.trans hcontext htail
  next => cases h

theorem newline_not_mem_lines (h : cs ∈ Text.lines t) : '\n' ∉ cs := by
  have hpieces : ∀ ps : List (List Char), (∀ p ∈ ps, '\n' ∉ p) → cs ∈ ofPieces ps → '\n' ∉ cs := by
    intro ps hps hcs
    fun_induction ofPieces ps with
    | case1 => cases hcs
    | case2 => cases hcs
    | case3 p => exact hps cs hcs
    | case4 p ps _ _ ih =>
      rcases List.mem_cons.mp hcs with rfl | hcs
      · have hstart := dropReturn_prefix p
        exact fun hmem => hps p List.mem_cons_self (hstart.subset hmem)
      · exact ih (fun x hx => hps x (List.mem_cons_of_mem _ hx)) hcs
  exact hpieces _ (fun p hp => not_mem_of_mem_pieces hp) h

theorem mem_number {ts : List (List Char)} (h : l ∈ number n ts) : l.text ∈ ts := by
  induction ts generalizing n with
  | nil => cases h
  | cons t ts ih =>
    rcases List.mem_cons.mp h with rfl | h
    · exact List.mem_cons_self
    · exact List.mem_cons_of_mem _ (ih h)

theorem mem_sections (hl : l ∈ (sections ls).1 ∨ ∃ s ∈ (sections ls).2, l ∈ s.body) : l ∈ ls := by
  induction ls with
  | nil =>
    rcases hl with hl | ⟨s, hs, -⟩
    · cases hl
    · cases hs
  | cons x ls ih =>
    rw [sections] at hl
    dsimp only at hl
    split at hl
    next =>
      rcases hl with hl | ⟨s, hs, hl⟩
      · cases hl
      · rcases List.mem_cons.mp hs with rfl | hs
        · exact List.mem_cons_of_mem _ (ih (.inl hl))
        · exact List.mem_cons_of_mem _ (ih (.inr ⟨s, hs, hl⟩))
    next =>
      rcases hl with hl | hl
      · rcases List.mem_cons.mp hl with rfl | hl
        · exact List.mem_cons_self
        · exact List.mem_cons_of_mem _ (ih (.inl hl))
      · exact List.mem_cons_of_mem _ (ih (.inr hl))

theorem newline_not_mem_body {text : List Char}
    (hs : s ∈ (sections (number n (Text.lines text))).2) : ∀ l ∈ s.body, '\n' ∉ l.text :=
  fun _ hl => newline_not_mem_lines (mem_number (mem_sections (.inr ⟨s, hs, hl⟩)))

theorem Block.Holds.unbroken (hb : b.Holds h) (hlines : ∀ l ∈ b.line :: b.rest, '\n' ∉ l.text) :
    h.Unbroken := by
  obtain ⟨hline, hrest⟩ := List.forall_mem_cons.mp hlines
  refine ⟨fun hmem => hline (context_subset hb.header hmem), fun l hl => ?_⟩
  obtain ⟨p, hp, hbody⟩ := hb.body
  rw [hbody] at hl
  obtain ⟨x, hx, rfl⟩ := List.mem_map.mp hl
  have hx' : x ∈ b.rest := hp.start.subset (List.mem_of_mem_filter hx)
  exact fun hmem => hrest x hx' (List.mem_of_mem_tail hmem)

namespace Section

def header (s : Section) (oldPath newPath : String) : FileChange :=
  readHeader oldPath (.plain newPath .modification) (blocks s.body).1

end Section

def withHunks (contextLine : Bool) (c : FileChange) (hs : List Hunk) : FileChange :=
  { c with
    runs := Hunk.allRuns contextLine 0 hs
    noTrailingNewline := hs.any (·.unended) }

theorem read_eq_ok : s.read contextLine = .ok c ↔ ∃ old new, s.paths = .ok (old, new) ∧
    if (s.header old new).binary then c = s.header old new
    else ∃ hs, Hunk.ofBlocks s.line (blocks s.body).2 = .ok hs ∧
      c = withHunks contextLine (s.header old new) hs := by
  rw [Section.read, bind_eq_ok]
  constructor
  · rintro ⟨⟨old, new⟩, hpaths, h⟩
    refine ⟨old, new, hpaths, ?_⟩
    rw [Section.header]
    dsimp only at h
    split at h
    next hbinary =>
      cases h
      rw [if_pos hbinary]
    next hbinary =>
      obtain ⟨hs, hhunks, hr⟩ := bind_eq_ok.mp h
      cases hr
      rw [if_neg hbinary]
      exact ⟨hs, hhunks, rfl⟩
  · rintro ⟨old, new, hpaths, h⟩
    refine ⟨(old, new), hpaths, ?_⟩
    rw [Section.header] at h
    dsimp only
    split at h
    next hbinary => rw [if_pos hbinary, h]
    next hbinary =>
      obtain ⟨hs, hhunks, rfl⟩ := h
      rw [if_neg hbinary, hhunks]
      rfl

end SourceDelta.Diff
