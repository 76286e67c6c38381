import SourceDelta.Config
import SourceDelta.DiffSet
import SourceDelta.Text.WordChar

/-!
# Classifying and selecting changes

A classifier gives each change of a diff a verdict; what it cannot decide counts
as a variability change. A filter selects the paths to hand on, in the order of
the diff.
-/

set_option autoImplicit false

namespace SourceDelta
open SourceDelta.Text

def directives : List (List Char) :=
  ["if".toList, "ifdef".toList, "ifndef".toList, "elif".toList, "else".toList, "endif".toList]

def isConditional (line : List Char) : Bool :=
  match trimStart line with
  | '#' :: rest =>
    directives.any fun d =>
      match after? d (trimStart rest) with
      | some rest => wordEnds rest
      | none => false
  | _ => false

def isSymbolChar (c : Char) : Bool :=
  ('A' ≤ c && c ≤ 'Z') || ('a' ≤ c && c ≤ 'z') || ('0' ≤ c && c ≤ '9') || c = '_'

def symbolHere (cs : List Char) : Bool :=
  match after? "CONFIG_".toList cs with
  | some (c :: _) => isSymbolChar c
  | _ => false

/-- A word of the text, which stands after a word character or not, starts as a configuration
symbol. -/
def mentionsSymbol (inWord : Bool) : List Char → Bool
  | [] => false
  | c :: cs => (!inWord && symbolHere (c :: cs)) || mentionsSymbol (isWordChar c) cs

def bearsVariability (line : List Char) : Bool := isConditional line || mentionsSymbol false line

def isKconfig (path : String) : Bool :=
  startsWith "Kconfig".toList (lastPart '/' path.toList)

inductive Classifier
  | heuristic (files : List Glob)
  | disabled

namespace Classifier

def ofConfig (c : Config) : Except Config.Fault Classifier :=
  match c.classifier with
  | .heuristic => (Config.globs .variabilityFileGlobs c.variabilityFileGlobs).map .heuristic
  | .disabled => .ok .disabled

/-- The verdict on a change, none when its text is not known. -/
def classify? : Classifier → FileChange → Option Verdict
  | .disabled, _ => some .notAnalyzed
  | .heuristic files, c =>
    if !Glob.anyMatch files c.path then some .notAVariabilityFile
    else if c.binary then none
    else if c.kind ≠ .modification || isKconfig c.path then some .change
    else if c.changedTexts.any bearsVariability then some .change
    else some .noChange

def annotate (k : Classifier) (s : DiffSet) : DiffSet :=
  s.mapEntries (fun c => { c with verdict := (k.classify? c).getD .change }) fun _ => rfl

end Classifier

inductive Filter
  | all
  | changedOnly
  | globs (patterns : List Glob)
  | variability

namespace Filter

def ofKind (c : Config) : FilterKind → Except Config.Fault Filter
  | .all => .ok .all
  | .changedOnly => .ok .changedOnly
  | .glob => (Config.globs .filterGlobs c.filterGlobs).map .globs
  | .variability => .ok .variability

def ofConfig (c : Config) : Except Config.Fault Filter := ofKind c c.filter

/-- Whether the runs hold lines of a kind; a count that does not fit a word is no answer. -/
def hasLines? (p : LineKind → Bool) (runs : List Run) : Option Bool :=
  (Run.total? p runs).map (· ≠ 0)

/-- Whether the change is selected. Deletions and changes of permissions alone are no changed
content. -/
def selects? : Filter → FileChange → Option Bool
  | .all, _ => some true
  | .changedOnly, c =>
    match c.kind with
    | .addition => some true
    | .deletion => some false
    | .modification =>
      if c.binary then some true
      else do
        if ← hasLines? (· == .added) c.runs then some true
        else hasLines? (· == .deleted) c.runs
  | .globs patterns, c => some (Glob.anyMatch patterns c.path)
  | .variability, c => some (c.verdict = .change)

def select? (f : Filter) (s : DiffSet) : Option (List String) := do
  let chosen ← s.entries.filterM f.selects?
  some (chosen.map FileChange.path)

end Filter

end SourceDelta
