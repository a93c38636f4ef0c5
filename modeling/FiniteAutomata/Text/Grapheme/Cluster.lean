import FiniteAutomata.Text.Grapheme.Class

/-!
# Grapheme clusters

What a reader takes for one character can be a cluster of several: a letter with its marks, a Hangul syllable, a flag, a
family of pictographs. `clusters` cuts a text into its extended grapheme clusters, by the rules GB3 to GB13 of the
Unicode text segmentation.
-/
namespace FiniteAutomata.Text

/-- What the text in front of a place says about a cluster boundary there. -/
structure ClusterContext where
  last : GraphemeClass
  /-- The number of regional indicators at the end is odd. -/
  oddIndicators : Bool
  /-- The end is a pictograph with extending characters, or this and a joiner. -/
  pictograph : Bool
  /-- The end is a consonant with characters that extend it. -/
  consonant : Bool
  /-- A linker is among the characters that extend the consonant. -/
  linked : Bool
  deriving DecidableEq, Repr

namespace ClusterContext

/-- In front of any text, where each character begins a cluster. -/
def start : ClusterContext := ⟨.control, false, false, false, false⟩

/-- Whether a character of class `next` belongs to the cluster in front of it. -/
def joins (before : ClusterContext) (next : GraphemeClass) : Bool :=
  match before.last, next with
  | .carriageReturn, .lineFeed => true
  | .carriageReturn, _ | .lineFeed, _ | .control, _ => false
  | _, .carriageReturn | _, .lineFeed | _, .control => false
  | _, .extend | _, .linker | _, .nonJoiner | _, .joiner | _, .spacingMark => true
  | .prepend, _ => true
  | .hangulLeading, .hangulLeading | .hangulLeading, .hangulVowel => true
  | .hangulLeading, .hangulOpen | .hangulLeading, .hangulClosed => true
  | .hangulOpen, .hangulVowel | .hangulOpen, .hangulTrailing => true
  | .hangulVowel, .hangulVowel | .hangulVowel, .hangulTrailing => true
  | .hangulClosed, .hangulTrailing | .hangulTrailing, .hangulTrailing => true
  | .joiner, .pictograph => before.pictograph
  | .regionalIndicator, .regionalIndicator => before.oddIndicators
  | _, .consonant => before.linked
  | _, _ => false

def after (before : ClusterContext) (next : GraphemeClass) : ClusterContext :=
  let base := { start with last := next }
  match next with
  | .regionalIndicator => { base with oddIndicators := !before.oddIndicators }
  | .pictograph => { base with pictograph := true }
  | .consonant => { base with consonant := true }
  | .extend | .linker | .joiner => { base with
      pictograph := before.pictograph && before.last != .joiner
      consonant := before.consonant
      linked := before.linked || (before.consonant && next == .linker) }
  | .nonJoiner => { base with pictograph := before.pictograph && before.last != .joiner }
  | _ => base

/-- The characters of a text, each with whether it belongs to the cluster in front of it. -/
def mark (before : ClusterContext) : List Char → List (Char × Bool)
  | [] => []
  | c :: rest =>
    let next := GraphemeClass.of c
    (c, before.joins next) :: mark (before.after next) rest

end ClusterContext

def clusters (s : List Char) : List (List Char) :=
  ((ClusterContext.start.mark s).splitBy fun _ next => next.2).map fun cluster => cluster.map (·.1)

end FiniteAutomata.Text
