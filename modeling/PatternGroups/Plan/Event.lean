import PatternGroups.Automaton.Stages
import PatternGroups.BitTables.SubsetCount

/-!
What happens while a plan is made, as told in its log.
-/

namespace PatternGroups

namespace Plan

inductive Stage where
  | build
  | simplify
  | homogenize
  | renumber

inductive Event where
  /-- An automaton has reached a stage. -/
  | reached (stage : Stage) (automaton : Automaton)
  /-- More subsets than a budget allows have been found. -/
  | aborted (subsets budget : Nat)
  | joined (rule states subsets : Nat)
  | skipped (index : Nat) (regex : String) (cause : SyntaxError)
  /-- A group beyond the number of groups kept is given up. -/
  | demoted (rules states subsets : Nat)
  | group (number rules states subsets : Nat)
  | total (groups rules states subsets : Nat)
  | residual (automaton : Automaton)

inductive Level where
  | trace
  | debug
  | info
  | warn

def Level.text : Level → String
  | trace => "TRACE"
  | debug => "DEBUG"
  | info => "INFO"
  | warn => "WARN"

/-- The name of a stage, in ten columns. -/
def Stage.column : Stage → String
  | build => "build     "
  | simplify => "simplify  "
  | homogenize => "to_homo   "
  | renumber => "reorganize"

namespace Event

def level : Event → Level
  | reached .. | joined .. => .debug
  | aborted .. => .trace
  | skipped .. => .warn
  | demoted .. | group .. | total .. | residual .. => .info

def sizes (states subsets : Nat) : String :=
  s!"NFA states {states}, DFA states {subsets}"

def text : Event → String
  | reached stage automaton => s!"{stage.column} {automaton.text}"
  | aborted subsets budget =>
    s!"subset construction aborted: {subsets} states over a budget of Some({budget})"
  | joined rule states subsets => s!"regex #{rule} -> DFA group: {sizes states subsets}"
  | skipped index regex cause => s!"skipping regex #{index} `{regex}`: {cause.message}"
  | demoted rules states subsets =>
    s!"moving DFA group to NFA: {rules} regexes, {sizes states subsets}"
  | group number rules states subsets =>
    s!"DFA group #{number}: {rules} regexes, {sizes states subsets}"
  | total groups rules states subsets =>
    s!"{groups} DFA groups total: {rules} regexes, {sizes states subsets}"
  | residual automaton => s!"NFA group: {automaton.text}"

end Event

end Plan

open Plan in
/-- The log of an automaton's construction. -/
def Stages.log (s : Stages) : List Event :=
  [.reached .build s.built, .reached .simplify s.simplified, .reached .homogenize s.homogenized,
    .reached .simplify s.resimplified, .reached .renumber s.renumbered]

end PatternGroups
