import PatternGroups.Decimal.Shortest
import PatternGroups.IndexedTable
import PatternGroups.Numbering
import PatternGroups.Regex.SyntaxError
import PatternGroups.Text.Braced

/-!
Why a request is refused.
-/

namespace PatternGroups

/-- What is wrong with an automaton that is not in order. -/
inductive Defect where
  /-- The edges by sources and the edges by targets are not the same. -/
  | edges (cause : IndexedTable.Mismatch State State)
  /-- The marks by states and the marks by ids are not the same. -/
  | marks (cause : IndexedTable.Mismatch State RuleId)
  /-- The ids that occur are not those of the rules. -/
  | ruleIds (present : List RuleId) (rules : Nat)
  | emptyEdge (source target : State)
  /-- A state without outgoing edges that accepts nothing. -/
  | leadsNowhere (state : State)
  /-- A state without incoming edges. -/
  | neverEntered (state : State)
  /-- States that are not the numbers below their count. -/
  | numbering (states : Nat)
deriving DecidableEq

/-- What is wrong with the settings of a request. -/
inductive Misfit where
  | coefficient (value : Float)
  /-- Too few strings for two parts of the least size. -/
  | split (strings least : Nat)
  | sizes (least most : Nat)

/-- Why a request has no answer. -/
inductive Refusal where
  /-- A regex, by its position, that has no syntax tree. -/
  | regex (index : Nat) (text : String) (cause : SyntaxError)
  /-- A state entered by edges with different labels. -/
  | notHomogeneous (state : State)
  | defect (cause : Defect)
  | misfit (cause : Misfit)

def Defect.message : Defect → String
  | edges cause => cause.message
  | marks cause => (cause.mapColumns RuleId.description).message
  | ruleIds present rules => s!"accept ids {Text.braced present} do not match {rules} rules"
  | emptyEdge source target => s!"empty edge {source} -> {target}"
  | leadsNowhere state => s!"state {state} leads nowhere"
  | neverEntered state => s!"state {state} is never entered"
  | numbering states => s!"{states} states are not numbered 0..{states}"

def Misfit.message : Misfit → String
  | coefficient value =>
    s!"DFA coefficient must be a non-negative number, got {Decimal.floatText value}"
  | split strings least => s!"cannot split {strings} strings into two parts of at least {least}"
  | sizes least most =>
    s!"part sizes must satisfy 1 <= max and 2 * min <= max, got min {least}, max {most}"

def Refusal.message : Refusal → String
  | regex index text cause => s!"regex #{index} `{text}`: {cause.message}"
  | notHomogeneous state => s!"state {state} has incoming edges with different character sets"
  | defect cause => s!"invariant violated: {cause.message}"
  | misfit cause => s!"invalid configuration: {cause.message}"

end PatternGroups
