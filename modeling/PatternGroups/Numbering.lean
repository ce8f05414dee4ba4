/-!
How states and rules are numbered. The rule with index `i` has the id `i + 1`; the text of an id is
negative, so that it is not taken for a state.
-/

namespace PatternGroups

/-- The number of a state of an automaton. State 0 is the start. -/
abbrev State := Nat

/-- The number by which states are marked that accept a rule. -/
abbrev RuleId := Nat

namespace RuleId

/-- The id of a rule. Ids have 32 bits. -/
def ofIndex (index : Nat) : RuleId := (index + 1) % UInt32.size

/-- The rule of an id. -/
def index (id : RuleId) : Nat := id - 1

def text (id : RuleId) : String := s!"-{id}"

/-- The text of an id where it is a key of a table that is out of order. -/
def description (id : RuleId) : String := s!"AcceptId({id})"

end RuleId

end PatternGroups
