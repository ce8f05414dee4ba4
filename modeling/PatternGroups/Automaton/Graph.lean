import PatternGroups.Automaton
import PatternGroups.SymbolSet.Label

/-!
Automata as labelled graphs, for drawing.
-/

namespace PatternGroups

structure Graph.Node where
  state : State
  isStart : Bool
  accepts : List RuleId

structure Graph.Edge where
  source : State
  target : State
  label : String

structure Graph where
  nodes : List Graph.Node
  edges : List Graph.Edge

/-- The states in ascending order, and the edges with their labels in full or in short. -/
def Automaton.graph (m : Automaton) : Graph where
  nodes := m.states.map fun s => ⟨s, s = 0, m.ruleIds s⟩
  edges := m.edges.entries.map fun e => ⟨e.row, e.column, e.value.label⟩

end PatternGroups
