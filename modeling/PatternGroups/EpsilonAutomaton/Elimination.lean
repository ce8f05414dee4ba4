import PatternGroups.EpsilonAutomaton
import PatternGroups.Automaton.Trim

/-!
Elimination of ε-edges: a state takes over the edges and marks of all states that ε-edges lead to
from it. All of them are taken from the automaton as it was.
-/

namespace PatternGroups.EpsilonAutomaton

/-- The states with ε-edges, each with another state that they lead to. -/
def bypasses (m : EpsilonAutomaton) : List (State × State) :=
  m.jumps.rowKeys.flatMap fun s =>
    ((m.closure (.singleton s m.states)).members.filter (· ≠ s)).map (s, ·)

/-- The edges that states take over. -/
def inheritedEdges (m : EpsilonAutomaton) : List (State × State × SymbolSet) :=
  m.bypasses.flatMap fun (s, reached) => (m.edges.row reached).map (s, ·)

/-- The marks that states take over. -/
def inheritedMarks (m : EpsilonAutomaton) : List (State × RuleId) :=
  m.bypasses.flatMap fun (s, reached) => (m.accepts.idsOf reached).map (s, ·)

/-- The automaton without ε-edges, before states are dropped. -/
def bypassed (m : EpsilonAutomaton) : Automaton where
  edges := m.edges.joinAll m.inheritedEdges
  accepts := m.inheritedMarks.foldl (fun marks e => marks.mark e.1 e.2) m.accepts
  rules := m.rules

def eliminate (m : EpsilonAutomaton) : Automaton := m.bypassed.trim

end PatternGroups.EpsilonAutomaton
