import PatternGroups.Automaton
import PatternGroups.Search

/-!
Pruning: states that no input reaches, or from which no rule is found, are dropped.
-/

namespace PatternGroups.Automaton

/-- The states that some seeds lead to, along edges or against them. -/
def reach (m : Automaton) (next : State → List State) (seeds : List State) : List State :=
  Search.reach next (seeds.length + m.stateCount) seeds

/-- The states accessible from state 0. -/
def accessible (m : Automaton) : List State := m.reach m.targets [0]

/-- The states that lead to a mark. -/
def coaccessible (m : Automaton) : List State := m.reach m.sources m.accepts.rowKeys

/-- Keeps the states that are accessible and coaccessible, and state 0 in any case. -/
def trim (m : Automaton) : Automaton :=
  let accessible := m.accessible
  let coaccessible := m.coaccessible
  m.restrict fun s => s = 0 || accessible.contains s && coaccessible.contains s

end PatternGroups.Automaton
