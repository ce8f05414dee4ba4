import PatternGroups.Automaton
import PatternGroups.Search

/-!
Renumbering: the states accessible from state 0 get the numbers from 0 on, in breadth-first order,
and the others are dropped.
-/

namespace PatternGroups.Automaton

/-- The accessible states in breadth-first order, the targets of a state in ascending order. -/
def breadthFirst (m : Automaton) : List State :=
  Search.reach (fun s => Ascending.ofList (m.targets s)) (m.stateCount + 1) [0]

/-- The automaton with each listed state renamed to its position in the list, and no others. -/
def rename (m : Automaton) (order : List State) : Automaton :=
  { m with
    edges := .ofCells <| m.edges.entries.filterMap fun e => do
      return ⟨← order.idxOf? e.row, ← order.idxOf? e.column, e.value⟩
    accepts := .ofCells <| m.accepts.entries.filterMap fun e => do
      return ⟨← order.idxOf? e.row, e.column, e.value⟩ }

def renumber (m : Automaton) : Automaton := m.rename m.breadthFirst

end PatternGroups.Automaton
