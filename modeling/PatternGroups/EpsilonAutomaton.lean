import PatternGroups.Edges
import PatternGroups.Search

/-!
Nondeterministic automata with ε-edges. An automaton reads symbols from state 0 on, and finds every
rule that some state accepts on the way.
-/

namespace PatternGroups

structure EpsilonAutomaton where
  edges : Edges
  /-- The ε-edges. -/
  jumps : SparseTable State State Unit
  accepts : Marks
  rules : Nat
  /-- The number of states; the states are the numbers below it. -/
  states : Nat

namespace EpsilonAutomaton

/-- An automaton with one state more, and that state. -/
def fresh (m : EpsilonAutomaton) : State × EpsilonAutomaton :=
  (m.states, { m with states := m.states + 1 })

def join (source target : State) (label : SymbolSet) (m : EpsilonAutomaton) : EpsilonAutomaton :=
  { m with edges := m.edges.join source target label }

/-- Adds an ε-edge. None leads from a state to itself. -/
def jump (source target : State) (m : EpsilonAutomaton) : EpsilonAutomaton :=
  if source = target then m else { m with jumps := m.jumps.insert source target () }

/-- The states one ε-edge after a state. -/
def jumpTargets (m : EpsilonAutomaton) (s : State) : List State :=
  (m.jumps.row s).map Prod.fst

/-- The states of a set, and all that ε-edges lead to from them. -/
def closure (m : EpsilonAutomaton) (S : BitSet) : BitSet :=
  S.insertAll (Search.reach m.jumpTargets (S.size + m.states) S.members)

/-- The states entered from a set on a symbol, closed under ε-edges. -/
def step (m : EpsilonAutomaton) (S : BitSet) (code : Nat) : BitSet :=
  m.closure ((BitSet.empty m.states).insertAll (S.members.flatMap (m.edges.successors code)))

def initial (m : EpsilonAutomaton) : BitSet :=
  m.closure (.singleton 0 m.states)

def idsOf (m : EpsilonAutomaton) (S : BitSet) : List RuleId :=
  S.members.flatMap m.accepts.idsOf

/-- The rules found while symbols are read, at any position. -/
def run (m : EpsilonAutomaton) (codes : List Nat) : List RuleId :=
  Ascending.ofList (idsFound m.step m.idsOf m.initial codes)

end EpsilonAutomaton

end PatternGroups
