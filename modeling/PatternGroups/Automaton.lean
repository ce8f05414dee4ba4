import PatternGroups.Edges
import PatternGroups.Refusal

/-!
Nondeterministic automata without ε-edges. A state is known to an automaton by its edges and marks.
An automaton is homogeneous if all edges into a state have one label.
-/

namespace PatternGroups

structure Automaton where
  edges : Edges
  accepts : Marks
  rules : Nat

namespace Automaton

/-- Every state with an edge or a mark, in ascending order. -/
def states (m : Automaton) : List State :=
  Ascending.ofList (m.edges.rowKeys ++ m.edges.columnKeys ++ m.accepts.rowKeys)

def stateCount (m : Automaton) : Nat := m.states.length

/-- The least number above all states. -/
def firstUnused (m : Automaton) : State :=
  m.states.foldl (fun bound s => max bound (s + 1)) 0

/-- The edges that leave a state, as targets and labels. -/
def outgoing (m : Automaton) (s : State) : List (State × SymbolSet) := m.edges.row s

/-- The edges that enter a state, as sources and labels. -/
def incoming (m : Automaton) (s : State) : List (State × SymbolSet) := m.edges.column s

def targets (m : Automaton) (s : State) : List State := (m.outgoing s).map Prod.fst

def sources (m : Automaton) (s : State) : List State := (m.incoming s).map Prod.fst

def ruleIds (m : Automaton) (s : State) : List RuleId := m.accepts.idsOf s

/-- Adds symbols to an edge. -/
def join (m : Automaton) (source target : State) (label : SymbolSet) : Automaton :=
  { m with edges := m.edges.join source target label }

/-- Adds marks to a state. -/
def markAll (m : Automaton) (s : State) (ids : List RuleId) : Automaton :=
  { m with accepts := ids.foldl (fun marks id => marks.mark s id) m.accepts }

/-- The part of an automaton on some of its states: edges between them, and their marks. -/
def restrict (m : Automaton) (alive : State → Bool) : Automaton :=
  { m with
    edges := m.edges.keep fun source target => alive source && alive target
    accepts := m.accepts.keep fun s _ => alive s }

def removeState (m : Automaton) (s : State) : Automaton :=
  m.restrict (· ≠ s)

/-- The states entered from some states on a symbol. -/
def step (m : Automaton) (active : List State) (code : Nat) : List State :=
  Ascending.ofList (active.flatMap (m.edges.successors code))

/-- The rules found while symbols are read from state 0 on, at any position. -/
def run (m : Automaton) (codes : List Nat) : List RuleId :=
  Ascending.ofList (idsFound m.step (·.flatMap m.ruleIds) [0] codes)

/-- Whether all edges have the label of the first. -/
def sameLabel : List (State × SymbolSet) → Bool
  | [] => true
  | (_, label) :: rest => rest.all (·.2 == label)

/-- The first state entered by edges with different labels. -/
def mixedState? (m : Automaton) : Option State :=
  m.edges.columnKeys.find? fun s => !sameLabel (m.incoming s)

def isHomogeneous (m : Automaton) : Bool := m.mixedState?.isNone

/-- What is wrong with one state: each has a way on or a mark, and a way in. -/
def stateDefect? (m : Automaton) (s : State) : Option Defect :=
  if !m.edges.hasRow s && !m.accepts.hasRow s then some (.leadsNowhere s)
  else if !m.edges.hasColumn s then some (.neverEntered s)
  else none

/-- The first thing that is wrong with an automaton: the two indexes of its edges agree, and those
of its marks, the ids that occur are those of the rules, no label is empty, and every state is in
order. -/
def defect? (m : Automaton) : Option Defect :=
  if let some cause := m.edges.index.mismatch? then some (.edges cause)
  else if let some cause := m.accepts.index.mismatch? then some (.marks cause)
  else
    let present := Ascending.ofList m.accepts.columnKeys
    if present ≠ List.range' 1 m.rules then some (.ruleIds present m.rules)
    else
      match m.edges.entries.find? (·.value.isEmpty) with
      | some e => some (.emptyEdge e.row e.column)
      | none => m.states.findSome? m.stateDefect?

/-- The sizes of an automaton, and whether it is homogeneous. -/
def text (m : Automaton) : String :=
  let sizes := s!"{m.rules} rules, {m.stateCount} states, {m.edges.size} transitions"
  s!"<NFA: {sizes}, homo={m.isHomogeneous}>"

end Automaton

end PatternGroups
