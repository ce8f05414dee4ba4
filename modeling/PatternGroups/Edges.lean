import PatternGroups.Ascending
import PatternGroups.BitSet
import PatternGroups.SparseTable
import PatternGroups.SymbolSet

/-!
What automata are made of: labelled edges, and marks on the states that accept a rule.
-/

namespace PatternGroups

/-- The label of each edge, by source and target. -/
abbrev Edges := SparseTable State State SymbolSet

/-- The rules that each state accepts. -/
abbrev Marks := SparseTable State RuleId Unit

namespace SparseTable

/-- Adds symbols to an edge. -/
def join (edges : Edges) (source target : State) (label : SymbolSet) : Edges :=
  edges.insert source target ((edges.get? source target).elim label (· ∪ label))

/-- Adds symbols to several edges, one after the other. -/
def joinAll (edges : Edges) (added : List (State × State × SymbolSet)) : Edges :=
  added.foldl (fun edges e => edges.join e.1 e.2.1 e.2.2) edges

/-- The states that a state leads to on a symbol. -/
def successors (edges : Edges) (code : Nat) (source : State) : List State :=
  (edges.row source).filterMap fun e => if e.2.contains code then some e.1 else none

def mark (marks : Marks) (state : State) (id : RuleId) : Marks :=
  marks.insert state id ()

/-- The rules that a state accepts, in order. -/
def idsOf (marks : Marks) (state : State) : List RuleId :=
  (marks.row state).map Prod.fst

end SparseTable

/-- All ids found by a simulation that starts at `current` and reads symbols one by one. -/
def idsFound {σ : Type} (step : σ → Nat → σ) (ids : σ → List RuleId) (current : σ) :
    (codes : List Nat) → List RuleId
  | [] => ids current
  | code :: rest => ids current ++ idsFound step ids (step current code) rest

end PatternGroups
