import PatternGroups.Automaton

/-!
Merging of states. Two states entered by the same edges are active together, and two states that
lead to the same edges and accept the same rules have the same future. The state with the lower
number stays, so that state 0 is never merged away.
-/

namespace PatternGroups.Automaton

/-- Whether two lists of pairs are the same as sets. -/
def sameEntries {κ ν : Type} [DecidableEq κ] [DecidableEq ν] (l k : List (κ × ν)) : Bool :=
  l.all (k.contains ·) && k.all (l.contains ·)

/-- Edges into a state, with one from `second` counted as one from `first`. -/
def foldSource (first second : State) (incoming : List (State × SymbolSet)) :
    List (State × SymbolSet) :=
  match incoming.lookup second with
  | none => incoming
  | some label =>
    let others := incoming.filter (·.1 ≠ second)
    (first, (others.lookup first).elim label (· ∪ label)) :: others.filter (·.1 ≠ first)

/-- Whether two states can be merged at all: they differ, and both are entered. -/
def mergeable (m : Automaton) (n₁ n₂ : State) : Bool :=
  n₁ ≠ n₂ && m.edges.hasColumn n₁ && m.edges.hasColumn n₂

/-- Whether two states are entered by the same edges, up to edges from one or the other. -/
def sameIncoming (m : Automaton) (n₁ n₂ : State) : Bool :=
  sameEntries (foldSource n₁ n₂ (m.incoming n₁)) (foldSource n₁ n₂ (m.incoming n₂))

/-- Whether two states have the same future. -/
def sameOutgoing (m : Automaton) (n₁ n₂ : State) : Bool :=
  sameEntries ((m.ruleIds n₁).map (·, ())) ((m.ruleIds n₂).map (·, ())) &&
    sameEntries (m.outgoing n₁) (m.outgoing n₂)

/-- Merges the second state into the first if they are entered by the same edges: the first takes
over edges and marks that leave the second. -/
def mergeSameIncoming? (m : Automaton) (n₁ n₂ : State) : Option Automaton :=
  if m.mergeable n₁ n₂ && m.sameIncoming n₁ n₂ then
    let joined := { m with edges := m.edges.joinAll ((m.outgoing n₂).map (n₁, ·)) }
    some ((joined.markAll n₁ (m.ruleIds n₂)).removeState n₂)
  else none

/-- Merges the second state into the first if they have the same future and all edges into either
have one label: the first takes over the edges into the second. -/
def mergeSameOutgoing? (m : Automaton) (n₁ n₂ : State) : Option Automaton :=
  if m.mergeable n₁ n₂ && m.sameOutgoing n₁ n₂ &&
      sameLabel (m.incoming n₁ ++ m.incoming n₂) then
    let redirected := (m.incoming n₂).map fun (source, label) => (source, n₁, label)
    some ({ m with edges := m.edges.joinAll redirected }.removeState n₂)
  else none

/-- Merges whatever pairs of some states can be merged, in order. -/
def mergeAmong (rule : Automaton → State → State → Option Automaton) (siblings : List State)
    (m : Automaton) : Automaton :=
  siblings.foldl (fun m n₁ =>
    siblings.foldl (fun m n₂ => if n₁ < n₂ then (rule m n₁ n₂).getD m else m) m) m

/-- Merges states entered from a common state by the same edges. -/
def mergeCoEntered (m : Automaton) : Automaton :=
  m.edges.rowKeys.foldl (fun m s => mergeAmong mergeSameIncoming? (m.targets s) m) m

/-- Merges states that accept a common rule and have the same future. -/
def mergeCoAccepting (m : Automaton) : Automaton :=
  m.accepts.columnKeys.foldl
    (fun m id => mergeAmong mergeSameOutgoing? ((m.accepts.column id).map Prod.fst) m) m

/-- Merges states that lead to a common state and have the same future. -/
def mergeCoLeading (m : Automaton) : Automaton :=
  m.edges.columnKeys.foldl (fun m s => mergeAmong mergeSameOutgoing? (m.sources s) m) m

/-- Repeats a pass while it removes states, at most `bound` times. -/
def settle (pass : Automaton → Automaton) : (bound : Nat) → Automaton → Automaton
  | 0, m => m
  | n + 1, m =>
    let merged := pass m
    if merged.stateCount < m.stateCount then settle pass n merged else merged

/-- Repeats a pass until it merges nothing more. -/
def exhaust (pass : Automaton → Automaton) (m : Automaton) : Automaton :=
  settle pass (m.stateCount + 1) m

/-- Merges states, by each of the three rules in turn. -/
def simplify (m : Automaton) : Automaton :=
  exhaust mergeCoLeading (exhaust mergeCoAccepting (exhaust mergeCoEntered m))

end PatternGroups.Automaton
