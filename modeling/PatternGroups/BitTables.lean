import PatternGroups.Automaton

/-!
Bit tables of homogeneous automata. Which states a symbol may enter does not depend on where an edge
comes from, so a step is the union of the states that follow, limited to those that the symbol may
enter. States and symbols outside of the tables have no answer.
-/

namespace PatternGroups

/-- Tables of the states below `size`. -/
structure BitTables where
  size : Nat
  /-- The targets of the edges that leave each state. -/
  follow : Array BitSet
  /-- The sources of the edges that enter each state. -/
  precede : Array BitSet
  /-- The label of the edges that enter each state. -/
  labels : Array SymbolSet
  accepts : Array (List RuleId)
  /-- The states that each symbol may enter. -/
  symbolMasks : Array BitSet
  /-- The states with a mark. -/
  acceptMask : BitSet

namespace BitTables

/-- The label of the edges into a state, if they have one in common. -/
def labelOf (m : Automaton) (s : State) : SymbolSet :=
  ((m.incoming s).head?.map Prod.snd).getD ∅

/-- The tables of an automaton that is homogeneous and numbered without gaps. -/
def tabulate (m : Automaton) : BitTables :=
  let size := m.stateCount
  let empty := BitSet.empty size
  let labels := (Array.range size).map (labelOf m)
  { size
    follow := (Array.range size).map fun s => empty.insertAll (m.targets s)
    precede := (Array.range size).map fun s => empty.insertAll (m.sources s)
    labels
    accepts := (Array.range size).map m.ruleIds
    symbolMasks := (Array.range 257).map fun code =>
      empty.insertAll ((List.range size).filter fun s => (labels[s]?.getD ∅).contains code)
    acceptMask := empty.insertAll m.accepts.rowKeys }

def ofAutomaton? (m : Automaton) : Except Refusal BitTables :=
  match m.mixedState? with
  | some s => .error (.notHomogeneous s)
  | none =>
    if m.firstUnused ≠ m.stateCount then .error (.defect (.numbering m.stateCount))
    else .ok (tabulate m)

def initial (t : BitTables) : BitSet := .singleton 0 t.size

/-- The union of a table's rows over the states of a set. -/
def unionOf? (t : BitTables) (rows : Array BitSet) (S : BitSet) : Option BitSet :=
  S.members.foldlM (fun T s => (rows[s]?).map (T ∪ ·)) (BitSet.empty t.size)

/-- The states one edge after some state of a set. -/
def successors? (t : BitTables) (S : BitSet) : Option BitSet := t.unionOf? t.follow S

/-- The states one edge before some state of a set. -/
def predecessors? (t : BitTables) (S : BitSet) : Option BitSet := t.unionOf? t.precede S

/-- The states entered from a set on a symbol. -/
def step? (t : BitTables) (S : BitSet) (code : Nat) : Option BitSet := do
  return (← t.successors? S) ∩ (← t.symbolMasks[code]?)

/-- A set with the states one edge before it. -/
def expand? (t : BitTables) (S : BitSet) : Option BitSet := (t.predecessors? S).map (· ∪ S)

/-- Expands a set until that changes nothing, not even the capacity. -/
def expandUpTo (t : BitTables) : (passes : Nat) → (S : BitSet) → Option BitSet
  | 0, S => some S
  | passes + 1, S => do
    let T ← t.expand? S
    if T = S then return S else t.expandUpTo passes T

/-- A set with all states that lead into it. The first pass may change the capacity alone, and the
last one changes nothing; each of the others adds a state. -/
def backClosure? (t : BitTables) (S : BitSet) : Option BitSet := t.expandUpTo (t.size + 2) S

/-- Whether no edge enters a set from outside. -/
def isBackClosed? (t : BitTables) (S : BitSet) : Option Bool :=
  (t.predecessors? S).map (·.isSubset S)

/-- The rules that some state of a set accepts. -/
def idsOf (t : BitTables) (S : BitSet) : List RuleId :=
  Ascending.ofList ((S ∩ t.acceptMask).members.flatMap fun s => (t.accepts[s]?).getD [])

/-- The sets active after each symbol. -/
def trace? (t : BitTables) : (S : BitSet) → (codes : List Nat) → Option (List BitSet)
  | _, [] => some []
  | S, code :: rest => do
    let next ← t.step? S code
    return next :: (← t.trace? next rest)

/-- The rules found while symbols are read, at any position. -/
def run? (t : BitTables) (codes : List Nat) : Option (List RuleId) := do
  let sets ← t.trace? t.initial codes
  return Ascending.ofList ((t.initial :: sets).flatMap t.idsOf)

/-- The symbol masks, each once. Symbols with one mask move every set to the same place. -/
def masks (t : BitTables) : List BitSet := t.symbolMasks.toList.eraseDups

end BitTables

end PatternGroups
