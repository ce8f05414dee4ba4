import PatternGroups.BitTables

/-!
How many states the deterministic automaton has: the sets of states that are active after some
input, counted up to a budget.
-/

namespace PatternGroups

/-- The number of active sets found, and whether these are all. -/
structure SubsetCount where
  subsets : Nat
  complete : Bool
deriving DecidableEq, Inhabited

namespace SubsetCount

/-- Whether there are more sets than a budget allows. No budget allows any number. -/
def exceeds (budget : Option Nat) (subsets : Nat) : Bool :=
  budget.any (· < subsets)

/-- Adds the sets of a list that are not known yet to the known and to the pending ones. The count
ends as soon as more are known than the budget allows. -/
def discover (budget : Option Nat) (known pending : List BitSet) :
    (next : List BitSet) → Except SubsetCount (List BitSet × List BitSet)
  | [] => .ok (known, pending)
  | T :: next =>
    if T ∈ known then discover budget known pending next
    else if exceeds budget (known.length + 1) then .error ⟨known.length + 1, false⟩
    else discover budget (T :: known) (T :: pending) next

/-- Visits the pending sets, the last one discovered first, and discovers the sets active one symbol
later. Every set is visited at most once, so that a bound on the number of sets is a bound on the
visits. -/
def explore (t : BitTables) (masks : List BitSet) (budget : Option Nat) : (bound : Nat) →
    (known pending : List BitSet) → Option SubsetCount
  | _, known, [] => some ⟨known.length, true⟩
  | 0, _, _ :: _ => none
  | bound + 1, known, S :: pending =>
    match t.successors? S with
    | none => none
    | some T =>
      match discover budget known pending (masks.map (T ∩ ·)) with
      | .error count => some count
      | .ok (known, pending) => explore t masks budget bound known pending

/-- Counts the active sets, of those beyond a budget one. There are no more than subsets of states;
the count has no answer if it has to look up a state outside of the tables. -/
def count? (t : BitTables) (budget : Option Nat) : Option SubsetCount :=
  if exceeds budget 1 then some ⟨1, false⟩
  else explore t t.masks budget (1 <<< t.size) [t.initial] [t.initial]

/-- The count for tables with states, which have all states that are looked up. -/
def count (t : BitTables) (budget : Option Nat) : SubsetCount := (count? t budget).getD default

end SubsetCount

end PatternGroups
