import Mathlib.Tactic.Ring
import PatternGroups.EpsilonAutomaton.Construction
import PatternGroups.Proofs.Trees

/-!
# How many states a tree takes

A connector takes as many fresh states wherever it connects. A repetition takes those of all its
copies, and some between the copies; how many copies there are is known from the bounds alone, and
may be more than the bounds allow: each occurrence that is allowed and not required may be the last,
and is there once to lead on and once to end.

* `Node.size`, `Chain.size`: sizes of trees, by recursion on nodes;
* `grows_unbounded`, `grows_bounded`: copies between the same end points;
* `grows_node`, `grows_chain`, `grows_alternatives`: every tree takes states for its size;
* `states_ofChains`: the automaton of several trees.
-/

namespace PatternGroups

/-! ## Sizes -/

namespace Bounds

/-- How many copies of what is repeated there are. -/
def copyCount (b : Bounds) : Nat :=
  match b.upper with
  | none => b.lower + 1
  | some upper =>
    if b.lower ≤ 1 then 2 * upper - 1
    else (b.lower - 1) + 2 * max 1 (upper - (b.lower - 1)) - 1

/-- How many states there are between the copies. -/
def jointCount (b : Bounds) : Nat :=
  match b.upper with
  | none => max 1 (b.lower - 1)
  | some upper =>
    if b.lower ≤ 1 then upper - 1
    else (b.lower - 1) + (max 1 (upper - (b.lower - 1)) - 1)

/-- The size of a repetition, from the size of what is repeated. -/
def size (b : Bounds) (inner : Nat) : Nat := b.jointCount + b.copyCount * inner

theorem size_unbounded (n i : Nat) : size ⟨n, none⟩ i = max 1 (n - 1) + (n + 1) * i := rfl

/-- What the counts are for an upper bound and a lower one that is positive. -/
theorem size_bounded (n i : Nat) {upper : Nat} (positive : upper ≠ 0) :
    size ⟨n + 1, some upper⟩ i = n * (i + 1) + (i + (upper - 1 - n) * (2 * i + 1)) := by
  have joints : jointCount ⟨n + 1, some upper⟩ = n + (upper - 1 - n) := by
    simp only [jointCount]
    split <;> omega
  have copies : copyCount ⟨n + 1, some upper⟩ = n + 2 * (upper - 1 - n) + 1 := by
    simp only [copyCount]
    split <;> omega
  rw [size, joints, copies]
  ring

end Bounds

mutual

/-- How many states a node takes between its end points. -/
def Node.size : Node → Nat
  | .leaf _ bounds => bounds.size 0
  | .group alternatives bounds => bounds.size (sizeOfAlternatives alternatives)

def sizeOfNodes : List Node → Nat
  | [] => 0
  | node :: rest => node.size + sizeOfNodes rest

def sizeOfAlternatives : List Chain → Nat
  | [] => 0
  | chain :: rest => (chain.length - 1 + sizeOfNodes chain) + sizeOfAlternatives rest

end

/-- How many states a chain takes between its end points: there is one between each two nodes. -/
def Chain.size (chain : Chain) : Nat := (chain.length - 1) + (chain.map Node.size).sum

theorem sizeOfNodes_eq (nodes : List Node) : sizeOfNodes nodes = (nodes.map Node.size).sum := by
  induction nodes with
  | nil => rfl
  | cons node rest ih => rw [sizeOfNodes, ih, List.map_cons, List.sum_cons]

theorem sizeOfAlternatives_eq (alternatives : List Chain) :
    sizeOfAlternatives alternatives = (alternatives.map Chain.size).sum := by
  induction alternatives with
  | nil => rfl
  | cons chain rest ih =>
    rw [sizeOfAlternatives, ih, sizeOfNodes_eq, List.map_cons, List.sum_cons, Chain.size]

theorem Node.size_group (alternatives : List Chain) (bounds : Bounds) :
    (group alternatives bounds).size = bounds.size (alternatives.map Chain.size).sum := by
  rw [size, sizeOfAlternatives_eq]

theorem Chain.size_cons_cons (node next : Node) (rest : Chain) :
    Chain.size (node :: next :: rest) = 1 + (node.size + Chain.size (next :: rest)) := by
  simp only [Chain.size, List.length_cons, List.map_cons, List.sum_cons]
  omega

namespace EpsilonAutomaton

/-! ## Connectors -/

/-- A connector takes a number of fresh states, whatever it connects. -/
def Grows (K : Connector) (n : Nat) : Prop :=
  ∀ s t m, (K s t m).states = m.states + n

theorem states_fresh (m : EpsilonAutomaton) : m.fresh.2.states = m.states + 1 := rfl

theorem states_jump (s t : State) (m : EpsilonAutomaton) : (m.jump s t).states = m.states := by
  unfold jump
  split <;> rfl

section Copies
variable {once last : Connector} {i k : Nat}

/-- Two connectors in a row, over a fresh state. -/
theorem states_inRow (hlast : Grows last k) (honce : Grows once i) (s t : State)
    (m : EpsilonAutomaton) :
    (last s m.states (once m.states t m.fresh.2)).states = m.states + (i + 1 + k) := by
  rw [hlast, honce, states_fresh]
  omega

theorem grows_leading (hlast : Grows last k) (honce : Grows once i) (n : Nat) :
    Grows (once.leading last n) (n * (i + 1) + k) := by
  induction n with
  | zero =>
    intro s t m
    rw [Nat.zero_mul, Nat.zero_add]
    exact hlast s t m
  | succ n ih =>
    intro s t m
    have grows : (once.leading last (n + 1) s t m).states = _ := states_inRow ih honce s t m
    rw [grows]
    ring

theorem grows_upTo (honce : Grows once i) (n : Nat) :
    Grows (once.upTo n) (i + n * (2 * i + 1)) := by
  induction n with
  | zero =>
    intro s t m
    rw [Nat.zero_mul, Nat.add_zero]
    exact honce s t m
  | succ n ih =>
    intro s t m
    have grows : (once.upTo (n + 1) s t m).states = _ := states_inRow ih honce s t (once s t m)
    rw [grows, honce]
    ring

theorem grows_star (honce : Grows once i) : Grows once.star (1 + i) := by
  intro s t m
  rw [Connector.star, honce, states_jump, states_jump, states_fresh, Nat.add_assoc]

theorem grows_plus (honce : Grows once i) : Grows once.plus (1 + 2 * i) := by
  intro s t m
  rw [Connector.plus, honce, honce, states_jump, states_fresh]
  ring

theorem grows_twoOrMore (honce : Grows once i) : Grows once.twoOrMore (1 + 3 * i) := by
  intro s t m
  rw [Connector.twoOrMore, honce, honce, honce, states_fresh]
  ring

theorem grows_unbounded (honce : Grows once i) (n : Nat) :
    Grows (once.repeated ⟨n, none⟩) (Bounds.size ⟨n, none⟩ i) := by
  rw [Bounds.size_unbounded]
  match n with
  | 0 =>
    have same : max 1 (0 - 1) + (0 + 1) * i = 1 + i := by simp
    rw [same]
    exact grows_star honce
  | 1 => exact grows_plus honce
  | n + 2 =>
    have grows := grows_leading (grows_twoOrMore honce) honce n
    have joints : max 1 (n + 2 - 1) = n + 1 := by omega
    have same : n * (i + 1) + (1 + 3 * i) = max 1 (n + 2 - 1) + (n + 2 + 1) * i := by
      rw [joints]
      ring
    rwa [same] at grows

theorem grows_bounded (honce : Grows once i) (n : Nat) {upper : Nat} (some : upper ≠ 0) :
    Grows (once.repeated ⟨n, .some upper⟩) (Bounds.size ⟨n, .some upper⟩ i) := by
  match n with
  | 0 =>
    intro s t m
    have same : Bounds.size ⟨0, .some upper⟩ i = Bounds.size ⟨1, .some upper⟩ i := rfl
    have grows := grows_upTo honce (upper - 1) s t (m.jump s t)
    rw [states_jump] at grows
    rw [same, Bounds.size_bounded 0 i some, Nat.zero_mul, Nat.zero_add]
    exact grows
  | n + 1 =>
    rw [Bounds.size_bounded n i some]
    exact grows_leading (grows_upTo honce _) honce n

theorem grows_repeated (honce : Grows once i) {b : Bounds} (positive : b.Positive) :
    Grows (once.repeated b) (b.size i) := by
  obtain ⟨n, _ | upper⟩ := b
  · exact grows_unbounded honce n
  · exact grows_bounded honce n positive.upper_ne_zero

end Copies

/-! ## Trees -/

mutual

theorem grows_node (node : Node) (positive : node.Positive) : Grows node.connect node.size := by
  cases node with
  | leaf symbols bounds =>
    cases positive with
    | leaf bound =>
      rw [Node.connect, Node.size]
      exact grows_repeated (fun _ _ _ => rfl) bound
  | group alternatives bounds =>
    cases positive with
    | group inner bound =>
      rw [Node.connect, Node.size_group]
      exact grows_repeated (grows_alternatives alternatives inner) bound

theorem grows_chain (chain : List Node) (positive : ∀ node ∈ chain, node.Positive) :
    Grows (connectChain chain) (Chain.size chain) := by
  match chain with
  | [] =>
    rw [connectChain]
    exact states_jump
  | [node] =>
    have alone : Chain.size [node] = node.size := by simp [Chain.size]
    rw [connectChain, alone]
    exact grows_node node (positive node List.mem_cons_self)
  | node :: next :: rest =>
    rw [List.forall_mem_cons] at positive
    have first := grows_node node positive.1
    have others := grows_chain (next :: rest) positive.2
    intro s t m
    rw [Chain.size_cons_cons]
    simp only [connectChain, others _ t, first s, states_fresh]
    omega

theorem grows_alternatives (alternatives : List (List Node))
    (positive : ∀ chain ∈ alternatives, ∀ node ∈ chain, node.Positive) :
    Grows (connectAlternatives alternatives) (alternatives.map Chain.size).sum := by
  match alternatives with
  | [] =>
    rw [connectAlternatives]
    exact fun _ _ _ => rfl
  | chain :: rest =>
    rw [List.forall_mem_cons] at positive
    have first := grows_chain chain positive.1
    have others := grows_alternatives rest positive.2
    intro s t m
    rw [List.map_cons, List.sum_cons]
    simp only [connectAlternatives, first s t, others s t]
    omega

end

theorem states_ofChains {chains : List Chain} (positive : ∀ chain ∈ chains, chain.Positive) :
    (ofChains chains).states = 1 + (chains.map fun chain => 1 + chain.size).sum := by
  have connected (ids : List RuleId) (chains : List Chain) (m : EpsilonAutomaton)
      (positive : ∀ chain ∈ chains, chain.Positive) (long : chains.length = ids.length) :
      ((chains.zip ids).foldr (fun rule m => connectChain rule.1 0 rule.2 m) m).states =
        m.states + (chains.map Chain.size).sum := by
    induction chains generalizing ids with
    | nil => rfl
    | cons chain rest ih =>
      cases ids with
      | nil => cases long
      | cons id ids =>
        rw [List.forall_mem_cons] at positive
        rw [List.zip_cons_cons, List.foldr_cons, grows_chain chain positive.1,
          ih ids positive.2 (Nat.succ.inj long), List.map_cons, List.sum_cons]
        omega
  have each : (chains.map fun chain => 1 + chain.size).sum =
      chains.length + (chains.map Chain.size).sum := by
    clear positive
    induction chains with
    | nil => rfl
    | cons chain rest ih =>
      simp only [List.map_cons, List.sum_cons, List.length_cons, ih]
      omega
  rw [ofChains, connected _ chains _ positive List.length_range'.symm, each]
  simp only [ofRules]
  omega

end EpsilonAutomaton

end PatternGroups
