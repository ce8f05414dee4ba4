import PatternGroups.EpsilonAutomaton.Construction
import PatternGroups.Proofs.Trees

/-!
# What connectors keep

Connectors change an automaton by three operations only: they add a fresh state, an ε-edge, or
symbols to an edge. Where they add edges, these lead to their target or to a state that was fresh on
the way. So whatever the three operations keep is kept by the connector of any tree.

* `Stable`: what the operations keep;
* `Stable.repeated`: copies between the same end points;
* `Stable.node`, `Stable.chain`, `Stable.alternatives`: trees;
* `Stable.ofChains`: the automaton of several trees.
-/

namespace PatternGroups

/-- A set in a leaf is of some kind. -/
def Node.HasKind (kind : SymbolSet → Prop) : Node → Prop
  | leaf symbols _ => kind symbols
  | group _ _ => True

theorem Node.Formed.every_hasKind {kind : SymbolSet → Prop} {node : Node} (h : node.Formed kind) :
    node.Every (HasKind kind) := by
  induction h with
  | leaf set _ => exact .leaf set
  | group _ _ _ inner => exact .group trivial inner

/-- What holds of any node holds of all nodes in one. -/
theorem Node.every_of_forall {p : Node → Prop} (h : ∀ node, p node) (node : Node) :
    node.Every p := by
  induction node using induct with
  | leaf => exact .leaf (h _)
  | group _ _ inner => exact .group (h _) inner

namespace EpsilonAutomaton

/-- What holds of automata still holds with a fresh state, and with more edges that lead to targets
of one kind and have labels of another. A fresh state is such a target. -/
structure Stable (P : EpsilonAutomaton → Prop) (target : State → Prop)
    (kind : SymbolSet → Prop) : Prop where
  fresh : ∀ {m}, P m → P m.fresh.2
  middle : ∀ {m}, P m → target m.states
  jump : ∀ {m s t}, P m → target t → P (m.jump s t)
  join : ∀ {m s t symbols}, P m → target t → kind symbols → P (m.join s t symbols)

/-- A connector keeps what holds of automata when it connects to targets of some kind. -/
def Keeps (P : EpsilonAutomaton → Prop) (target : State → Prop) (K : Connector) : Prop :=
  ∀ ⦃m⦄ (s t : State), P m → target t → P (K s t m)

namespace Stable

variable {P : EpsilonAutomaton → Prop} {target : State → Prop} {kind : SymbolSet → Prop}

section Copies
variable {once last : Connector} (h : Stable P target kind)

include h

/-- Two connectors in a row, over a fresh state; the second is there first. -/
theorem inRow (hlast : Keeps P target last) (honce : Keeps P target once) {m : EpsilonAutomaton}
    (s t : State) (hm : P m) (ht : target t) :
    P (last s m.states (once m.states t m.fresh.2)) :=
  hlast s _ (honce _ t (h.fresh hm) ht) (h.middle hm)

theorem leading (hlast : Keeps P target last) (honce : Keeps P target once) (n : Nat) :
    Keeps P target (once.leading last n) := by
  induction n with
  | zero => exact hlast
  | succ n ih => exact fun _ => h.inRow ih honce

theorem upTo (honce : Keeps P target once) (n : Nat) : Keeps P target (once.upTo n) := by
  induction n with
  | zero => exact honce
  | succ n ih =>
    intro m s t hm ht
    exact h.inRow ih honce s t (honce s t hm ht) ht

theorem star (honce : Keeps P target once) : Keeps P target once.star := by
  intro m s t hm ht
  have jumps : P ((m.fresh.2.jump s m.states).jump m.states t) :=
    h.jump (h.jump (h.fresh hm) (h.middle hm)) ht
  exact honce _ _ jumps (h.middle hm)

theorem plus (honce : Keeps P target once) : Keeps P target once.plus := by
  intro m s t hm ht
  have jumps : P (m.fresh.2.jump s m.states) := h.jump (h.fresh hm) (h.middle hm)
  exact honce _ t (honce _ _ jumps (h.middle hm)) ht

theorem twoOrMore (honce : Keeps P target once) : Keeps P target once.twoOrMore := by
  intro m s t hm ht
  have looped : P (once m.states m.states m.fresh.2) := honce _ _ (h.fresh hm) (h.middle hm)
  exact honce s _ (honce _ t looped ht) (h.middle hm)

theorem repeated (honce : Keeps P target once) (b : Bounds) :
    Keeps P target (once.repeated b) := by
  obtain ⟨n, _ | u⟩ := b
  · match n with
    | 0 => exact h.star honce
    | 1 => exact h.plus honce
    | n + 2 => exact h.leading (h.twoOrMore honce) honce n
  · match n with
    | 0 =>
      intro m s t hm ht
      exact h.upTo honce _ s t (h.jump hm ht) ht
    | n + 1 => exact h.leading (h.upTo honce _) honce n

end Copies

mutual

theorem node (h : Stable P target kind) (node : Node) (kinds : node.Every (Node.HasKind kind)) :
    Keeps P target node.connect := by
  cases node with
  | leaf symbols bounds =>
    cases kinds with
    | leaf set =>
      rw [Node.connect]
      exact h.repeated (fun _ _ _ hm ht => h.join hm ht set) bounds
  | group alternatives bounds =>
    cases kinds with
    | group _ inner =>
      rw [Node.connect]
      exact h.repeated (h.alternatives alternatives inner) bounds

theorem chain (h : Stable P target kind) (chain : List Node)
    (kinds : ∀ node ∈ chain, node.Every (Node.HasKind kind)) :
    Keeps P target (connectChain chain) := by
  match chain with
  | [] =>
    rw [connectChain]
    exact fun _ _ _ => h.jump
  | [node] =>
    rw [connectChain]
    exact h.node node (kinds node List.mem_cons_self)
  | first :: next :: rest =>
    rw [List.forall_mem_cons] at kinds
    intro m s t hm ht
    have before := h.node first kinds.1 s _ (h.fresh hm) (h.middle hm)
    exact h.chain (next :: rest) kinds.2 _ t before ht

theorem alternatives (h : Stable P target kind) (alternatives : List (List Node))
    (kinds : ∀ chain ∈ alternatives, ∀ node ∈ chain, node.Every (Node.HasKind kind)) :
    Keeps P target (connectAlternatives alternatives) := by
  match alternatives with
  | [] =>
    rw [connectAlternatives]
    exact fun _ _ _ hm _ => hm
  | first :: rest =>
    rw [List.forall_mem_cons] at kinds
    intro m s t hm ht
    exact h.chain first kinds.1 s t (h.alternatives rest kinds.2 s t hm ht) ht

end

/-- Each tree is connected to the accepting state of its rule. -/
theorem ofChains (h : Stable P target kind) {chains : List Chain}
    (kinds : ∀ chain ∈ chains, chain.Every (Node.HasKind kind))
    (start : P (ofRules chains.length)) (accepting : ∀ i, target (i + 1)) :
    P (EpsilonAutomaton.ofChains chains) := by
  have connected (rules : List (Chain × RuleId))
      (hr : ∀ rule ∈ rules, rule.1.Every (Node.HasKind kind) ∧ target rule.2) :
      P (rules.foldr (fun rule m => connectChain rule.1 0 rule.2 m) (ofRules chains.length)) := by
    induction rules with
    | nil => exact start
    | cons rule rest ih =>
      rw [List.forall_mem_cons] at hr
      exact h.chain rule.1 hr.1.1 0 rule.2 (ih hr.2) hr.1.2
  apply connected
  rintro ⟨chain, id⟩ rule
  obtain ⟨hc, hid⟩ := List.of_mem_zip rule
  have positive : id - 1 + 1 = id := Nat.sub_add_cancel (List.mem_range'_1.1 hid).1
  exact ⟨kinds chain hc, positive ▸ accepting (id - 1)⟩

end Stable

end EpsilonAutomaton

end PatternGroups
