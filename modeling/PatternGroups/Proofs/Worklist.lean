import PatternGroups.Proofs.Members
import PatternGroups.Proofs.Sizes

/-!
# Trees worked off from a stack

Connectors follow the structure of trees. The same automaton comes of a loop over a stack of edges
that are still to be spelt out: one edge at a time is taken from the top, and replaced by others or
added. One repetition raises the lower bound and another lowers both, so that the loop ends for a
reason other than a bound that gets smaller: an edge is worked off, with all that comes of it, before
the ones below it, and this is what its connector does.

* `Pending.expand`: what becomes of one edge;
* `WorksOff`: how a stack is worked off; `WorksOff.unique`: only one automaton comes of it;
* `WorksOff.append`: what is on top is worked off first;
* `realizes_repeated`, `realizes_node`: an edge is worked off as its connector connects;
* `worksOff_ofRegexes_iff`: the trees of regexes;
* `worksOff_ofChains_iff`: several trees, and how many states they take.
-/

namespace PatternGroups

/-! ## Nodes and edges -/

/-- Nodes as they are made, of chains of such nodes: an upper bound is at least one. -/
inductive Node.Made : Node → Prop
  | ofSet (symbols : SymbolSet) (bounds : Bounds) : Node.Made (.ofSet symbols bounds)
  | ofAlternatives {alternatives : List Chain} (bounds : Bounds) :
      (∀ chain ∈ alternatives, chain ≠ []) →
      (∀ chain ∈ alternatives, ∀ node ∈ chain, Node.Made node) →
      Node.Made (.ofAlternatives alternatives bounds)

/-- A chain of nodes as they are made. -/
structure Chain.Made (chain : Chain) : Prop where
  nonempty : chain ≠ []
  nodes : ∀ node ∈ chain, node.Made

theorem Node.Made.positive {node : Node} (h : node.Made) : node.Positive := by
  induction h with
  | ofSet symbols bounds => exact .leaf bounds.positive_atLeastOne
  | ofAlternatives bounds _ _ inner => exact .group inner bounds.positive_atLeastOne

theorem Bounds.Positive.atLeastOne_eq {b : Bounds} (h : b.Positive) : b.atLeastOne = b := by
  obtain ⟨lower, _ | upper⟩ := b
  · rfl
  · have some := h.upper_ne_zero
    have least : max 1 upper = upper := by omega
    simp only [atLeastOne, Option.map_some, least]

/-- What is said of each node as it is made. -/
def Node.Fit : Node → Prop
  | leaf _ bounds => bounds.Positive
  | group alternatives bounds => (∀ chain ∈ alternatives, chain ≠ []) ∧ bounds.Positive

theorem Node.made_of_every {node : Node} (h : node.Every Fit) : node.Made := by
  induction h with
  | @leaf symbols bounds fit =>
    have same : Node.ofSet symbols bounds = leaf symbols bounds := by
      rw [Node.ofSet, fit.atLeastOne_eq]
    exact same ▸ Made.ofSet symbols bounds
  | @group alternatives bounds fit _ inner =>
    have same : Node.ofAlternatives alternatives bounds = group alternatives bounds := by
      rw [Node.ofAlternatives, fit.2.atLeastOne_eq]
    exact same ▸ Made.ofAlternatives bounds fit.1 inner

theorem Node.kept_fit : Kept Fit Bounds.Positive := by
  constructor
  · exact Bounds.positive_atLeastOne .once
  · exact Bounds.positive_atLeastOne .optional
  · intro node b fit _ hb _
    cases node with
    | leaf symbols _ => exact hb
    | group alternatives _ => exact ⟨fit.1, hb⟩
  · exact fun some hb _ _ => ⟨List.forall_mem_singleton.2 some, hb⟩
  · exact fun some hb => ⟨some, hb⟩

namespace Chain

/-- The tree of a regex is one of those that can be made. -/
theorem made_ofRegex {regex : String} {chain : Chain} (h : ofRegex? regex = .ok chain) :
    chain.Made := by
  have nonempty : chain ≠ [] := ne_nil_of_ofText? h
  obtain ⟨_, e, _, _, rfl⟩ := ofRegex?_cases h
  have fit : e.chain.Every Node.Fit :=
    Expr.every_chain Node.kept_fit (fun _ => Bounds.positive_atLeastOne .once)
      Bounds.positive_atLeastOne e
  exact ⟨nonempty, fun node hn => Node.made_of_every (fit node hn)⟩

theorem made_ofRegexes {regexes : List String} {chains : List Chain}
    (h : ofRegexes? regexes = .ok chains) : ∀ chain ∈ chains, chain.Made := by
  intro chain hc
  obtain ⟨regex, _, tree⟩ := exists_of_mem_ofRegexes h hc
  exact made_ofRegex tree

end Chain

/-- An edge to be spelt out: a node with a repetition leads from one state to another, and other
nodes follow. -/
structure Pending where
  source : State
  target : State
  node : Node
  bounds : Bounds
  rest : List Node

namespace Pending

/-- An edge for a node alone. -/
def single (source target : State) (node : Node) (bounds : Bounds) : Pending :=
  ⟨source, target, node, bounds, []⟩

/-- An edge for a chain. -/
def ofChain (source target : State) : Chain → List Pending
  | [] => []
  | node :: rest => [⟨source, target, node, node.bounds, rest⟩]

/-- What becomes of an edge for a node alone: edges that go on top of the stack, the first one on
top, and an automaton. -/
def expandAlone (source target : State) (node : Node) (bounds : Bounds) (m : EpsilonAutomaton) :
    List Pending × EpsilonAutomaton :=
  match bounds.upper, bounds.lower with
  | none, 0 =>
    let (looped, m) := m.fresh
    ([single looped looped node .once], (m.jump source looped).jump looped target)
  | none, 1 =>
    let (looped, m) := m.fresh
    ([single looped looped node .once, single looped target node .once], m.jump source looped)
  | none, 2 =>
    let (looped, m) := m.fresh
    ([single looped looped node .once, single looped target node .once,
      single source looped node .once], m)
  | upper, n + 2 =>
    let (middle, m) := m.fresh
    ([single middle target node .once, single source middle node ⟨n + 1, upper.map (· - 1)⟩], m)
  | some upper, 0 => ([single source target node ⟨1, some upper⟩], m.jump source target)
  | some (n + 2), 1 =>
    ([single source target node .once, single source target node ⟨2, some (n + 2)⟩], m)
  | some _, 1 =>
    match node with
    | .leaf symbols _ => ([], m.join source target symbols)
    | .group alternatives _ => (alternatives.reverse.flatMap (ofChain source target), m)

/-- What becomes of an edge. The nodes that follow get their own, below the others. -/
def expand (e : Pending) (m : EpsilonAutomaton) : List Pending × EpsilonAutomaton :=
  match e.rest with
  | [] => expandAlone e.source e.target e.node e.bounds m
  | rest =>
    let (middle, m) := m.fresh
    let (edges, m) := expandAlone e.source middle e.node e.bounds m
    (edges ++ ofChain middle e.target rest, m)

end Pending

namespace EpsilonAutomaton

open Pending

/-! ## The stack -/

/-- A stack of edges is worked off, the first one first, until none is left. -/
inductive WorksOff : List Pending → EpsilonAutomaton → EpsilonAutomaton → Prop
  | done {m : EpsilonAutomaton} : WorksOff [] m m
  | next {e : Pending} {pending : List Pending} {m result : EpsilonAutomaton} :
      WorksOff ((e.expand m).1 ++ pending) (e.expand m).2 result → WorksOff (e :: pending) m result

variable {m m' result : EpsilonAutomaton} {edges pending : List Pending}

theorem WorksOff.unique (h : WorksOff pending m result) (h' : WorksOff pending m m') :
    result = m' := by
  induction h with
  | done =>
    cases h' with
    | done => rfl
  | next _ ih =>
    cases h' with
    | next rest => exact ih rest

theorem WorksOff.append (h : WorksOff edges m m') (h' : WorksOff pending m' result) :
    WorksOff (edges ++ pending) m result := by
  induction h with
  | done => exact h'
  | next _ ih =>
    have rest := ih h'
    rw [List.append_assoc] at rest
    exact .next rest

/-! ## Repetitions -/

/-- An edge for a node alone is worked off as a connector connects. -/
def Realizes (node : Node) (bounds : Bounds) (K : Connector) : Prop :=
  ∀ s t m, WorksOff (expandAlone s t node bounds m).1 (expandAlone s t node bounds m).2 (K s t m)

section Copies
variable {node : Node} {once last : Connector}

theorem Realizes.single {bounds : Bounds} (h : Realizes node bounds once) (s t : State)
    (m : EpsilonAutomaton) : WorksOff [.single s t node bounds] m (once s t m) := by
  apply WorksOff.next
  rw [List.append_nil]
  exact h s t m

/-- One edge on top of another. -/
theorem Realizes.first {bounds : Bounds} (h : Realizes node bounds once) {s t : State}
    (h' : WorksOff pending (once s t m) result) :
    WorksOff (.single s t node bounds :: pending) m result :=
  (h.single s t m).append h'

theorem realizes_upTo (h : Realizes node .once once) (n : Nat) :
    Realizes node ⟨1, some (n + 1)⟩ (once.upTo n) := by
  induction n with
  | zero => exact h
  | succ n ih =>
    intro s t m
    apply h.first
    -- The rest has a lower bound of two, for the moment.
    apply WorksOff.next
    apply h.first
    exact ih.single _ _ _

theorem realizes_leading (h : Realizes node .once once) (n upper : Nat) :
    Realizes node ⟨n + 1, some upper⟩ (once.leading (once.upTo (upper - 1 - n)) n) := by
  induction n generalizing upper with
  | zero =>
    cases upper with
    | zero => exact h
    | succ upper => exact realizes_upTo h upper
  | succ n ih =>
    have fewer : upper - 1 - (n + 1) = upper - 1 - 1 - n := by omega
    intro s t m
    rw [fewer]
    apply h.first
    exact (ih (upper - 1)).single _ _ _

theorem realizes_repeated (h : Realizes node .once once) (b : Bounds) :
    Realizes node b (once.repeated b) := by
  obtain ⟨n, _ | upper⟩ := b
  · match n with
    | 0 => exact fun _ _ _ => h.single _ _ _
    | 1 => exact fun _ _ _ => h.first (h.single _ _ _)
    | n + 2 =>
      induction n with
      | zero => exact fun _ _ _ => h.first (h.first (h.single _ _ _))
      | succ n ih => exact fun _ _ _ => h.first (ih.single _ _ _)
  · match n with
    | 0 =>
      intro s t m
      exact (realizes_leading h 0 upper).single _ _ _
    | n + 1 => exact realizes_leading h n upper

end Copies

/-! ## Trees -/

mutual

theorem realizes_node (node : Node) (made : node.Made) :
    Realizes node node.bounds node.connect := by
  cases made with
  | ofSet symbols bounds =>
    have once : Realizes (.ofSet symbols bounds) .once
        fun source target m => m.join source target symbols := fun _ _ _ => .done
    rw [Node.ofSet, Node.connect]
    exact realizes_repeated once _
  | @ofAlternatives alternatives bounds nonempty made =>
    have once : Realizes (.ofAlternatives alternatives bounds) .once
        (connectAlternatives alternatives) := worksOff_alternatives alternatives nonempty made
    rw [Node.ofAlternatives, Node.connect]
    exact realizes_repeated once _

theorem worksOff_chain (chain : List Node) (nonempty : chain ≠ [])
    (made : ∀ node ∈ chain, node.Made) (s t : State) (m : EpsilonAutomaton) :
    WorksOff (ofChain s t chain) m (connectChain chain s t m) := by
  match chain with
  | [] => exact absurd rfl nonempty
  | [node] =>
    rw [connectChain]
    exact (realizes_node node (made node List.mem_cons_self)).single s t m
  | node :: next :: rest =>
    rw [List.forall_mem_cons] at made
    apply WorksOff.next
    rw [List.append_nil]
    apply (realizes_node node made.1 s m.states m.fresh.2).append
    exact worksOff_chain (next :: rest) (List.cons_ne_nil next rest) made.2 _ _ _

theorem worksOff_alternatives (alternatives : List (List Node))
    (nonempty : ∀ chain ∈ alternatives, chain ≠ [])
    (made : ∀ chain ∈ alternatives, ∀ node ∈ chain, node.Made) (s t : State)
    (m : EpsilonAutomaton) :
    WorksOff (alternatives.reverse.flatMap (ofChain s t)) m
      (connectAlternatives alternatives s t m) := by
  match alternatives with
  | [] =>
    rw [connectAlternatives]
    exact .done
  | chain :: rest =>
    rw [List.forall_mem_cons] at nonempty made
    rw [List.reverse_cons, List.flatMap_append, List.flatMap_singleton, connectAlternatives]
    apply (worksOff_alternatives rest nonempty.2 made.2 s t m).append
    exact worksOff_chain chain nonempty.1 made.1 s t _

end

/-- The edges for several trees, each to the accepting state of its rule, the last one on top. -/
def ruleEdges (chains : List Chain) : List Pending :=
  (chains.zip (List.range' 1 chains.length)).reverse.flatMap fun rule => ofChain 0 rule.2 rule.1

theorem worksOff_ruleEdges {chains : List Chain} (made : ∀ chain ∈ chains, chain.Made) :
    WorksOff (ruleEdges chains) (ofRules chains.length) (ofChains chains) := by
  have connected (rules : List (Chain × RuleId)) (hr : ∀ rule ∈ rules, rule.1.Made)
      (m : EpsilonAutomaton) :
      WorksOff (rules.reverse.flatMap fun rule => ofChain 0 rule.2 rule.1) m
        (rules.foldr (fun rule m => connectChain rule.1 0 rule.2 m) m) := by
    induction rules with
    | nil => exact .done
    | cons rule rest ih =>
      rw [List.forall_mem_cons] at hr
      rw [List.reverse_cons, List.flatMap_append, List.flatMap_singleton, List.foldr_cons]
      apply (ih hr.2).append
      exact worksOff_chain rule.1 hr.1.nonempty hr.1.nodes 0 rule.2 _
  exact connected _ (fun rule h => made rule.1 (List.of_mem_zip h).1) _

theorem worksOff_ruleEdges_iff {chains : List Chain} (made : ∀ chain ∈ chains, chain.Made) :
    WorksOff (ruleEdges chains) (ofRules chains.length) m ↔ m = ofChains chains := by
  have ends := worksOff_ruleEdges made
  constructor
  · exact fun h => h.unique ends
  · rintro rfl
    exact ends

/-- The edges for the trees of regexes are worked off to the end, and what comes of them is the
automaton of the regexes. -/
theorem worksOff_ofRegexes_iff {regexes : List String} {chains : List Chain}
    (trees : Chain.ofRegexes? regexes = .ok chains) :
    WorksOff (ruleEdges chains) (ofRules chains.length) m ↔ ofRegexes? regexes = .ok m := by
  have built : ofRegexes? regexes = .ok (ofChains chains) := by
    rw [ofRegexes?, trees]
    rfl
  rw [worksOff_ruleEdges_iff (Chain.made_ofRegexes trees), built, Except.ok.injEq, eq_comm]

/-- The edges for several trees are worked off to the end, with one result. It has a state to begin
in, and for each tree an accepting state and as many others as is the size of the tree. -/
theorem worksOff_ofChains_iff {chains : List Chain} (made : ∀ chain ∈ chains, chain.Made) :
    (∀ m, WorksOff (ruleEdges chains) (ofRules chains.length) m ↔ m = ofChains chains) ∧
      (ofChains chains).states = 1 + (chains.map fun chain => 1 + chain.size).sum := by
  constructor
  · exact fun m => worksOff_ruleEdges_iff made
  · apply states_ofChains
    exact fun chain hc node hn => ((made chain hc).nodes node hn).positive

/-- A repetition of three at least and one at most, of repetitions that match the empty text. -/
theorem worksOff_ofChains_nested : ∃ chain : Chain,
    chain = [.ofAlternatives [[.ofSet .full ⟨0, none⟩], [.ofSet .full ⟨1, some 4⟩,
      .ofAlternatives [[.ofSet .full ⟨4, none⟩]] ⟨0, some 2⟩]] ⟨3, some 1⟩,
      .ofSet .full ⟨0, some 0⟩] ∧ chain.Made ∧
      (∀ m, WorksOff (ruleEdges [chain]) (ofRules 1) m ↔ m = ofChains [chain]) ∧
        (ofChains [chain]).states = 50 := by
  have made : Chain.Made [.ofAlternatives [[.ofSet .full ⟨0, none⟩], [.ofSet .full ⟨1, some 4⟩,
      .ofAlternatives [[.ofSet .full ⟨4, none⟩]] ⟨0, some 2⟩]] ⟨3, some 1⟩,
      .ofSet .full ⟨0, some 0⟩] := by
    constructor
    · exact List.cons_ne_nil _ _
    · simp [Node.Made.ofSet, Node.Made.ofAlternatives]
  obtain ⟨ends, states⟩ := worksOff_ofChains_iff (List.forall_mem_singleton.2 made)
  refine ⟨_, rfl, made, ends, states.trans ?_⟩
  decide

end EpsilonAutomaton

end PatternGroups
