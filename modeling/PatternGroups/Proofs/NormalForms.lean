import PatternGroups.Proofs.Members

/-!
# Trees in simplified form

Two simplifications are made while a tree is built: a lone alternative that is matched once joins the
chain around it, and a lone node that is matched once takes the repetition of the group around it.
Repetitions are given to nodes after they were built, so that a node could come to be one that is
left to simplify; it does not, since it takes a repetition only from a group that goes away.

* `Simplifies`: one simplification, anywhere in a tree;
* `not_simplifies_iff`: what a tree without any looks like, node by node;
* `Expr.irreducible_chain`: the tree of each expression;
* `simplified_ofRegex`: the tree of each regex.
-/

namespace PatternGroups

/-- One of the simplifications is possible somewhere in a chain, with some result. -/
inductive Chain.Simplifies : Chain → Chain → Prop
  /-- A lone alternative that is matched once joins the chain around it. -/
  | splice (before chain after : Chain) :
      Simplifies (before ++ .group [chain] .once :: after) (before ++ (chain ++ after))
  /-- A lone node that is matched once takes the repetition of the group around it. -/
  | takeOver (before : Chain) {node : Node} (bounds : Bounds) (after : Chain) :
      node.bounds = .once → Simplifies (before ++ .group [[node]] bounds :: after)
        (before ++ node.withBounds bounds :: after)
  | inside (before : Chain) (first : List Chain) {chain chain' : Chain} (last : List Chain)
      (bounds : Bounds) (after : Chain) :
      Simplifies chain chain' →
        Simplifies (before ++ .group (first ++ chain :: last) bounds :: after)
          (before ++ .group (first ++ chain' :: last) bounds :: after)

namespace Node

/-- A group of one alternative is repeated, and not in place of the only node in it. -/
def Irreducible : Node → Prop
  | leaf _ _ => True
  | group alternatives bounds => ∀ chain, alternatives = [chain] →
      bounds ≠ .once ∧ ∀ node, chain = [node] → node.bounds ≠ .once

theorem kept_irreducible : Kept Irreducible fun _ => True := by
  constructor
  · trivial
  · trivial
  · intro node b h once _ more
    cases node with
    | leaf symbols bounds => trivial
    | group alternatives bounds =>
      -- A group that was matched once has several alternatives, and keeps them.
      intro chain alone
      exact absurd once (h chain alone).1
  · intro chain b _ _ more other only same
    obtain rfl := List.singleton_inj.1 same
    exact ⟨more, other⟩
  · intro first second more b _ _ chain same
    cases same

end Node

namespace Chain

theorem every_irreducible_of_not (node : Node) {before after : Chain}
    (h : ∀ other, ¬Simplifies (before ++ node :: after) other) :
    node.Every Node.Irreducible := by
  induction node using Node.induct generalizing before after with
  | leaf symbols bounds => exact .leaf trivial
  | group alternatives bounds ih =>
    apply Node.Every.group
    · rintro chain rfl
      constructor
      · rintro rfl
        exact h _ (.splice before chain after)
      · rintro node rfl once
        exact h _ (.takeOver before bounds after once)
    · intro chain hc node hn
      obtain ⟨first, last, rfl⟩ := List.append_of_mem hc
      obtain ⟨before', after', rfl⟩ := List.append_of_mem hn
      apply ih _ hc node hn
      intro other step
      exact h _ (.inside before first last bounds after step)

theorem not_simplifies {chain other : Chain} (h : chain.Every Node.Irreducible) :
    ¬chain.Simplifies other := by
  intro step
  induction step with
  | splice before chain after =>
    cases h _ List.mem_append_cons_self with
    | group lone _ => exact (lone chain rfl).1 rfl
  | takeOver before bounds after once =>
    cases h _ List.mem_append_cons_self with
    | group lone _ => exact (lone _ rfl).2 _ rfl once
  | inside before first last bounds after _ ih =>
    cases h _ List.mem_append_cons_self with
    | group _ inner => exact ih (inner _ List.mem_append_cons_self)

/-- No simplification is possible anywhere in a chain exactly if none of its nodes, at any depth, is
one that a simplification starts from. -/
theorem not_simplifies_iff {chain : Chain} :
    (∀ other, ¬chain.Simplifies other) ↔ chain.Every Node.Irreducible := by
  constructor
  · intro h node hn
    obtain ⟨before, after, rfl⟩ := List.append_of_mem hn
    exact every_irreducible_of_not node h
  · exact fun h _ => not_simplifies h

end Chain

theorem Expr.irreducible_chain (e : Expr) : e.chain.Every Node.Irreducible :=
  every_chain Node.kept_irreducible (fun _ => trivial) (fun _ => trivial) e

namespace Chain

/-- In the tree of a regex all sets have members, all groups have alternatives, and a group of one
alternative is repeated, and has not just one node that is matched once. So no simplification is
possible anywhere in it. -/
theorem simplified_ofRegex {regex : String} {chain : Chain} (h : ofRegex? regex = .ok chain) :
    chain.Formed SymbolSet.Inhabited ∧ chain.Every Node.Irreducible ∧
      ∀ other, ¬chain.Simplifies other := by
  obtain ⟨_, e, _, _, rfl⟩ := ofRegex?_cases h
  have irreducible := e.irreducible_chain
  exact ⟨formed_ofRegex h, irreducible, not_simplifies_iff.2 irreducible⟩

/-- Repetitions of repetitions, and groups of one node. -/
theorem simplified_ofRegex_nested : ∃ chain,
    ofRegex? "((a)|(b+)?)*(((c)){2})+((d|))" = .ok chain ∧
      chain.Formed SymbolSet.Inhabited ∧ chain.Every Node.Irreducible ∧
        ∀ other, ¬chain.Simplifies other := by
  have parsed : (ofRegex? "((a)|(b+)?)*(((c)){2})+((d|))").isOk = true := by decide +kernel
  cases h : ofRegex? "((a)|(b+)?)*(((c)){2})+((d|))" with
  | error fault => rw [h] at parsed; cases parsed
  | ok chain => exact ⟨chain, rfl, simplified_ofRegex h⟩

end Chain

end PatternGroups
