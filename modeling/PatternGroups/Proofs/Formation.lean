import PatternGroups.Proofs.Connectors
import PatternGroups.Proofs.Elimination
import PatternGroups.Proofs.Matching
import PatternGroups.Proofs.Members
import PatternGroups.Proofs.Order

/-!
# Automata of trees are in order

State 0 has a loop, so that it is entered and left, and any other state that trimming leaves has a
way in and a way out. A rule has a mark since its tree has a word: a text that is this word finds
it.

* `stable_labelled`: connectors add no label without members;
* `exists_mark_eliminate_iff`: the rules with marks;
* `inOrder_eliminate`, `connected_eliminate`: the automaton without ε-edges.
-/

namespace PatternGroups.EpsilonAutomaton

variable {m : EpsilonAutomaton} {rules : Nat}

/-! ## Labels -/

/-- What holds throughout the construction: each label has a member, and state 0 reads at least the
border and stays. -/
structure Labelled (rules : Nat) (m : EpsilonAutomaton) : Prop where
  count : m.rules = rules
  labels : m.edges.Obeys fun _ _ label => label.Inhabited
  loop : m.edges.Leads 0 Symbol.border 0

theorem stable_labelled (rules : Nat) :
    Stable (Labelled rules) (fun _ => True) SymbolSet.Inhabited := by
  constructor
  · exact fun h => ⟨h.count, h.labels, h.loop⟩
  · exact fun _ => trivial
  · intro m s t h _
    unfold EpsilonAutomaton.jump
    split
    · exact h
    · exact ⟨h.count, h.labels, h.loop⟩
  · intro m s t symbols h _ inhabited
    exact ⟨h.count, h.labels.join SparseTable.closedUnderUnion_inhabited inhabited,
      SparseTable.leads_join.2 (.inl h.loop)⟩

theorem contains_full_border : SymbolSet.full.contains Symbol.border = true := by
  rw [SymbolSet.contains_full]
  exact decide_eq_true Symbol.border.isLt

theorem labelled_ofRules (n : Nat) : Labelled n (ofRules n) := by
  refine ⟨rfl, ?_, SparseTable.leads_join.2 (.inr ⟨rfl, rfl, contains_full_border⟩)⟩
  have none : SparseTable.Obeys (SparseTable.empty : Edges) fun _ _ label => label.Inhabited :=
    fun _ _ _ he => by cases he
  exact none.join SparseTable.closedUnderUnion_inhabited ⟨_, contains_full_border⟩

variable {chains : List Chain}

theorem labelled_ofChains (formed : ∀ chain ∈ chains, chain.Formed SymbolSet.Inhabited) :
    Labelled chains.length (ofChains chains) := by
  refine (stable_labelled _).ofChains ?_ (labelled_ofRules _) fun _ => trivial
  exact fun chain hc node hn => (formed chain hc node hn).every_hasKind

/-! ## Elimination -/

theorem labels_eliminate (h : Labelled rules m) :
    m.eliminate.edges.Obeys fun _ _ label => label.Inhabited := by
  have inherited : ∀ e ∈ m.inheritedEdges, e.2.2.Inhabited := by
    intro e he
    simp only [inheritedEdges, List.mem_flatMap, List.mem_map, Prod.exists,
      SparseTable.mem_row] at he
    obtain ⟨_, r, _, t, label, edge, rfl⟩ := he
    exact h.labels edge
  have bypassed := h.labels.joinAll SparseTable.closedUnderUnion_inhabited inherited
  exact bypassed.keep _

/-- Trimming leaves state 0 its loop. -/
theorem edge_eliminate_zero (h : Labelled rules m) (hm : m.WellFormed) : m.eliminate.Edge 0 0 := by
  have loop : m.bypassed.Edge 0 0 :=
    Automaton.edge_of_leads ((leads_bypassed hm).2 ⟨0, .refl, h.loop⟩)
  exact Automaton.edge_trim.2 ⟨⟨.inl rfl, .inl rfl⟩, loop⟩

/-- The rules with marks are those of the trees: a word of a tree finds the rule. -/
theorem exists_mark_eliminate_iff (formed : ∀ chain ∈ chains, chain.Formed SymbolSet.Inhabited)
    {id : RuleId} : (∃ s, id ∈ (ofChains chains).eliminate.ruleIds s) ↔
      1 ≤ id ∧ id ≤ chains.length := by
  have hm := wellFormed_ofChains chains
  constructor
  · rintro ⟨s, mark⟩
    obtain ⟨r, _, mark⟩ := (mem_ruleIds_bypassed hm).1 (Automaton.mem_ruleIds_trim.1 mark).2
    rw [(adds_ofChains chains).accepts] at mark
    obtain ⟨_, i, hi, rfl⟩ := mem_accepts_ofRules.1 mark
    exact ⟨Nat.le_add_left 1 i, hi⟩
  · rintro ⟨first, last⟩
    -- A run over a word of the tree finds the rule, so that elimination has left a mark.
    have hi : id - 1 < chains.length := Nat.sub_one_lt_of_le first last
    obtain ⟨text, word⟩ := (formed _ (List.getElem_mem hi)).spoken
    have found : (ofChains chains).Finds 0 (text.map Fin.val) id :=
      (finds_ofChains_iff code_lt_of_mem_text).2
        ⟨id - 1, hi, (Nat.sub_add_cancel first).symm, _, List.infix_refl _, word⟩
    rw [← mem_run hm, ← run_eliminate hm, Automaton.mem_run] at found
    exact found.exists_mark

theorem inOrder_eliminate (formed : ∀ chain ∈ chains, chain.Formed SymbolSet.Inhabited) :
    (ofChains chains).eliminate.InOrder := by
  have labelled := labelled_ofChains formed
  have loop := edge_eliminate_zero labelled (wellFormed_ofChains chains)
  constructor
  · intro id
    have count : (ofChains chains).eliminate.rules = chains.length := labelled.count
    rw [count]
    exact exists_mark_eliminate_iff formed
  · exact labels_eliminate labelled
  · intro s hs
    by_cases h0 : s = 0
    · exact .inl ⟨0, h0 ▸ loop⟩
    · obtain ⟨_, t, path, id, mark⟩ := Automaton.accessible_of_mem_trim hs h0
      rcases path.cases_head with rfl | ⟨r, edge, _⟩
      · exact .inr ⟨id, mark⟩
      · exact .inl ⟨r, edge⟩
  · intro s hs
    by_cases h0 : s = 0
    · exact ⟨0, h0 ▸ loop⟩
    · obtain ⟨way, _⟩ := Automaton.accessible_of_mem_trim hs h0
      rcases way.cases_tail with rfl | ⟨r, _, edge⟩
      · exact absurd rfl h0
      · exact ⟨r, edge⟩

theorem connected_eliminate (m : EpsilonAutomaton) : m.eliminate.Connected := by
  intro s hs
  by_cases h0 : s = 0
  · exact h0 ▸ .refl
  · exact (Automaton.accessible_of_mem_trim hs h0).1

end PatternGroups.EpsilonAutomaton
