import PatternGroups.Proofs.Counting
import PatternGroups.Proofs.Pipeline
import PatternGroups.Proofs.Rules

/-!
# Trials

A trial compiles some rules in their order. There is nothing that can go wrong, and a count within
the budget is the count that there is without one.

* `ofRegexes_of_parsed`: rules are compiled as their regexes are;
* `Trial.exists_of?`: a trial of rules has an answer;
* `Trial.sized`: what a complete trial tells of its rules.
-/

namespace PatternGroups

namespace Plan

/-! ## Rules and their regexes -/

theorem ofRegexes_of_parsed {rules : List Rule} (h : ∀ rule ∈ rules, rule.Parsed) :
    Chain.ofRegexes? (rules.map (·.regex)) = .ok (rules.map (·.tree)) := by
  have numbered (n : Nat) : (((rules.map (·.regex)).zipIdx n).mapM fun place =>
      (Chain.ofRegex? place.1).mapError (Refusal.regex place.2 place.1)) =
        .ok (rules.map (·.tree)) := by
    induction rules generalizing n with
    | nil => rfl
    | cons rule rest ih =>
      rw [List.forall_mem_cons] at h
      have first : Chain.ofRegex? rule.regex = .ok rule.tree := h.1
      rw [List.map_cons, List.zipIdx_cons, List.mapM_cons, ih h.2 (n + 1)]
      simp only [first]
      rfl
  exact numbered 0

theorem ofRegexes_automaton {rules : List Rule} (h : ∀ rule ∈ rules, rule.Parsed) :
    Automaton.ofRegexes? (rules.map (·.regex)) = .ok (.ofChains (rules.map (·.tree))) := by
  rw [Automaton.ofRegexes?, ofRegexes_of_parsed h]
  rfl

/-- The automaton of rules has tables. -/
theorem exists_tables (rules : List Rule) :
    ∃ tables, BitTables.ofAutomaton? (.ofChains (rules.map (·.tree))) = .ok tables :=
  ⟨_, BitTables.ofAutomaton?_eq_ok_iff.2 ⟨Stages.not_mixed_renumbered,
    Automaton.firstUnused_eq_stateCount_iff.2 Stages.states_renumbered, rfl⟩⟩

theorem size_of_ofAutomaton {m : Automaton} {tables : BitTables}
    (h : BitTables.ofAutomaton? m = .ok tables) : tables.size = m.stateCount := by
  obtain ⟨_, _, rfl⟩ := BitTables.ofAutomaton?_eq_ok_iff.1 h
  rfl

/-! ## Trials -/

variable {settings : Settings} {rules : List Rule} {trial : Trial}

theorem Trial.of?_eq (settings : Settings) (rules : List Rule) : Trial.of? settings rules =
    (BitTables.ofAutomaton? (.ofChains (rules.map (·.tree)))).map fun tables =>
      ⟨.ofChains (rules.map (·.tree)), tables.size, settings.budget tables.size,
        .count tables (some (settings.budget tables.size))⟩ := by
  rw [Trial.of?, Automaton.ofChains]
  generalize Stages.ofChains (rules.map (·.tree)) = stages
  dsimp only
  cases BitTables.ofAutomaton? stages.renumbered with
  | error refusal => rfl
  | ok tables => rfl

theorem Trial.exists_of? (settings : Settings) (rules : List Rule) :
    ∃ trial, Trial.of? settings rules = .ok trial := by
  obtain ⟨tables, made⟩ := exists_tables rules
  rw [Trial.of?_eq, made]
  exact ⟨_, rfl⟩

/-- The sizes of an automaton, and of the deterministic automaton that comes of it. The latter is
within the budget. -/
structure Sized (settings : Settings) (m : Automaton) (states subsets : Nat) : Prop where
  states_eq : states = m.stateCount
  count : ∃ tables, BitTables.ofAutomaton? m = .ok tables ∧
    SubsetCount.count? tables none = some ⟨subsets, true⟩
  within : subsets ≤ settings.budget states

/-- A complete trial tells the sizes for its rules. -/
theorem Trial.sized (h : Trial.of? settings rules = .ok trial)
    (complete : trial.count.complete = true) :
    Sized settings (.ofChains (rules.map (·.tree))) trial.states trial.count.subsets := by
  rw [Trial.of?_eq] at h
  cases made : BitTables.ofAutomaton? (.ofChains (rules.map (·.tree))) with
  | error refusal => rw [made] at h; cases h
  | ok tables =>
    rw [made] at h
    cases h
    obtain ⟨unlimited, within⟩ := SubsetCount.count?_of_complete complete
    exact ⟨size_of_ofAutomaton made, ⟨tables, made, unlimited⟩, within⟩

end Plan

end PatternGroups
