import PatternGroups.Proofs.Labels
import PatternGroups.Proofs.Requests

/-!
# Automata in order

An automaton is in order if each rule has a mark, each edge has a symbol, and each state a way in
and a way on. It is connected if state 0 leads to all of its states.

* `defect?_eq_none_iff`: the check finds nothing wrong exactly with automata in order;
* `InOrder.edge_iff`: in such an automaton there is an edge exactly where there is a move.
-/

namespace PatternGroups.Automaton

variable {m : Automaton}

structure InOrder (m : Automaton) : Prop where
  ids : ∀ {id}, (∃ s, id ∈ m.ruleIds s) ↔ 1 ≤ id ∧ id ≤ m.rules
  labels : m.edges.Obeys fun _ _ label => label.Inhabited
  leadsOn : ∀ s ∈ m.states, (∃ t, m.Edge s t) ∨ ∃ id, id ∈ m.ruleIds s
  entered : ∀ s ∈ m.states, ∃ r, m.Edge r s

theorem InOrder.edge_iff (h : m.InOrder) {s t : State} :
    m.Edge s t ↔ ∃ code, m.edges.Leads s code t := by
  constructor
  · rintro ⟨label, he⟩
    obtain ⟨code, hc⟩ := h.labels he
    exact ⟨code, label, he, hc⟩
  · rintro ⟨code, move⟩
    exact edge_of_leads move

def Connected (m : Automaton) : Prop := ∀ s ∈ m.states, m.Accessible s

/-! ## The check -/

theorem mem_accepts_columnKeys {id : RuleId} :
    id ∈ m.accepts.columnKeys ↔ ∃ s, id ∈ m.ruleIds s := by
  simp only [SparseTable.mem_columnKeys_iff, ruleIds, SparseTable.mem_idsOf]
  refine exists_congr fun s => ?_
  constructor
  · rintro ⟨_, h⟩
    exact h
  · exact fun h => ⟨(), h⟩

theorem present_eq_iff : Ascending.ofList m.accepts.columnKeys = List.range' 1 m.rules ↔
    ∀ {id}, (∃ s, id ∈ m.ruleIds s) ↔ 1 ≤ id ∧ id ≤ m.rules := by
  have wanted {id : RuleId} : id ∈ List.range' 1 m.rules ↔ 1 ≤ id ∧ id ≤ m.rules := by
    rw [List.mem_range'_1, Nat.lt_one_add_iff]
  constructor
  · intro h id
    rw [← wanted, ← h, Ascending.mem_ofList, mem_accepts_columnKeys]
  · intro h
    refine Ascending.eq_of_mem_iff (Ascending.pairwise_ofList _) List.pairwise_lt_range' ?_
    intro id
    rw [wanted, ← h, Ascending.mem_ofList, mem_accepts_columnKeys]

theorem find?_isEmpty_eq_none_iff : m.edges.entries.find? (·.value.isEmpty) = none ↔
    m.edges.Obeys fun _ _ label => label.Inhabited := by
  rw [List.find?_eq_none]
  simp only [Bool.not_eq_true, SymbolSet.isEmpty_eq_false_iff, SparseTable.mem_entries]
  constructor
  · exact fun h s t label he => h ⟨s, t, label⟩ he
  · exact fun h e he => h he

theorem stateDefect?_eq_none_iff {s : State} : m.stateDefect? s = none ↔
    ((∃ t, m.Edge s t) ∨ ∃ id, id ∈ m.ruleIds s) ∧ ∃ r, m.Edge r s := by
  have on : m.edges.hasRow s = true ↔ ∃ t, m.Edge s t := by
    rw [SparseTable.hasRow, List.contains_iff_mem, SparseTable.mem_rowKeys_iff]
    rfl
  have marked : m.accepts.hasRow s = true ↔ ∃ id, id ∈ m.ruleIds s := by
    rw [SparseTable.hasRow, List.contains_iff_mem, mem_accepts_rowKeys]
  rw [← on, ← marked, ← hasColumn_iff, stateDefect?]
  cases m.edges.hasRow s <;> cases m.accepts.hasRow s <;> cases m.edges.hasColumn s <;> simp

theorem defect?_eq_none_iff : m.defect? = none ↔ m.InOrder := by
  unfold defect?
  -- The indexes are those of one table, and agree whatever it holds.
  simp only [SparseTable.mismatch?_index]
  by_cases present : Ascending.ofList m.accepts.columnKeys = List.range' 1 m.rules
  · rw [if_neg (not_not_intro present)]
    cases labels : m.edges.entries.find? (·.value.isEmpty) with
    | some e =>
      have found : m.edges.entries.find? (·.value.isEmpty) ≠ none := by simp [labels]
      refine ⟨nofun, fun h => ?_⟩
      exact absurd (find?_isEmpty_eq_none_iff.2 h.labels) found
    | none =>
      simp only [List.findSome?_eq_none_iff, stateDefect?_eq_none_iff]
      constructor
      · intro h
        exact ⟨present_eq_iff.1 present, find?_isEmpty_eq_none_iff.1 labels,
          fun s hs => (h s hs).1, fun s hs => (h s hs).2⟩
      · intro h s hs
        exact ⟨h.leadsOn s hs, h.entered s hs⟩
  · rw [if_pos present]
    exact ⟨nofun, fun h => absurd (present_eq_iff.2 h.ids) present⟩

end PatternGroups.Automaton
