import PatternGroups.EpsilonAutomaton.Elimination
import PatternGroups.Proofs.Accessibility
import PatternGroups.Proofs.EpsilonRuns

/-!
# Elimination of ε-edges

* `leads_bypassed`, `mem_ruleIds_bypassed`: a state takes over exactly what ε-edges lead to;
* `run_eliminate`: elimination changes no run.
-/

namespace PatternGroups.EpsilonAutomaton

open Relation

variable {m : EpsilonAutomaton}

theorem mem_bypasses (hm : m.WellFormed) {s r : State} :
    (s, r) ∈ m.bypasses ↔ s ≠ r ∧ ReflTransGen m.Jump s r := by
  simp only [bypasses, List.mem_flatMap, List.mem_map, List.mem_filter, BitSet.mem_members,
    mem_closure hm, BitSet.contains_singleton, exists_eq_left, decide_eq_true_eq,
    Prod.mk.injEq]
  constructor
  · rintro ⟨s, _, r, ⟨jumps, hne⟩, rfl, rfl⟩
    exact ⟨hne.symm, jumps⟩
  · rintro ⟨hne, jumps⟩
    refine ⟨s, ?_, r, ⟨jumps, hne.symm⟩, rfl, rfl⟩
    rcases jumps.cases_head with rfl | ⟨t, jump, _⟩
    · exact absurd rfl hne
    · exact SparseTable.mem_rowKeys_iff.2 ⟨t, (), jump⟩

/-- What is taken over, together with what a state had before: the state itself is the one that
is reached without a jump. -/
theorem exists_bypass (hm : m.WellFormed) {s : State} {P : State → Prop} :
    (P s ∨ ∃ r, (s, r) ∈ m.bypasses ∧ P r) ↔ ∃ r, ReflTransGen m.Jump s r ∧ P r := by
  constructor
  · rintro (h | ⟨r, hr, h⟩)
    · exact ⟨s, .refl, h⟩
    · exact ⟨r, ((mem_bypasses hm).1 hr).2, h⟩
  · rintro ⟨r, jumps, h⟩
    by_cases hne : s = r
    · exact .inl (hne ▸ h)
    · exact .inr ⟨r, (mem_bypasses hm).2 ⟨hne, jumps⟩, h⟩

theorem leads_bypassed (hm : m.WellFormed) {s t : State} {code : Nat} :
    m.bypassed.edges.Leads s code t ↔
      ∃ r, ReflTransGen m.Jump s r ∧ m.edges.Leads r code t := by
  rw [← exists_bypass hm, bypassed, SparseTable.leads_joinAll]
  apply or_congr_right
  simp only [inheritedEdges, List.mem_flatMap, List.mem_map, Prod.mk.injEq, Prod.exists,
    SparseTable.mem_row]
  constructor
  · rintro ⟨_, ⟨_, r, hr, _, label, he, rfl, rfl, rfl⟩, hc⟩
    exact ⟨r, hr, label, he, hc⟩
  · rintro ⟨r, hr, label, he, hc⟩
    exact ⟨label, ⟨s, r, hr, t, label, he, rfl, rfl, rfl⟩, hc⟩

theorem mem_ruleIds_bypassed (hm : m.WellFormed) {s : State} {id : RuleId} :
    id ∈ m.bypassed.ruleIds s ↔ ∃ r, ReflTransGen m.Jump s r ∧ id ∈ m.accepts.idsOf r := by
  rw [← exists_bypass hm, bypassed, Automaton.ruleIds, SparseTable.mem_idsOf_foldl]
  apply or_congr_right
  simp only [inheritedMarks, List.mem_flatMap, List.mem_map, Prod.mk.injEq, Prod.exists]
  constructor
  · rintro ⟨_, r, hr, _, mark, rfl, rfl⟩
    exact ⟨r, hr, mark⟩
  · rintro ⟨r, hr, mark⟩
    exact ⟨s, r, hr, id, mark, rfl, rfl⟩

theorem finds_bypassed (hm : m.WellFormed) {s : State} {codes : List Nat} {id : RuleId} :
    m.bypassed.Finds s codes id ↔ m.Finds s codes id := by
  induction codes generalizing s with
  | nil => rw [Automaton.finds_nil, finds_nil, mem_ruleIds_bypassed hm]
  | cons code codes ih =>
    simp only [Automaton.finds_cons, finds_cons, mem_ruleIds_bypassed hm, leads_bypassed hm, ih]

theorem run_eliminate (hm : m.WellFormed) (codes : List Nat) :
    m.eliminate.run codes = m.run codes := by
  rw [eliminate, Automaton.run_trim]
  refine Ascending.ofList_congr fun id => ?_
  rw [Automaton.mem_idsFound, initial, mem_idsFound hm]
  simp only [List.mem_singleton, BitSet.contains_singleton, exists_eq_left, finds_bypassed hm]

end PatternGroups.EpsilonAutomaton
