import PatternGroups.Automaton
import PatternGroups.Proofs.Moves

/-!
# What a run finds

`Finds m s codes id`: from state `s` on, reading some of the symbols leads to a state that accepts
the rule.

* `mem_run`: a run lists the rules found from state 0;
* `Simulation.finds`: what a state finds is found by each state that answers all its moves.
-/

namespace PatternGroups.Automaton

inductive Finds (m : Automaton) : State → List Nat → RuleId → Prop
  | here {s : State} {codes : List Nat} {id : RuleId} :
      id ∈ m.ruleIds s → Finds m s codes id
  | later {s t : State} {code : Nat} {codes : List Nat} {id : RuleId} :
      m.edges.Leads s code t → Finds m t codes id → Finds m s (code :: codes) id

theorem finds_nil {m : Automaton} {s : State} {id : RuleId} :
    m.Finds s [] id ↔ id ∈ m.ruleIds s := by
  constructor
  · intro h
    cases h with
    | here h => exact h
  · exact .here

theorem finds_cons {m : Automaton} {s : State} {code : Nat} {codes : List Nat} {id : RuleId} :
    m.Finds s (code :: codes) id ↔
      id ∈ m.ruleIds s ∨ ∃ t, m.edges.Leads s code t ∧ m.Finds t codes id := by
  constructor
  · intro h
    cases h with
    | here h => exact .inl h
    | later move h => exact .inr ⟨_, move, h⟩
  · rintro (h | ⟨t, move, h⟩)
    · exact .here h
    · exact .later move h

/-- What is found is marked somewhere. -/
theorem Finds.exists_mark {m : Automaton} {s : State} {codes : List Nat} {id : RuleId}
    (h : m.Finds s codes id) : ∃ t, id ∈ m.ruleIds t := by
  induction h with
  | here mark => exact ⟨_, mark⟩
  | later _ _ ih => exact ih

/-- Moves lead from one state to another while symbols are read. -/
inductive Reads (m : Automaton) : State → List Nat → State → Prop
  | nil (s : State) : Reads m s [] s
  | cons {s t r : State} {code : Nat} {codes : List Nat} :
      m.edges.Leads s code t → Reads m t codes r → Reads m s (code :: codes) r

theorem Reads.finds {m : Automaton} {s t : State} {before codes : List Nat} {id : RuleId}
    (h : m.Reads s before t) (found : m.Finds t codes id) : m.Finds s (before ++ codes) id := by
  induction h with
  | nil s => exact found
  | cons move _ ih => exact .later move (ih found)

theorem mem_step {m : Automaton} {active : List State} {code : Nat} {t : State} :
    t ∈ m.step active code ↔ ∃ s ∈ active, m.edges.Leads s code t := by
  simp only [step, Ascending.mem_ofList, List.mem_flatMap, SparseTable.mem_successors]

theorem mem_idsFound {m : Automaton} {active : List State} {codes : List Nat} {id : RuleId} :
    id ∈ idsFound m.step (·.flatMap m.ruleIds) active codes ↔
      ∃ s ∈ active, m.Finds s codes id := by
  induction codes generalizing active with
  | nil => simp only [idsFound, List.mem_flatMap, finds_nil]
  | cons code codes ih =>
    simp only [idsFound, List.mem_append, List.mem_flatMap, ih, mem_step, finds_cons]
    constructor
    · rintro (⟨s, hs, h⟩ | ⟨t, ⟨s, hs, move⟩, h⟩)
      · exact ⟨s, hs, .inl h⟩
      · exact ⟨s, hs, .inr ⟨t, move, h⟩⟩
    · rintro ⟨s, hs, h | ⟨t, move, h⟩⟩
      · exact .inl ⟨s, hs, h⟩
      · exact .inr ⟨t, ⟨s, hs, move⟩, h⟩

theorem mem_run {m : Automaton} {codes : List Nat} {id : RuleId} :
    id ∈ m.run codes ↔ m.Finds 0 codes id := by
  simp only [run, Ascending.mem_ofList, mem_idsFound, List.mem_singleton, exists_eq_left]

theorem run_congr {m n : Automaton} {codes : List Nat}
    (h : ∀ id, m.Finds 0 codes id ↔ n.Finds 0 codes id) : m.run codes = n.run codes := by
  refine Ascending.ofList_congr fun id => ?_
  rw [mem_idsFound, mem_idsFound]
  simpa only [List.mem_singleton, exists_eq_left] using h id

/-- Every mark and every move of a state on the left is answered by the states related to it. -/
structure Simulation (m n : Automaton) (R : State → State → Prop) : Prop where
  marks : ∀ {s t id}, R s t → id ∈ m.ruleIds s → id ∈ n.ruleIds t
  moves : ∀ {s t code s'}, R s t → m.edges.Leads s code s' →
    ∃ t', R s' t' ∧ n.edges.Leads t code t'

theorem Simulation.finds {m n : Automaton} {R : State → State → Prop} (h : Simulation m n R)
    {s t : State} {codes : List Nat} {id : RuleId} (hst : R s t) (found : m.Finds s codes id) :
    n.Finds t codes id := by
  induction found generalizing t with
  | here mark => exact .here (h.marks hst mark)
  | later move _ ih =>
    obtain ⟨t', hst', move'⟩ := h.moves hst move
    exact .later move' (ih hst')

end PatternGroups.Automaton
