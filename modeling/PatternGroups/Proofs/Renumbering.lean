import Mathlib.Data.Set.Function
import PatternGroups.Automaton.Renumber
import PatternGroups.Proofs.Cells
import PatternGroups.Proofs.Order

/-!
# Renumbering of states

Renumbering gives the accessible states other names, and no two the same: their positions in
breadth-first order. The other states are dropped with their edges and marks.

* `get?_rename`, `mem_ruleIds_rename`: edges and marks under other names;
* `mem_breadthFirst`: the list of names is closed under edges, and state 0 comes first;
* `Renumbers`: one automaton is the accessible part of another under other names;
* `states_renumber`, `run_renumber`: no number is left out, and no run changes.
-/

namespace PatternGroups.Automaton

variable {m n : Automaton} {order : List State} {name : State → State} {count : Nat}

/-! ## Other names -/

theorem unambiguous_idxOf? : SparseTable.Unambiguous order.idxOf? := by
  intro s t i hs ht
  obtain ⟨_, hs, _⟩ := List.idxOf?_eq_some_iff.1 hs
  obtain ⟨_, ht, _⟩ := List.idxOf?_eq_some_iff.1 ht
  exact hs.symm.trans ht

theorem unambiguous_some {κ : Type} : SparseTable.Unambiguous (some : κ → Option κ) :=
  fun hk hl => Option.some.inj (hk.trans hl.symm)

theorem edges_rename : (m.rename order).edges =
    .ofCells (m.edges.named order.idxOf? order.idxOf?) := rfl

theorem accepts_rename : (m.rename order).accepts =
    .ofCells (m.accepts.named order.idxOf? some) := rfl

theorem get?_rename {i j : State} {label : SymbolSet} :
    (m.rename order).edges.get? i j = some label ↔
      ∃ s t, order.idxOf? s = some i ∧ order.idxOf? t = some j ∧
        m.edges.get? s t = some label := by
  rw [edges_rename, SparseTable.get?_named unambiguous_idxOf? unambiguous_idxOf?]

theorem mem_ruleIds_rename {i : State} {id : RuleId} :
    id ∈ (m.rename order).ruleIds i ↔ ∃ s, order.idxOf? s = some i ∧ id ∈ m.ruleIds s := by
  rw [ruleIds, SparseTable.mem_idsOf, accepts_rename,
    SparseTable.get?_named unambiguous_idxOf? unambiguous_some]
  simp only [ruleIds, SparseTable.mem_idsOf, Option.some.injEq, exists_eq_left, exists_and_left]

/-! ## The accessible states in order -/

/-- The states that a state leads to, in ascending order. -/
def nextStates (m : Automaton) (s : State) : List State := Ascending.ofList (m.targets s)

theorem mem_nextStates {s t : State} : t ∈ m.nextStates s ↔ m.Edge s t :=
  Ascending.mem_ofList.trans mem_targets

theorem move_nextStates : Search.Move m.nextStates = m.Edge := by
  funext s t
  exact propext mem_nextStates

theorem mem_states_of_mem_nextStates (s t : State) (h : t ∈ m.nextStates s) : t ∈ m.states :=
  mem_states.2 (.inr (.inl ⟨s, mem_nextStates.1 h⟩))

theorem breadthFirst_eq : m.breadthFirst = Search.reach m.nextStates (m.stateCount + 1) [0] := rfl

theorem mem_breadthFirst {s : State} : s ∈ m.breadthFirst ↔ m.Accessible s := by
  have enough : [0].length + m.states.length ≤ m.stateCount + 1 :=
    Nat.le_of_eq (Nat.add_comm 1 m.stateCount)
  rw [breadthFirst_eq, Search.mem_reach mem_states_of_mem_nextStates enough, move_nextStates]
  simp [Accessible]

theorem breadthFirst_nodup (m : Automaton) : m.breadthFirst.Nodup :=
  Search.reach_nodup _ _ _

/-! ## Positions -/

/-- The position of a state in breadth-first order. -/
def position (m : Automaton) (s : State) : State := m.breadthFirst.idxOf s

theorem position_lt_iff {s : State} :
    m.position s < m.breadthFirst.length ↔ m.Accessible s := by
  rw [position, List.idxOf_lt_length_iff, mem_breadthFirst]

theorem position_inj {s t : State} (hs : m.Accessible s) (h : m.position s = m.position t) :
    s = t :=
  (List.idxOf_inj (mem_breadthFirst.2 hs)).1 h

theorem exists_position {i : State} (hi : i < m.breadthFirst.length) :
    ∃ s, m.Accessible s ∧ m.position s = i :=
  ⟨m.breadthFirst[i], mem_breadthFirst.1 (List.getElem_mem hi),
    m.breadthFirst_nodup.idxOf_getElem i hi⟩

theorem idxOf?_breadthFirst_iff {s i : State} :
    m.breadthFirst.idxOf? s = some i ↔ m.Accessible s ∧ m.position s = i := by
  rw [← mem_breadthFirst, ← List.isSome_idxOf?, position, List.idxOf_eq_getD_idxOf?]
  cases m.breadthFirst.idxOf? s with
  | none => simp
  | some j => simp

theorem position_start (m : Automaton) : m.position 0 = 0 := by
  have start : [0] <+: m.breadthFirst := Search.explore_subset (m.stateCount + 1) [0] [0]
  obtain ⟨rest, order⟩ := start
  rw [position, ← order]
  exact List.idxOf_cons_self

/-! ## Renumbered automata -/

/-- The states that are accessible in one automaton are renamed to the numbers below a count, state
0 to itself. Another automaton has the edges and marks of the renamed states, and no others. -/
structure Renumbers (m n : Automaton) (name : State → State) (count : Nat) : Prop where
  bijective : Set.BijOn name {s | m.Accessible s} {i | i < count}
  start : name 0 = 0
  edges : ∀ i j label, n.edges.get? i j = some label ↔
    ∃ s t, m.Accessible s ∧ m.Accessible t ∧ name s = i ∧ name t = j ∧
      m.edges.get? s t = some label
  marks : ∀ i id, id ∈ n.ruleIds i ↔ ∃ s, m.Accessible s ∧ name s = i ∧ id ∈ m.ruleIds s
  rules : n.rules = m.rules

theorem renumbers_renumber (m : Automaton) :
    Renumbers m m.renumber m.position m.breadthFirst.length := by
  refine ⟨⟨fun s hs => position_lt_iff.2 hs, fun s hs t _ h => position_inj hs h,
    fun i hi => exists_position hi⟩, m.position_start, fun i j label => ?_, fun i id => ?_, rfl⟩
  · rw [renumber, get?_rename]
    simp only [idxOf?_breadthFirst_iff, and_assoc, and_left_comm]
  · rw [renumber, mem_ruleIds_rename]
    simp only [idxOf?_breadthFirst_iff, and_assoc]

namespace Renumbers

variable (h : Renumbers m n name count)

include h

theorem carries_iff {p : SymbolSet → Prop} {i j : State} : n.edges.Carries p i j ↔
    ∃ s t, m.Accessible s ∧ name s = i ∧ name t = j ∧ m.edges.Carries p s t := by
  simp only [SparseTable.Carries, h.edges]
  constructor
  · rintro ⟨label, ⟨s, t, hs, _, hi, hj, he⟩, hp⟩
    exact ⟨s, t, hs, hi, hj, label, he, hp⟩
  · rintro ⟨s, t, hs, hi, hj, label, he, hp⟩
    exact ⟨label, ⟨s, t, hs, hs.tail ⟨label, he⟩, hi, hj, he⟩, hp⟩

theorem leads_iff {i j : State} {code : Nat} : n.edges.Leads i code j ↔
    ∃ s t, m.Accessible s ∧ name s = i ∧ name t = j ∧ m.edges.Leads s code t :=
  h.carries_iff

theorem edge_iff {i j : State} :
    n.Edge i j ↔ ∃ s t, m.Accessible s ∧ name s = i ∧ name t = j ∧ m.Edge s t := by
  simp only [edge_iff_carries, h.carries_iff]

theorem edge {s t : State} (hs : m.Accessible s) (he : m.Edge s t) : n.Edge (name s) (name t) :=
  h.edge_iff.2 ⟨s, t, hs, rfl, rfl, he⟩

theorem edge_name_iff {s i : State} (hs : m.Accessible s) :
    n.Edge (name s) i ↔ ∃ t, m.Edge s t ∧ name t = i := by
  rw [h.edge_iff]
  constructor
  · rintro ⟨r, t, hr, same, hi, he⟩
    exact ⟨t, h.bijective.injOn hr hs same ▸ he, hi⟩
  · rintro ⟨t, he, hi⟩
    exact ⟨s, t, hs, rfl, hi, he⟩

/-- The accessible states are the numbers below the count. -/
theorem accessible_iff {i : State} : n.Accessible i ↔ i < count := by
  constructor
  · intro way
    rcases way.cases_tail with rfl | ⟨j, _, he⟩
    · exact h.start ▸ h.bijective.mapsTo (.refl : m.Accessible 0)
    · obtain ⟨s, t, hs, _, rfl, edge⟩ := h.edge_iff.1 he
      exact h.bijective.mapsTo (hs.tail edge : m.Accessible t)
  · intro hi
    obtain ⟨s, hs, rfl⟩ := h.bijective.surjOn hi
    have image {s : State} (way : m.Accessible s) : n.Accessible (name s) := by
      induction way with
      | refl =>
        rw [h.start]
        exact .refl
      | tail way he ih => exact ih.tail (h.edge way he)
    exact image hs

theorem finds_iff {s : State} (hs : m.Accessible s) {codes : List Nat} {id : RuleId} :
    n.Finds (name s) codes id ↔ m.Finds s codes id := by
  constructor
  · refine Simulation.finds (R := fun i s => m.Accessible s ∧ name s = i) ⟨?_, ?_⟩ ⟨hs, rfl⟩
    · rintro _ s id ⟨hs, rfl⟩ mark
      obtain ⟨r, hr, same, mark⟩ := (h.marks _ _).1 mark
      rwa [← h.bijective.injOn hr hs same]
    · rintro _ s code _ ⟨hs, rfl⟩ move
      obtain ⟨r, t, hr, same, rfl, before⟩ := h.leads_iff.1 move
      rw [h.bijective.injOn hr hs same] at before
      exact ⟨t, ⟨hs.tail (edge_of_leads before), rfl⟩, before⟩
  · refine Simulation.finds (R := fun s i => m.Accessible s ∧ name s = i) ⟨?_, ?_⟩ ⟨hs, rfl⟩
    · rintro s _ id ⟨hs, rfl⟩ mark
      exact (h.marks _ _).2 ⟨s, hs, rfl, mark⟩
    · rintro s _ code t ⟨hs, rfl⟩ move
      exact ⟨name t, ⟨hs.tail (edge_of_leads move), rfl⟩, h.leads_iff.2 ⟨s, t, hs, rfl, rfl, move⟩⟩

/-- A state has an edge to or from an accessible state, or an accessible state has its mark. -/
theorem mem_states_iff {i : State} : i ∈ n.states ↔
    ∃ s, m.Accessible s ∧ name s = i ∧
      ((∃ t, m.Edge s t) ∨ (∃ r, m.Accessible r ∧ m.Edge r s) ∨ ∃ id, id ∈ m.ruleIds s) := by
  rw [mem_states]
  constructor
  · rintro (⟨j, he⟩ | ⟨j, he⟩ | ⟨id, mark⟩)
    · obtain ⟨s, t, hs, hi, _, he⟩ := h.edge_iff.1 he
      exact ⟨s, hs, hi, .inl ⟨t, he⟩⟩
    · obtain ⟨r, s, hr, _, hi, he⟩ := h.edge_iff.1 he
      exact ⟨s, hr.tail he, hi, .inr (.inl ⟨r, hr, he⟩)⟩
    · obtain ⟨s, hs, hi, mark⟩ := (h.marks _ _).1 mark
      exact ⟨s, hs, hi, .inr (.inr ⟨id, mark⟩)⟩
  · rintro ⟨s, hs, rfl, ⟨t, he⟩ | ⟨r, hr, he⟩ | ⟨id, mark⟩⟩
    · exact .inl ⟨name t, h.edge hs he⟩
    · exact .inr (.inl ⟨name r, h.edge hr he⟩)
    · exact .inr (.inr ⟨id, (h.marks _ _).2 ⟨s, hs, rfl, mark⟩⟩)

/-- If state 0 leads on or accepts a rule, all numbers below the count are states. -/
theorem states_eq_range (leads : (∃ t, m.Edge 0 t) ∨ ∃ id, id ∈ m.ruleIds 0) :
    n.states = List.range count := by
  refine Ascending.eq_of_mem_iff (Ascending.pairwise_ofList _) List.pairwise_lt_range fun i => ?_
  rw [h.mem_states_iff, List.mem_range]
  constructor
  · rintro ⟨s, hs, rfl, _⟩
    exact h.bijective.mapsTo hs
  · intro hi
    obtain ⟨s, hs, rfl⟩ := h.bijective.surjOn hi
    refine ⟨s, hs, rfl, ?_⟩
    rcases hs.cases_tail with rfl | ⟨r, hr, he⟩
    · exact leads.imp_right .inr
    · exact .inr (.inl ⟨r, hr, he⟩)

/-- Otherwise there is no state at all, as state 0 is the only one that is accessible. -/
theorem states_eq_nil (none : ¬((∃ t, m.Edge 0 t) ∨ ∃ id, id ∈ m.ruleIds 0)) : n.states = [] := by
  have only {s : State} (hs : m.Accessible s) : s = 0 := by
    rcases hs.cases_head with rfl | ⟨r, he, _⟩
    · rfl
    · exact absurd (.inl ⟨r, he⟩) none
  refine List.eq_nil_iff_forall_not_mem.2 fun i hi => ?_
  obtain ⟨s, hs, _, state⟩ := h.mem_states_iff.1 hi
  obtain rfl := only hs
  rcases state with leads | ⟨r, hr, he⟩ | mark
  · exact none (.inl leads)
  · obtain rfl := only hr
    exact none (.inl ⟨_, he⟩)
  · exact none (.inr mark)

theorem states_eq_range_iff : n.states = List.range count ↔
    (∃ t, m.Edge 0 t) ∨ ∃ id, id ∈ m.ruleIds 0 := by
  refine ⟨fun all => by_contra fun none => ?_, h.states_eq_range⟩
  have some : 0 < count := h.start ▸ h.bijective.mapsTo (.refl : m.Accessible 0)
  have start : 0 ∈ n.states := all ▸ List.mem_range.2 some
  rw [h.states_eq_nil none] at start
  cases start

/-- No number is left out. -/
theorem states_eq_range_stateCount : n.states = List.range n.stateCount := by
  by_cases leads : (∃ t, m.Edge 0 t) ∨ ∃ id, id ∈ m.ruleIds 0
  · rw [stateCount, h.states_eq_range leads, List.length_range]
  · rw [stateCount, h.states_eq_nil leads, List.length_nil, List.range_zero]

/-- If all states are accessible, none is dropped. -/
theorem stateCount_eq (connected : m.Connected) : n.stateCount = m.stateCount := by
  have nodup (m : Automaton) : m.states.Nodup :=
    (Ascending.pairwise_ofList _).imp fun hlt => Nat.ne_of_lt hlt
  have image : (m.states.map name).Nodup := (nodup m).map_on fun s hs t ht same =>
    h.bijective.injOn (connected s hs) (connected t ht) same
  have all : n.states.Perm (m.states.map name) := by
    refine (List.perm_ext_iff_of_nodup (nodup n) image).2 fun i => ?_
    rw [h.mem_states_iff, List.mem_map]
    constructor
    · rintro ⟨s, _, hi, state⟩
      refine ⟨s, mem_states.2 (state.imp_right ?_), hi⟩
      exact Or.imp_left fun ⟨r, _, he⟩ => ⟨r, he⟩
    · rintro ⟨s, hs, hi⟩
      refine ⟨s, connected s hs, hi, (mem_states.1 hs).imp_right ?_⟩
      exact Or.imp_left fun ⟨r, he⟩ => ⟨r, connected r (mem_states.2 (.inl ⟨s, he⟩)), he⟩
  rw [stateCount, all.length_eq, List.length_map, stateCount]

end Renumbers

theorem states_renumber (m : Automaton) :
    m.renumber.states = List.range m.renumber.stateCount :=
  m.renumbers_renumber.states_eq_range_stateCount

theorem run_renumber (m : Automaton) (codes : List Nat) : m.renumber.run codes = m.run codes := by
  refine run_congr fun id => ?_
  rw [← m.renumbers_renumber.finds_iff .refl, position_start]

end PatternGroups.Automaton
