import Mathlib.Data.Nat.Find
import PatternGroups.Proofs.BreadthFirst
import PatternGroups.Proofs.Renumbering

/-!
# Positions in breadth-first order

Renumbering gives each accessible state its position in breadth-first order, so that near states
come first. States that are renumbered already have their own numbers as positions, and nothing
changes any more.

* `Distance`, `position_lt_of_distance`: farther states have greater positions;
* `breadthFirst_renumber`: the order of a renumbered automaton;
* `renumber_positions`: renumbering as a whole.
-/

namespace PatternGroups.Automaton

variable {m : Automaton}

/-! ## Distances -/

/-- The least number of edges on a way from state 0 to a state. -/
def Distance (m : Automaton) (s : State) (d : Nat) : Prop :=
  Search.Way m.Edge [0] d s ∧ ∀ k, Search.Way m.Edge [0] k s → d ≤ k

theorem accessible_iff_exists_way {s : State} :
    m.Accessible s ↔ ∃ k, Search.Way m.Edge [0] k s := by
  constructor
  · intro way
    induction way with
    | refl => exact ⟨0, .start (List.mem_singleton_self 0)⟩
    | tail _ he ih =>
      obtain ⟨k, way⟩ := ih
      exact ⟨k + 1, way.step he⟩
  · rintro ⟨k, way⟩
    induction way with
    | start seed =>
      rw [List.mem_singleton.1 seed]
      exact .refl
    | step _ he ih => exact ih.tail he

theorem accessible_iff_exists_distance {s : State} :
    m.Accessible s ↔ ∃ d, m.Distance s d := by
  classical
  rw [accessible_iff_exists_way]
  constructor
  · intro h
    exact ⟨Nat.find h, Nat.find_spec h, fun k way => Nat.find_min' h way⟩
  · rintro ⟨d, way, _⟩
    exact ⟨d, way⟩

/-- Farther states are visited later. -/
theorem position_lt_of_distance {s t : State} {d e : Nat} (hs : m.Distance s d)
    (ht : m.Distance t e) (hlt : d < e) : m.position s < m.position t := by
  have accessible {r : State} {k : Nat} (hr : m.Distance r k) : r ∈ m.breadthFirst :=
    mem_breadthFirst.2 (accessible_iff_exists_distance.2 ⟨k, hr⟩)
  rcases Nat.lt_trichotomy (m.position s) (m.position t) with before | same | after
  · exact before
  · obtain rfl := position_inj (mem_breadthFirst.1 (accessible hs)) same
    exact absurd (ht.2 d hs.1) (Nat.not_le.2 hlt)
  · have ordered := Search.reach_pairwise m.nextStates (m.stateCount + 1) [0]
    rw [move_nextStates, ← breadthFirst_eq, List.pairwise_iff_getElem] at ordered
    have near := ordered _ _ (List.idxOf_lt_length_of_mem (accessible ht))
      (List.idxOf_lt_length_of_mem (accessible hs)) after
    rw [List.getElem_idxOf, List.getElem_idxOf] at near
    obtain ⟨j, hj, way⟩ := near d hs.1
    exact absurd (Nat.le_trans (ht.2 j way) hj) (Nat.not_le.2 hlt)

/-! ## Renumbering again -/

theorem map_idxOf_of_prefix {known order : List State} (nodup : order.Nodup)
    (h : known <+: order) : known.map order.idxOf = List.range known.length := by
  refine List.ext_getElem (by simp) fun i hi _ => ?_
  rw [List.length_map] at hi
  rw [List.getElem_map, List.getElem_range, h.getElem hi, nodup.idxOf_getElem]

/-- A search that goes over positions as another goes over states lists positions in order. -/
theorem explore_positions {next next' : State → List State} {order : List State}
    (nodup : order.Nodup) (ascending : ∀ i, (next' i).Pairwise (· < ·))
    (image : ∀ s ∈ order, ∀ i, i ∈ next' (order.idxOf s) ↔ ∃ t ∈ next s, order.idxOf t = i)
    (bound : Nat) (known pending : List State) (hp : ∀ s ∈ pending, s ∈ known)
    (h : Search.explore next bound known pending = order) :
    Search.explore next' bound (List.range known.length) (pending.map order.idxOf) =
      List.range order.length := by
  induction bound generalizing known pending with
  | zero =>
    obtain rfl : known = order := h
    rfl
  | succ bound ih =>
    cases pending with
    | nil =>
      obtain rfl : known = order := h
      rfl
    | cons s pending =>
      have listed : known ++ Search.fresh known (next s) <+: order :=
        h ▸ Search.explore_subset bound _ _
      have start : known <+: order := (List.prefix_append known _).trans listed
      have old := map_idxOf_of_prefix nodup start
      have all := map_idxOf_of_prefix nodup listed
      rw [List.map_append, old] at all
      -- The new states get the numbers that follow, in ascending order as they are discovered.
      have new : Search.fresh (List.range known.length) (next' (order.idxOf s)) =
          (Search.fresh known (next s)).map order.idxOf := by
        have hs : s ∈ order := start.subset (hp s List.mem_cons_self)
        refine Ascending.eq_of_mem_iff ((ascending _).sublist (Search.fresh_sublist _ _)) ?_
          fun i => ?_
        · exact (all ▸ List.pairwise_lt_range).sublist (List.sublist_append_right _ _)
        · rw [Search.mem_fresh, image s hs, ← old, List.mem_map]
          simp only [Search.mem_fresh, List.mem_map]
          constructor
          · rintro ⟨⟨t, ht, rfl⟩, unknown⟩
            exact ⟨t, ⟨ht, fun hk => unknown ⟨t, hk, rfl⟩⟩, rfl⟩
          · rintro ⟨t, ⟨ht, unknown⟩, rfl⟩
            refine ⟨⟨t, ht, rfl⟩, ?_⟩
            rintro ⟨r, hr, same⟩
            exact unknown ((List.idxOf_inj (start.subset hr)).1 same ▸ hr)
      have later := ih (known ++ Search.fresh known (next s))
        (pending ++ Search.fresh known (next s)) ?_ h
      · rw [← all, List.map_append, ← new] at later
        exact later
      · intro t ht
        rw [List.mem_append] at ht ⊢
        exact ht.imp_left fun ht => hp t (List.mem_cons_of_mem s ht)

theorem breadthFirst_renumber (m : Automaton) :
    m.renumber.breadthFirst = List.range m.breadthFirst.length := by
  have h := m.renumbers_renumber
  have image (s : State) (hs : s ∈ m.breadthFirst) (i : State) :
      i ∈ m.renumber.nextStates (m.position s) ↔ ∃ t ∈ m.nextStates s, m.position t = i := by
    simp only [mem_nextStates]
    exact h.edge_name_iff (mem_breadthFirst.1 hs)
  have positions : Search.reach m.renumber.nextStates (m.stateCount + 1) [0] =
      List.range m.breadthFirst.length := by
    have listed := explore_positions m.breadthFirst_nodup
      (fun i => Ascending.pairwise_ofList _) image (m.stateCount + 1) [0] [0] (fun _ => id) rfl
    rw [List.map_singleton, ← position, position_start] at listed
    exact listed
  rw [breadthFirst_eq, ← positions]
  refine Search.reach_eq_of_mem_iff fun i => ?_
  rw [← breadthFirst_eq, positions, mem_breadthFirst, h.accessible_iff, List.mem_range]

theorem idxOf?_range {i count : Nat} (h : i < count) : (List.range count).idxOf? i = some i := by
  refine List.idxOf?_eq_some_iff.2 ⟨by simpa using h, by simp, fun j hj => ?_⟩
  simpa using Nat.ne_of_lt hj

theorem renumber_renumber (m : Automaton) : m.renumber.renumber = m.renumber := by
  have below {s i : State} (hs : m.breadthFirst.idxOf? s = some i) :
      (List.range m.breadthFirst.length).idxOf? i = some i := by
    obtain ⟨accessible, rfl⟩ := idxOf?_breadthFirst_iff.1 hs
    exact idxOf?_range (position_lt_iff.2 accessible)
  have edges : m.renumber.renumber.edges = m.renumber.edges := by
    rw [renumber, breadthFirst_renumber, edges_rename, renumber, edges_rename,
      SparseTable.named_named unambiguous_idxOf? unambiguous_idxOf?]
    intro c hc
    obtain ⟨s, t, hs, ht, _⟩ := SparseTable.mem_named.1 hc
    exact ⟨below hs, below ht⟩
  have accepts : m.renumber.renumber.accepts = m.renumber.accepts := by
    rw [renumber, breadthFirst_renumber, accepts_rename, renumber, accepts_rename,
      SparseTable.named_named unambiguous_idxOf? unambiguous_some]
    intro c hc
    obtain ⟨s, id, hs, _, _⟩ := SparseTable.mem_named.1 hc
    exact ⟨below hs, rfl⟩
  exact congrArg₂ (fun edges accepts => Automaton.mk edges accepts m.rules) edges accepts

/-! ## Renumbering -/

theorem size_renumber (connected : m.Connected) :
    m.renumber.edges.size = m.edges.size ∧ m.renumber.accepts.size = m.accepts.size := by
  have listed {s : State} (hs : s ∈ m.states) : (m.breadthFirst.idxOf? s).isSome :=
    List.isSome_idxOf?.2 (mem_breadthFirst.2 (connected s hs))
  rw [renumber, edges_rename, accepts_rename]
  constructor
  · refine SparseTable.size_named unambiguous_idxOf? unambiguous_idxOf? fun s t label he => ?_
    exact ⟨listed (mem_states.2 (.inl ⟨t, label, he⟩)),
      listed (mem_states.2 (.inr (.inl ⟨s, label, he⟩)))⟩
  · refine SparseTable.size_named unambiguous_idxOf? unambiguous_some fun s id _ mark => ?_
    exact ⟨listed (mem_states.2 (.inr (.inr ⟨id, SparseTable.mem_idsOf.2 mark⟩))), rfl⟩

/-- Renumbering gives the accessible states the numbers below their count, in the order in which a
queue comes to them that starts with state 0, so that farther states have greater numbers. State 0
keeps its number, and the edges and marks of accessible states are kept under the new names. All
these numbers are states afterwards exactly if state 0 leads on or accepts a rule. No run changes,
and neither does a count if all states are accessible. A second time nothing changes, not even an
order in which edges or marks are listed. -/
theorem renumber_positions (m : Automaton) :
    Renumbers m m.renumber m.position m.breadthFirst.length ∧
      (m.renumber.states = List.range m.breadthFirst.length ↔
        (∃ t, m.Edge 0 t) ∨ ∃ id, id ∈ m.ruleIds 0) ∧
      (∀ order, Search.Drains m.nextStates [] [0] order ↔ order = m.breadthFirst) ∧
      (∀ s, m.Accessible s ↔ ∃ d, m.Distance s d) ∧
      (∀ s t d e, m.Distance s d → m.Distance t e → d < e → m.position s < m.position t) ∧
      (∀ codes, m.renumber.run codes = m.run codes) ∧
      (m.Connected → m.renumber.stateCount = m.stateCount ∧
        m.renumber.edges.size = m.edges.size ∧ m.renumber.accepts.size = m.accepts.size) ∧
      m.renumber.breadthFirst = List.range m.breadthFirst.length ∧
      m.renumber.renumber = m.renumber := by
  have h := m.renumbers_renumber
  have drains : Search.Drains m.nextStates [] [0] m.breadthFirst :=
    Search.drains_reach mem_states_of_mem_nextStates (Nat.le_of_eq (Nat.add_comm 1 m.stateCount))
  refine ⟨h, h.states_eq_range_iff, fun order => ⟨fun other => other.unique drains, ?_⟩,
    fun s => accessible_iff_exists_distance,
    fun s t d e hs ht hlt => position_lt_of_distance hs ht hlt, m.run_renumber,
    fun connected => ⟨h.stateCount_eq connected, size_renumber connected⟩,
    m.breadthFirst_renumber, m.renumber_renumber⟩
  rintro rfl
  exact drains

/-- State 9 is two edges away, so that it comes after state 5, though its edge is listed first. -/
theorem renumber_positions_swapped : ∃ m : Automaton,
    m = ⟨.ofCells [⟨5, 9, .singleton 99⟩, ⟨0, 5, .singleton 97⟩, ⟨0, 3, .singleton 98⟩],
        .ofCells [⟨9, 1, ()⟩], 1⟩ ∧
      m.breadthFirst = [0, 3, 5, 9] ∧ m.Distance 5 1 ∧ m.Distance 9 2 ∧
      m.position 5 < m.position 9 ∧ m.Connected ∧ m.renumber.edges.size = 3 ∧
      m.renumber.states = List.range 4 ∧ m.renumber.renumber = m.renumber := by
  obtain ⟨_, states, _, _, farther, _, counts, _, again⟩ := renumber_positions
    ⟨.ofCells [⟨5, 9, .singleton 99⟩, ⟨0, 5, .singleton 97⟩, ⟨0, 3, .singleton 98⟩],
      .ofCells [⟨9, 1, ()⟩], 1⟩
  refine ⟨_, rfl, ?_⟩
  generalize made : Automaton.mk (.ofCells [⟨5, 9, .singleton 99⟩, ⟨0, 5, .singleton 97⟩,
    ⟨0, 3, .singleton 98⟩]) (.ofCells [⟨9, 1, ()⟩]) 1 = m at *
  have order : m.breadthFirst = [0, 3, 5, 9] := by
    subst made
    decide +kernel
  have edges : m.targets 0 = [5, 3] ∧ m.targets 5 = [9] := by
    subst made
    decide +kernel
  have toFive : m.Edge 0 5 := mem_targets.1 (by rw [edges.1]; decide)
  have toNine : m.Edge 5 9 := mem_targets.1 (by rw [edges.2]; decide)
  have start : Search.Way m.Edge [0] 0 0 := .start (List.mem_singleton_self 0)
  have five : m.Distance 5 1 := by
    refine ⟨start.step toFive, fun k way => ?_⟩
    cases way with
    | start seed => exact absurd seed (by decide)
    | step _ _ => exact Nat.succ_pos _
  have nine : m.Distance 9 2 := by
    refine ⟨(start.step toFive).step toNine, fun k way => ?_⟩
    cases way with
    | start seed => exact absurd seed (by decide)
    | step way he =>
      cases way with
      | start seed =>
        rw [List.mem_singleton.1 seed, ← mem_targets, edges.1] at he
        exact absurd he (by decide)
      | step _ _ => exact Nat.le_add_left 2 _
  have connected : m.Connected := by
    have listed : ∀ s ∈ m.states, s ∈ m.breadthFirst := by
      subst made
      decide +kernel
    exact fun s hs => mem_breadthFirst.1 (listed s hs)
  have size : m.edges.size = 3 := by
    subst made
    decide +kernel
  refine ⟨order, five, nine, farther 5 9 1 2 five nine (by decide), connected,
    (counts connected).2.1.trans size, ?_, again⟩
  rw [states.2 (.inl ⟨5, toFive⟩), order]
  rfl

end PatternGroups.Automaton
