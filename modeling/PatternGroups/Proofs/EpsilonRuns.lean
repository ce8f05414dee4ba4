import PatternGroups.EpsilonAutomaton
import PatternGroups.Proofs.Moves
import PatternGroups.Proofs.Reachability

/-!
# What a run with ε-edges finds

* `mem_closure`: a closure holds exactly what ε-edges lead to, through cycles as well;
* `mem_run`: a run lists the rules found from state 0, where a state may jump before and after each
  symbol.
-/

namespace PatternGroups

theorem BitSet.contains_insertAll {S : BitSet} {states : List State} {t : State} :
    (S.insertAll states).contains t = true ↔ S.contains t = true ∨ t ∈ states := by
  induction states generalizing S with
  | nil => simp [insertAll]
  | cons s rest ih =>
    have step : S.insertAll (s :: rest) = (S.insert s).insertAll rest := rfl
    rw [step, ih, contains_insert, Bool.or_eq_true, decide_eq_true_eq, or_assoc, List.mem_cons,
      eq_comm (a := s)]

theorem BitSet.contains_singleton {s t : State} {capacity : Nat} :
    (BitSet.singleton s capacity).contains t = true ↔ t = s := by
  simp [BitSet.singleton, contains_insert, eq_comm]

namespace EpsilonAutomaton

open Relation

variable {m : EpsilonAutomaton}

def Jump (m : EpsilonAutomaton) (s t : State) : Prop := m.jumps.get? s t = some ()

/-- Edges and ε-edges stay below the number of states. -/
structure WellFormed (m : EpsilonAutomaton) : Prop where
  edges : ∀ {s t label}, m.edges.get? s t = some label → s < m.states ∧ t < m.states
  jumps : ∀ {s t}, m.Jump s t → s < m.states ∧ t < m.states

theorem mem_jumpTargets {s t : State} : t ∈ m.jumpTargets s ↔ m.Jump s t := by
  unfold jumpTargets Jump
  rw [SparseTable.mem_map_row]
  exact ⟨fun ⟨_, h⟩ => h, fun h => ⟨(), h⟩⟩

theorem mem_closure (hm : m.WellFormed) {S : BitSet} {t : State} :
    (m.closure S).contains t = true ↔ ∃ s, S.contains s = true ∧ ReflTransGen m.Jump s t := by
  have reached : t ∈ Search.reach m.jumpTargets (S.size + m.states) S.members ↔
      ∃ s ∈ S.members, ReflTransGen (Search.Move m.jumpTargets) s t :=
    Search.mem_reach (U := List.range m.states)
      (fun s r hr => List.mem_range.2 (hm.jumps (mem_jumpTargets.1 hr)).2)
      (by simp [BitSet.size])
  have same : Search.Move m.jumpTargets = m.Jump := by
    funext s r
    exact propext mem_jumpTargets
  rw [closure, BitSet.contains_insertAll, reached, same]
  simp only [BitSet.mem_members]
  constructor
  · rintro (h | h)
    · exact ⟨t, h, .refl⟩
    · exact h
  · exact .inr

/-! ## Finding with jumps -/

inductive Finds (m : EpsilonAutomaton) : State → List Nat → RuleId → Prop
  | here {s : State} {codes : List Nat} {id : RuleId} :
      id ∈ m.accepts.idsOf s → Finds m s codes id
  | jump {s t : State} {codes : List Nat} {id : RuleId} :
      m.Jump s t → Finds m t codes id → Finds m s codes id
  | later {s t : State} {code : Nat} {codes : List Nat} {id : RuleId} :
      m.edges.Leads s code t → Finds m t codes id → Finds m s (code :: codes) id

theorem Finds.of_jumps {s t : State} {codes : List Nat} {id : RuleId}
    (jumps : ReflTransGen m.Jump s t) (h : m.Finds t codes id) : m.Finds s codes id := by
  induction jumps using ReflTransGen.head_induction_on with
  | refl => exact h
  | head jump _ ih => exact .jump jump ih

/-- A rule is found by jumps to a mark, or by jumps to an edge for the next symbol. -/
theorem Finds.jumps_first {s : State} {codes : List Nat} {id : RuleId}
    (h : m.Finds s codes id) : ∃ r, ReflTransGen m.Jump s r ∧ (id ∈ m.accepts.idsOf r ∨
      ∃ code rest t, codes = code :: rest ∧ m.edges.Leads r code t ∧ m.Finds t rest id) := by
  induction h with
  | here mark => exact ⟨_, .refl, .inl mark⟩
  | jump jump _ ih =>
    obtain ⟨r, jumps, found⟩ := ih
    exact ⟨r, jumps.head jump, found⟩
  | later move found _ => exact ⟨_, .refl, .inr ⟨_, _, _, rfl, move, found⟩⟩

theorem finds_nil {s : State} {id : RuleId} :
    m.Finds s [] id ↔ ∃ r, ReflTransGen m.Jump s r ∧ id ∈ m.accepts.idsOf r := by
  constructor
  · intro h
    obtain ⟨r, jumps, mark | ⟨_, _, _, hc, _⟩⟩ := h.jumps_first
    · exact ⟨r, jumps, mark⟩
    · cases hc
  · rintro ⟨r, jumps, mark⟩
    exact .of_jumps jumps (.here mark)

theorem finds_cons {s : State} {code : Nat} {codes : List Nat} {id : RuleId} :
    m.Finds s (code :: codes) id ↔
      (∃ r, ReflTransGen m.Jump s r ∧ id ∈ m.accepts.idsOf r) ∨
        ∃ t, (∃ r, ReflTransGen m.Jump s r ∧ m.edges.Leads r code t) ∧ m.Finds t codes id := by
  constructor
  · intro h
    obtain ⟨r, jumps, mark | ⟨_, _, t, hc, move, found⟩⟩ := h.jumps_first
    · exact .inl ⟨r, jumps, mark⟩
    · obtain ⟨rfl, rfl⟩ := List.cons.inj hc
      exact .inr ⟨t, ⟨r, jumps, move⟩, found⟩
  · rintro (⟨r, jumps, mark⟩ | ⟨t, ⟨r, jumps, move⟩, found⟩)
    · exact .of_jumps jumps (.here mark)
    · exact .of_jumps jumps (.later move found)

/-! ## Runs -/

theorem mem_idsOf_closure (hm : m.WellFormed) {S : BitSet} {id : RuleId} :
    id ∈ m.idsOf (m.closure S) ↔
      ∃ s, S.contains s = true ∧ ∃ r, ReflTransGen m.Jump s r ∧ id ∈ m.accepts.idsOf r := by
  simp only [idsOf, List.mem_flatMap, BitSet.mem_members, mem_closure hm]
  constructor
  · rintro ⟨r, ⟨s, hs, jumps⟩, mark⟩
    exact ⟨s, hs, r, jumps, mark⟩
  · rintro ⟨s, hs, r, jumps, mark⟩
    exact ⟨r, ⟨s, hs, jumps⟩, mark⟩

/-- A simulation holds the closure of a set `S` at each moment; what it finds from there on is what
the members of `S` find. -/
theorem mem_idsFound (hm : m.WellFormed) {S : BitSet} {codes : List Nat} {id : RuleId} :
    id ∈ idsFound m.step m.idsOf (m.closure S) codes ↔
      ∃ s, S.contains s = true ∧ m.Finds s codes id := by
  induction codes generalizing S with
  | nil => simp only [idsFound, mem_idsOf_closure hm, finds_nil]
  | cons code codes ih =>
    have entered {t : State} :
        ((BitSet.empty m.states).insertAll
          ((m.closure S).members.flatMap (m.edges.successors code))).contains t = true ↔
        ∃ s, S.contains s = true ∧ ∃ r, ReflTransGen m.Jump s r ∧ m.edges.Leads r code t := by
      rw [BitSet.contains_insertAll, BitSet.contains_empty, List.mem_flatMap]
      simp only [Bool.false_eq_true, false_or, BitSet.mem_members, mem_closure hm,
        SparseTable.mem_successors]
      constructor
      · rintro ⟨r, ⟨s, hs, jumps⟩, move⟩
        exact ⟨s, hs, r, jumps, move⟩
      · rintro ⟨s, hs, r, jumps, move⟩
        exact ⟨r, ⟨s, hs, jumps⟩, move⟩
    rw [idsFound, List.mem_append, mem_idsOf_closure hm, step, ih]
    simp only [entered, finds_cons]
    constructor
    · rintro (⟨s, hs, mark⟩ | ⟨t, ⟨s, hs, move⟩, found⟩)
      · exact ⟨s, hs, .inl mark⟩
      · exact ⟨s, hs, .inr ⟨t, move, found⟩⟩
    · rintro ⟨s, hs, mark | ⟨t, move, found⟩⟩
      · exact .inl ⟨s, hs, mark⟩
      · exact .inr ⟨t, ⟨s, hs, move⟩, found⟩

theorem mem_run (hm : m.WellFormed) {codes : List Nat} {id : RuleId} :
    id ∈ m.run codes ↔ m.Finds 0 codes id := by
  simp only [run, Ascending.mem_ofList, initial, mem_idsFound hm, BitSet.contains_singleton,
    exists_eq_left]

end EpsilonAutomaton

end PatternGroups
