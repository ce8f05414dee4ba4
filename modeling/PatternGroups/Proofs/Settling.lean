import PatternGroups.Proofs.Survivors

/-!
# When passes end

A merge removes a state, so that a pass either leaves an automaton as it is or makes it smaller. A
pass that is repeated comes to a round that merges nothing, and it merges nothing exactly if no pair
of states that it compares can be merged.

* `Rounds`, `rounds_exhaust`, `Rounds.count_le`: repetition without a bound, and why it ends;
* `exhaust_fixed`: what a repeated pass leaves, it leaves again;
* `mergeCoEntered_eq_self_iff`, `mergeCoAccepting_eq_self_iff`, `mergeCoLeading_eq_self_iff`,
  `simplify_eq_self_iff`: what is left as it is;
* `simplify_upkeep`: what simplification keeps.
-/

namespace PatternGroups.Automaton

variable {m n : Automaton} {pass : Automaton → Automaton}

/-- Nothing is changed, or a state is lost. -/
def Shrinks (m n : Automaton) : Prop := n = m ∨ n.stateCount < m.stateCount

theorem Shrinks.le (h : Shrinks m n) : n.stateCount ≤ m.stateCount := by
  rcases h with rfl | hlt
  · exact Nat.le_refl _
  · exact Nat.le_of_lt hlt

theorem lasting_shrinks : Lasting Shrinks := by
  refine ⟨fun _ => .inl rfl, ?_⟩
  rintro m n k (rfl | first) other
  · exact other
  · exact .inr (Nat.lt_of_le_of_lt other.le first)

theorem shrinks_mergeSameIncoming {n₁ n₂ : State} (h : m.mergeSameIncoming? n₁ n₂ = some n) :
    Shrinks m n :=
  .inr (isMerge_mergeSameIncoming h).stateCount_lt

theorem shrinks_mergeSameOutgoing {n₁ n₂ : State} (h : m.mergeSameOutgoing? n₁ n₂ = some n) :
    Shrinks m n :=
  .inr (isMerge_mergeSameOutgoing h).stateCount_lt

theorem shrinks_mergeCoEntered (m : Automaton) : Shrinks m m.mergeCoEntered :=
  lasting_shrinks.of_mergeCoEntered (fun _ => shrinks_mergeSameIncoming) m

theorem shrinks_mergeCoAccepting (m : Automaton) : Shrinks m m.mergeCoAccepting :=
  lasting_shrinks.of_mergeCoAccepting (fun _ => shrinks_mergeSameOutgoing) m

theorem shrinks_mergeCoLeading (m : Automaton) : Shrinks m m.mergeCoLeading :=
  lasting_shrinks.of_mergeCoLeading (fun _ => shrinks_mergeSameOutgoing) m

/-! ## Repeated passes -/

/-- A pass repeated without a bound, until a round changes nothing, and the number of rounds before
that one. -/
inductive Rounds (pass : Automaton → Automaton) : Nat → Automaton → Automaton → Prop
  | last {m : Automaton} : pass m = m → Rounds pass 0 m m
  | more {count : Nat} {m n : Automaton} :
      pass m ≠ m → Rounds pass count (pass m) n → Rounds pass (count + 1) m n

section Repeated
variable (h : ∀ m, Shrinks m (pass m))

include h

theorem rounds_settle (bound : Nat) (hb : m.stateCount < bound) :
    ∃ count, Rounds pass count m (settle pass bound m) := by
  induction bound generalizing m with
  | zero => exact absurd hb (Nat.not_lt_zero _)
  | succ bound ih =>
    rw [settle]
    split
    · rename_i fewer
      have changed : pass m ≠ m := fun same => by rw [same] at fewer; omega
      obtain ⟨count, rounds⟩ := ih (m := pass m) (by omega)
      exact ⟨count + 1, .more changed rounds⟩
    · rename_i all
      have same : pass m = m := (h m).resolve_right all
      rw [same]
      exact ⟨0, .last same⟩

theorem rounds_exhaust (m : Automaton) : ∃ count, Rounds pass count m (exhaust pass m) :=
  rounds_settle h _ (Nat.lt_succ_self _)

/-- Each round but the last costs a state. -/
theorem Rounds.count_le {count : Nat} (rounds : Rounds pass count m n) :
    count + n.stateCount ≤ m.stateCount := by
  induction rounds with
  | last _ => omega
  | @more count m n changed _ ih =>
    have fewer := (h m).resolve_left changed
    omega

omit h in
theorem Rounds.fixed {count : Nat} (rounds : Rounds pass count m n) : pass n = n := by
  induction rounds with
  | last same => exact same
  | more _ _ ih => exact ih

theorem exhaust_fixed (m : Automaton) : pass (exhaust pass m) = exhaust pass m := by
  obtain ⟨_, rounds⟩ := rounds_exhaust h m
  exact rounds.fixed

theorem exhaust_eq_self_iff : exhaust pass m = m ↔ pass m = m := by
  constructor
  · intro same
    rw [← same, exhaust_fixed h]
  · intro same
    have last : ¬(pass m).stateCount < m.stateCount := by rw [same]; omega
    rw [exhaust, settle, if_neg last, same]

end Repeated

/-! ## Passes that merge nothing -/

/-- Steps that only make an automaton smaller leave it as it is together only if each does. -/
theorem foldl_eq_self_iff {α : Type} {step : Automaton → α → Automaton}
    (h : ∀ a m, Shrinks m (step m a)) {l : List α} :
    l.foldl step m = m ↔ ∀ a ∈ l, step m a = m := by
  induction l with
  | nil => simp
  | cons a l ih =>
    rw [List.foldl_cons, List.forall_mem_cons]
    constructor
    · intro same
      have first : step m a = m := by
        refine (h a m).resolve_right fun fewer => ?_
        have rest := (lasting_shrinks.of_foldl h l (step m a)).le
        rw [same] at rest
        omega
      rw [first] at same
      exact ⟨first, ih.1 same⟩
    · rintro ⟨first, rest⟩
      rw [first, ih.2 rest]

/-- Two states are entered from a common state. -/
def CoEntered (m : Automaton) (n₁ n₂ : State) : Prop := ∃ s, m.Edge s n₁ ∧ m.Edge s n₂

/-- Two states accept a common rule. -/
def CoAccepting (m : Automaton) (n₁ n₂ : State) : Prop :=
  ∃ id, id ∈ m.ruleIds n₁ ∧ id ∈ m.ruleIds n₂

/-- Two states lead to a common state. -/
def CoLeading (m : Automaton) (n₁ n₂ : State) : Prop := ∃ t, m.Edge n₁ t ∧ m.Edge n₂ t

section Comparisons
variable {rule : Automaton → State → State → Option Automaton}

theorem mergeAmong_eq_self_iff
    (h : ∀ {m n n₁ n₂}, rule m n₁ n₂ = some n → n.stateCount < m.stateCount)
    {siblings : List State} :
    mergeAmong rule siblings m = m ↔
      ∀ n₁ ∈ siblings, ∀ n₂ ∈ siblings, n₁ < n₂ → rule m n₁ n₂ = none := by
  have compare (n₁ n₂ : State) (m : Automaton) :
      Shrinks m (if n₁ < n₂ then (rule m n₁ n₂).getD m else m) ∧
        ((if n₁ < n₂ then (rule m n₁ n₂).getD m else m) = m ↔
          (n₁ < n₂ → rule m n₁ n₂ = none)) := by
    by_cases hlt : n₁ < n₂
    · rw [if_pos hlt]
      cases merged : rule m n₁ n₂ with
      | none => exact ⟨.inl rfl, by simp⟩
      | some n =>
        have fewer := h merged
        have changed : n ≠ m := fun same => by rw [same] at fewer; omega
        exact ⟨.inr fewer, by simp [changed, hlt]⟩
    · rw [if_neg hlt]
      exact ⟨.inl rfl, by simp [hlt]⟩
  have inner (n₁ : State) (m : Automaton) :
      Shrinks m (siblings.foldl
        (fun m n₂ => if n₁ < n₂ then (rule m n₁ n₂).getD m else m) m) :=
    lasting_shrinks.of_foldl (fun n₂ m => (compare n₁ n₂ m).1) siblings m
  rw [mergeAmong, foldl_eq_self_iff inner]
  refine forall₂_congr fun n₁ _ => ?_
  rw [foldl_eq_self_iff fun n₂ m => (compare n₁ n₂ m).1]
  exact forall₂_congr fun n₂ _ => (compare n₁ n₂ m).2

/-- A pass over keys, each of which names the states that are compared for it, leaves an automaton
as it is if no pair of states with a common key can be merged. -/
theorem foldl_mergeAmong_eq_self_iff
    (h : ∀ {m n n₁ n₂}, rule m n₁ n₂ = some n → n.stateCount < m.stateCount)
    {κ : Type} {keys : List κ} {siblings : Automaton → κ → List State}
    (listed : ∀ {k s}, s ∈ siblings m k → k ∈ keys) :
    keys.foldl (fun m k => mergeAmong rule (siblings m k) m) m = m ↔
      ∀ n₁ n₂, n₁ < n₂ → (∃ k, n₁ ∈ siblings m k ∧ n₂ ∈ siblings m k) →
        rule m n₁ n₂ = none := by
  have step (k : κ) (m : Automaton) : Shrinks m (mergeAmong rule (siblings m k) m) :=
    lasting_shrinks.of_mergeAmong (fun _ merged => .inr (h merged)) (siblings m k) m
  simp only [foldl_eq_self_iff step, mergeAmong_eq_self_iff h]
  constructor
  · rintro settled n₁ n₂ hlt ⟨k, h₁, h₂⟩
    exact settled k (listed h₁) n₁ h₁ n₂ h₂ hlt
  · intro settled k _ n₁ h₁ n₂ h₂ hlt
    exact settled n₁ n₂ hlt ⟨k, h₁, h₂⟩

end Comparisons

theorem mergeCoEntered_eq_self_iff : m.mergeCoEntered = m ↔
    ∀ n₁ n₂, n₁ < n₂ → m.CoEntered n₁ n₂ → m.mergeSameIncoming? n₁ n₂ = none := by
  rw [mergeCoEntered,
    foldl_mergeAmong_eq_self_iff fun merged => (isMerge_mergeSameIncoming merged).stateCount_lt]
  · simp only [mem_targets, CoEntered]
  · intro s t ht
    exact SparseTable.mem_rowKeys_iff.2 ⟨t, mem_targets.1 ht⟩

theorem mem_map_accepts {id : RuleId} {s : State} :
    s ∈ (m.accepts.column id).map Prod.fst ↔ id ∈ m.ruleIds s := by
  rw [SparseTable.mem_map_column, ruleIds, SparseTable.mem_idsOf]
  constructor
  · rintro ⟨_, mark⟩
    exact mark
  · exact fun mark => ⟨(), mark⟩

theorem mergeCoAccepting_eq_self_iff : m.mergeCoAccepting = m ↔
    ∀ n₁ n₂, n₁ < n₂ → m.CoAccepting n₁ n₂ → m.mergeSameOutgoing? n₁ n₂ = none := by
  rw [mergeCoAccepting,
    foldl_mergeAmong_eq_self_iff fun merged => (isMerge_mergeSameOutgoing merged).stateCount_lt]
  · simp only [mem_map_accepts, CoAccepting]
  · intro id s hs
    exact mem_accepts_columnKeys.2 ⟨s, mem_map_accepts.1 hs⟩

theorem mergeCoLeading_eq_self_iff : m.mergeCoLeading = m ↔
    ∀ n₁ n₂, n₁ < n₂ → m.CoLeading n₁ n₂ → m.mergeSameOutgoing? n₁ n₂ = none := by
  rw [mergeCoLeading,
    foldl_mergeAmong_eq_self_iff fun merged => (isMerge_mergeSameOutgoing merged).stateCount_lt]
  · simp only [mem_sources, CoLeading]
  · intro t s hs
    exact SparseTable.mem_columnKeys_iff.2 ⟨s, mem_sources.1 hs⟩

theorem simplify_eq_self_iff : m.simplify = m ↔
    m.mergeCoEntered = m ∧ m.mergeCoAccepting = m ∧ m.mergeCoLeading = m := by
  rw [← exhaust_eq_self_iff shrinks_mergeCoEntered, ← exhaust_eq_self_iff shrinks_mergeCoAccepting,
    ← exhaust_eq_self_iff shrinks_mergeCoLeading]
  have entered := lasting_shrinks.of_exhaust shrinks_mergeCoEntered m
  have accepting := lasting_shrinks.of_exhaust shrinks_mergeCoAccepting (exhaust mergeCoEntered m)
  have leading := lasting_shrinks.of_exhaust shrinks_mergeCoLeading
    (exhaust mergeCoAccepting (exhaust mergeCoEntered m))
  constructor
  · intro same
    -- A state that one pass loses does not come back.
    have last : m.stateCount ≤
        (exhaust mergeCoAccepting (exhaust mergeCoEntered m)).stateCount := by
      have fewer := leading.le
      rwa [← simplify, same] at fewer
    have first : exhaust mergeCoEntered m = m :=
      entered.resolve_right fun fewer => by have := accepting.le; omega
    rw [first] at accepting last
    have second : exhaust mergeCoAccepting m = m :=
      accepting.resolve_right fun fewer => by omega
    rw [simplify, first, second] at same
    exact ⟨first, second, same⟩
  · rintro ⟨first, second, third⟩
    rw [simplify, first, second, third]

/-! ## What simplification keeps -/

/-- Simplification ends: each of its three passes comes to a round that changes nothing, and each
round before costs a state. All that it does is to merge states, one into another. State 0 becomes
no other, the states that are left are those that became no other, and each accessible state is or
became an accessible one. What was in order stays in order, and what was homogeneous stays so. -/
theorem simplify_upkeep (m : Automaton) :
    (∃ i j k entered accepting, Rounds mergeCoEntered i m entered ∧
        Rounds mergeCoAccepting j entered accepting ∧
        Rounds mergeCoLeading k accepting m.simplify ∧
        i + j + k + m.simplify.stateCount ≤ m.stateCount) ∧
      (∃ f, Merges m f m.simplify ∧ f 0 = 0 ∧ (0 ∈ m.states → 0 ∈ m.simplify.states) ∧
        (∀ s, s ∈ m.simplify.states ↔ s ∈ m.states ∧ f s = s) ∧
        (∀ s ∈ m.states, f s ∈ m.simplify.states) ∧
        ∀ s, m.Accessible s → m.simplify.Accessible (f s)) ∧
      (m.defect? = none → m.simplify.defect? = none) ∧
      (m.isHomogeneous = true → m.simplify.isHomogeneous = true) := by
  obtain ⟨f, merges⟩ := merges_simplify m
  refine ⟨?_, ⟨f, merges, merges.start, ?_, fun _ => merges.mem_states_iff,
    fun _ => merges.mem_states, fun _ => merges.accessible⟩, ?_, ?_⟩
  · obtain ⟨i, first⟩ := rounds_exhaust shrinks_mergeCoEntered m
    obtain ⟨j, second⟩ := rounds_exhaust shrinks_mergeCoAccepting (exhaust mergeCoEntered m)
    obtain ⟨k, third⟩ := rounds_exhaust shrinks_mergeCoLeading
      (exhaust mergeCoAccepting (exhaust mergeCoEntered m))
    refine ⟨i, j, k, _, _, first, second, third, ?_⟩
    have first := first.count_le shrinks_mergeCoEntered
    have second := second.count_le shrinks_mergeCoAccepting
    have third := third.count_le shrinks_mergeCoLeading
    rw [simplify]
    omega
  · exact fun h => merges.mem_states_iff.2 ⟨h, merges.start⟩
  · rw [defect?_eq_none_iff, defect?_eq_none_iff]
    exact merges.inOrder
  · rw [isHomogeneous_iff, isHomogeneous_iff]
    exact merges.keeps.homogeneous

/-- States 1 and 2 have the same past, and states 3 and 4 then have the same future. -/
theorem simplify_upkeep_diamond : ∃ m : Automaton,
    m = ⟨.ofCells [⟨0, 0, .full⟩, ⟨0, 1, .singleton 97⟩, ⟨0, 2, .singleton 97⟩,
        ⟨1, 3, .singleton 98⟩, ⟨2, 4, .singleton 98⟩], .ofCells [⟨3, 1, ()⟩, ⟨4, 1, ()⟩], 1⟩ ∧
      m.defect? = none ∧ m.isHomogeneous = true ∧ m.stateCount = 5 ∧
      m.simplify.stateCount = 3 ∧ m.simplify.defect? = none ∧ m.simplify.isHomogeneous = true ∧
      ∃ f, Merges m f m.simplify ∧ m.simplify.Accessible (f 4) := by
  refine ⟨_, rfl, by decide +kernel, by decide +kernel, by decide +kernel, by decide +kernel, ?_⟩
  obtain ⟨_, ⟨f, merges, _, _, _, _, accessible⟩, order, homogeneous⟩ := simplify_upkeep
    ⟨.ofCells [⟨0, 0, .full⟩, ⟨0, 1, .singleton 97⟩, ⟨0, 2, .singleton 97⟩,
      ⟨1, 3, .singleton 98⟩, ⟨2, 4, .singleton 98⟩], .ofCells [⟨3, 1, ()⟩, ⟨4, 1, ()⟩], 1⟩
  refine ⟨order (by decide +kernel), homogeneous (by decide +kernel), f, merges,
    accessible 4 ?_⟩
  exact mem_accessible.1 (by decide +kernel)

end PatternGroups.Automaton
