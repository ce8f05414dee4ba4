import PatternGroups.Proofs.Upkeep

/-!
# The states that are left

A merge removes one state and leads its edges and marks to another. So each state of an automaton
becomes one that is left, and what an edge led to is led to still, whatever the labels are. State 0
has no lower state that could take it over.

* `IsMerge`: what both kinds of merge do to the graph of an automaton;
* `Merges.mem_states_iff`, `Merges.mem_states`: the states after any number of merges;
* `Merges.accessible`: accessible states become accessible states;
* `Merges.inOrder`: an automaton in order stays in order.
-/

namespace PatternGroups.Automaton

variable {m n : Automaton} {f : State → State} {n₁ n₂ : State}

/-! ## One merge -/

/-- The second of two states has become the first. -/
structure IsMerge (m n : Automaton) (n₁ n₂ : State) : Prop where
  ne : n₁ ≠ n₂
  first : n₁ ∈ m.states
  second : n₂ ∈ m.states
  marks : ∀ {t id}, id ∈ n.ruleIds t ↔ ∃ s, fold n₁ n₂ s = t ∧ id ∈ m.ruleIds s
  edges : ∀ {t t'}, n.Edge t t' ↔ ∃ s s', fold n₁ n₂ s = t ∧ fold n₁ n₂ s' = t' ∧ m.Edge s s'

theorem isMerge_mergeSameIncoming (h : m.mergeSameIncoming? n₁ n₂ = some n) :
    IsMerge m n n₁ n₂ := by
  obtain ⟨mergeable, _⟩ := mergeSameIncoming?_isSome_iff.1 (Option.isSome_of_eq_some h)
  obtain ⟨hne, entered₁, entered₂⟩ := mergeable_iff.1 mergeable
  refine ⟨hne, mem_states.2 (.inr (.inl entered₁)), mem_states.2 (.inr (.inl entered₂)),
    (isImage_mergeSameIncoming h).marks, ?_⟩
  intro t t'
  simp only [edge_iff_carries]
  exact carries_mergeSameIncoming h SparseTable.additive_true

theorem isMerge_mergeSameOutgoing (h : m.mergeSameOutgoing? n₁ n₂ = some n) :
    IsMerge m n n₁ n₂ := by
  obtain ⟨mergeable, _⟩ := mergeSameOutgoing?_isSome_iff.1 (Option.isSome_of_eq_some h)
  obtain ⟨hne, entered₁, entered₂⟩ := mergeable_iff.1 mergeable
  refine ⟨hne, mem_states.2 (.inr (.inl entered₁)), mem_states.2 (.inr (.inl entered₂)),
    (isImage_mergeSameOutgoing h).marks, ?_⟩
  intro t t'
  simp only [edge_iff_carries]
  exact carries_mergeSameOutgoing h SparseTable.additive_true

namespace IsMerge

theorem edge (h : IsMerge m n n₁ n₂) {s t : State} (he : m.Edge s t) :
    n.Edge (fold n₁ n₂ s) (fold n₁ n₂ t) :=
  h.edges.2 ⟨s, t, rfl, rfl, he⟩

theorem exists_mem_states (h : IsMerge m n n₁ n₂) {t : State} :
    t ∈ n.states ↔ ∃ s, fold n₁ n₂ s = t ∧ s ∈ m.states := by
  constructor
  · intro ht
    rcases mem_states.1 ht with ⟨t', he⟩ | ⟨r, he⟩ | ⟨id, mark⟩
    · obtain ⟨s, s', rfl, -, before⟩ := h.edges.1 he
      exact ⟨s, rfl, mem_states.2 (.inl ⟨s', before⟩)⟩
    · obtain ⟨s, s', -, rfl, before⟩ := h.edges.1 he
      exact ⟨s', rfl, mem_states.2 (.inr (.inl ⟨s, before⟩))⟩
    · obtain ⟨s, rfl, before⟩ := h.marks.1 mark
      exact ⟨s, rfl, mem_states.2 (.inr (.inr ⟨id, before⟩))⟩
  · rintro ⟨s, rfl, hs⟩
    rcases mem_states.1 hs with ⟨t, he⟩ | ⟨r, he⟩ | ⟨id, mark⟩
    · exact mem_states.2 (.inl ⟨_, h.edge he⟩)
    · exact mem_states.2 (.inr (.inl ⟨_, h.edge he⟩))
    · exact mem_states.2 (.inr (.inr ⟨id, h.marks.2 ⟨s, rfl, mark⟩⟩))

theorem mem_states_iff (h : IsMerge m n n₁ n₂) {s : State} :
    s ∈ n.states ↔ s ∈ m.states ∧ s ≠ n₂ := by
  rw [h.exists_mem_states, exists_fold_eq h.ne, and_comm]
  refine and_congr_left fun _ => ⟨?_, .inl⟩
  rintro (hs | ⟨rfl, _⟩)
  · exact hs
  · exact h.first

theorem stateCount_lt (h : IsMerge m n n₁ n₂) : n.stateCount < m.stateCount := by
  have left : n.states = m.states.filter (· ≠ n₂) := by
    refine Ascending.eq_of_mem_iff (Ascending.pairwise_ofList _)
      ((Ascending.pairwise_ofList _).filter _) fun s => ?_
    rw [h.mem_states_iff, List.mem_filter, decide_eq_true_eq]
  rw [stateCount, left, stateCount, List.length_filter_lt_length_iff_exists]
  exact ⟨n₂, h.second, by simp⟩

end IsMerge

/-! ## Any number of merges -/

namespace Merges

/-- What one merge more does is all that has to be known of merges. -/
theorem induction_isMerge {P : (State → State) → Automaton → Prop} (refl : P id m)
    (step : ∀ {f n n' n₁ n₂}, n₁ < n₂ → IsMerge n n' n₁ n₂ → P f n → P (fold n₁ n₂ ∘ f) n')
    (h : Merges m f n) : P f n := by
  induction h with
  | refl => exact refl
  | coEntered _ hlt merged ih => exact step hlt (isMerge_mergeSameIncoming merged) ih
  | coLeading _ hlt merged ih => exact step hlt (isMerge_mergeSameOutgoing merged) ih

/-- A state is left if it has not become another. -/
theorem mem_states_iff (h : Merges m f n) {s : State} :
    s ∈ n.states ↔ s ∈ m.states ∧ f s = s := by
  refine h.induction_isMerge (P := fun f n => s ∈ n.states ↔ s ∈ m.states ∧ f s = s) ?_ ?_
  · simp
  · intro f n n' n₁ n₂ _ merge ih
    rw [merge.mem_states_iff, Function.comp_apply, fold_eq_iff merge.ne, ih, and_assoc]
    refine and_congr_right fun _ => ⟨.inl, ?_⟩
    rintro (kept | ⟨taken, rfl⟩)
    · exact kept
    · -- The first state was left, so that it did not become the second.
      exact absurd ((ih.1 merge.first).2.symm.trans taken) merge.ne

/-- What is no state becomes none. -/
theorem eq_of_not_mem (h : Merges m f n) {s : State} (hs : s ∉ m.states) : f s = s := by
  have both : f s = s ∧ s ∉ n.states := by
    refine h.induction_isMerge (P := fun f n => f s = s ∧ s ∉ n.states) ⟨rfl, hs⟩ ?_
    rintro f n n' n₁ n₂ _ merge ⟨kept, absent⟩
    refine ⟨?_, fun left => absent (merge.mem_states_iff.1 left).1⟩
    rw [Function.comp_apply, kept, fold_of_ne]
    rintro rfl
    exact absent merge.second
  exact both.1

/-- Each state becomes one that is left. -/
theorem mem_states (h : Merges m f n) {s : State} (hs : s ∈ m.states) : f s ∈ n.states := by
  refine h.induction_isMerge (P := fun f n => f s ∈ n.states) hs ?_
  intro f n n' n₁ n₂ _ merge ih
  exact merge.exists_mem_states.2 ⟨f s, rfl, ih⟩

theorem edge (h : Merges m f n) {s t : State} (he : m.Edge s t) : n.Edge (f s) (f t) := by
  refine h.induction_isMerge (P := fun f n => n.Edge (f s) (f t)) he ?_
  intro f n n' n₁ n₂ _ merge ih
  exact merge.edge ih

theorem accessible (h : Merges m f n) {s : State} (way : m.Accessible s) :
    n.Accessible (f s) := by
  induction way with
  | refl =>
    rw [h.start]
    exact .refl
  | tail _ he ih => exact ih.tail (h.edge he)

theorem inOrder (h : Merges m f n) (hm : m.InOrder) : n.InOrder := by
  induction h with
  | refl => exact hm
  | coEntered _ _ merged ih => exact inOrder_mergeSameIncoming merged ih
  | coLeading _ _ merged ih => exact inOrder_mergeSameOutgoing merged ih

end Merges

end PatternGroups.Automaton
