import PatternGroups.Automaton.Stages
import PatternGroups.Proofs.Settling

/-!
# What simplification leaves

The three passes follow one another and none is repeated after a later one. The last leaves the
second nothing to do: states that lead on and have the same future lead to a common state, and the
edges into a state without a way on stay what they were. But a state that takes over another in the
second or the third pass has new edges into it, by which it may be entered as some other state is.

* `mergeCoAccepting_exhaust`: the second pass has nothing to do after the third;
* `Absorbs`: a state that took over no other is entered as it was;
* `simplify_leaves`: which pairs are left, and when a second simplification finds some.
-/

namespace PatternGroups.Automaton

variable {m n : Automaton} {f : State → State} {n₁ n₂ : State}

theorem get?_removeState {a s t : State} : (m.removeState a).edges.get? s t =
    if s ≠ a ∧ t ≠ a then m.edges.get? s t else none := by
  simp [removeState, restrict, SparseTable.get?_keep]

/-- A merge of states with the same future changes no edge into another state. -/
theorem get?_mergeSameOutgoing (h : m.mergeSameOutgoing? n₁ n₂ = some n) {t : State}
    (h₁ : t ≠ n₁) (h₂ : t ≠ n₂) (s : State) :
    n.edges.get? (fold n₁ n₂ s) t = m.edges.get? s t := by
  obtain ⟨hne, same, _, rfl⟩ := mergeSameOutgoing?_cases h
  have away : fold n₁ n₂ s ≠ n₂ := by
    by_cases hs : s = n₂
    · rwa [hs, fold_second]
    · rwa [fold_of_ne hs]
  rw [get?_removeState, if_pos ⟨away, h₂⟩, SparseTable.get?_joinAll_of_absent]
  · by_cases hs : s = n₂
    · rw [hs, fold_second, (sameOutgoing_iff.1 same).2]
    · rw [fold_of_ne hs]
  · rintro e he ⟨_, ht⟩
    obtain ⟨⟨r, label⟩, _, rfl⟩ := List.mem_map.1 he
    exact h₁ ht

/-! ## The second pass after the third -/

/-- A state without a way on. -/
def DeadEnd (m : Automaton) (s : State) : Prop := ∀ t, ¬m.Edge s t

/-- No two states without a way on that accept a common rule can be merged. -/
def DeadEndsSettled (m : Automaton) : Prop :=
  ∀ n₁ n₂, n₁ < n₂ → m.CoAccepting n₁ n₂ → m.DeadEnd n₁ → m.mergeSameOutgoing? n₁ n₂ = none

theorem deadEnd_iff_of_sameOutgoing (h : m.sameOutgoing n₁ n₂ = true) :
    m.DeadEnd n₁ ↔ m.DeadEnd n₂ := by
  simp only [DeadEnd, Edge, (sameOutgoing_iff.1 h).2]

section OneMerge
variable {a b : State} (h : m.mergeSameOutgoing? a b = some n)

include h

/-- Another state is entered by the same labels as before. -/
theorem enteredBy_mergeSameOutgoing {t : State} (ha : t ≠ a) (hb : t ≠ b) {label : SymbolSet} :
    n.EnteredBy t label ↔ m.EnteredBy t label := by
  have entries := get?_mergeSameOutgoing h ha hb
  constructor
  · rintro ⟨s, he⟩
    have left : s ∈ n.states := mem_states.2 (.inl ⟨t, label, he⟩)
    have hs : s ≠ b := ((isMerge_mergeSameOutgoing h).mem_states_iff.1 left).2
    exact ⟨s, by rw [← entries, fold_of_ne hs, he]⟩
  · rintro ⟨s, he⟩
    exact ⟨fold a b s, (entries s).trans he⟩

theorem entered_mergeSameOutgoing {t : State} (ha : t ≠ a) (hb : t ≠ b) :
    (∃ r, n.Edge r t) ↔ ∃ r, m.Edge r t := by
  simp only [Edge, exists_comm (α := State)]
  exact exists_congr fun label => enteredBy_mergeSameOutgoing h ha hb

theorem deadEnd_of_mergeSameOutgoing {t : State} (hb : t ≠ b) (dead : n.DeadEnd t) :
    m.DeadEnd t := by
  intro t' he
  have image := (isMerge_mergeSameOutgoing h).edge he
  rw [fold_of_ne hb] at image
  exact dead _ image

theorem mem_ruleIds_mergeSameOutgoing {t : State} (hb : t ≠ b) {id : RuleId} :
    id ∈ n.ruleIds t ↔ id ∈ m.ruleIds t := by
  obtain ⟨hne, same, _, _⟩ := mergeSameOutgoing?_cases h
  rw [(isMerge_mergeSameOutgoing h).marks, exists_fold_eq hne, and_iff_right hb]
  refine ⟨?_, .inl⟩
  rintro (mark | ⟨rfl, mark⟩)
  · exact mark
  · exact ((sameOutgoing_iff.1 same).1 id).2 mark

/-- A state without a way on that accepts a rule has taken over no other, as it would have been
merged in the second pass. -/
theorem ne_first_of_deadEnd (hm : m.DeadEndsSettled) (order : a < b) {t : State} (hb : t ≠ b)
    (dead : n.DeadEnd t) {id : RuleId} (mark : id ∈ n.ruleIds t) : t ≠ a := by
  rintro rfl
  obtain ⟨_, same, _, _⟩ := mergeSameOutgoing?_cases h
  have before := (mem_ruleIds_mergeSameOutgoing h hb).1 mark
  have none := hm t b order ⟨id, before, ((sameOutgoing_iff.1 same).1 id).1 before⟩
    (deadEnd_of_mergeSameOutgoing h hb dead)
  rw [h] at none
  cases none

theorem deadEndsSettled_mergeSameOutgoing (order : a < b) (hm : m.DeadEndsSettled) :
    n.DeadEndsSettled := by
  rintro p q hlt ⟨id, hp, hq⟩ dead
  by_contra left
  obtain ⟨mergeable, same, labels⟩ :=
    mergeSameOutgoing?_isSome_iff.1 (Option.isSome_iff_ne_none.2 left)
  have dead' : n.DeadEnd q := (deadEnd_iff_of_sameOutgoing same).1 dead
  obtain ⟨hne, entered, entered'⟩ := mergeable_iff.1 mergeable
  have merge := isMerge_mergeSameOutgoing h
  have pb : p ≠ b := (merge.mem_states_iff.1 (mem_states.2 (.inr (.inl entered)))).2
  have qb : q ≠ b := (merge.mem_states_iff.1 (mem_states.2 (.inr (.inl entered')))).2
  have pa := ne_first_of_deadEnd h hm order pb dead hp
  have qa := ne_first_of_deadEnd h hm order qb dead' hq
  -- Neither of the two took part in the merge, so that they could have been merged before it.
  have deadBefore := deadEnd_of_mergeSameOutgoing h pb dead
  have deadBefore' := deadEnd_of_mergeSameOutgoing h qb dead'
  have before : (m.mergeSameOutgoing? p q).isSome = true := by
    refine mergeSameOutgoing?_isSome_iff.2 ⟨mergeable_iff.2 ⟨hne, ?_, ?_⟩, ?_, ?_⟩
    · exact (entered_mergeSameOutgoing h pa pb).1 entered
    · exact (entered_mergeSameOutgoing h qa qb).1 entered'
    · refine sameOutgoing_iff.2 ⟨fun id => ?_, fun t => ?_⟩
      · rw [← mem_ruleIds_mergeSameOutgoing h pb, ← mem_ruleIds_mergeSameOutgoing h qb]
        exact (sameOutgoing_iff.1 same).1 id
      · have none (s : State) (hs : m.DeadEnd s) : m.edges.get? s t = none :=
          Option.eq_none_iff_forall_ne_some.2 fun label he => hs t ⟨label, he⟩
        rw [none p deadBefore, none q deadBefore']
    · refine sameLabel_append_iff.2 ?_
      simp only [← enteredBy_mergeSameOutgoing h pa pb, ← enteredBy_mergeSameOutgoing h qa qb]
      exact sameLabel_append_iff.1 labels
  have none := hm p q hlt ⟨id, (mem_ruleIds_mergeSameOutgoing h pb).1 hp,
    (mem_ruleIds_mergeSameOutgoing h qb).1 hq⟩ deadBefore
  rw [none] at before
  cases before

end OneMerge

theorem lasting_deadEndsSettled : Lasting fun m n => m.DeadEndsSettled → n.DeadEndsSettled :=
  ⟨fun _ => id, fun first other h => other (first h)⟩

/-- What the second pass leaves, it leaves again after the third. -/
theorem mergeCoAccepting_exhaust (hm : m.mergeCoAccepting = m) :
    (exhaust mergeCoLeading m).mergeCoAccepting = exhaust mergeCoLeading m := by
  have settled : m.DeadEndsSettled := fun n₁ n₂ hlt shared _ =>
    mergeCoAccepting_eq_self_iff.1 hm n₁ n₂ hlt shared
  have deadEnds : (exhaust mergeCoLeading m).DeadEndsSettled :=
    lasting_deadEndsSettled.of_exhaust
      (lasting_deadEndsSettled.of_mergeCoLeading fun hlt merged =>
        deadEndsSettled_mergeSameOutgoing merged hlt) m settled
  have coLeading := mergeCoLeading_eq_self_iff.1 (exhaust_fixed shrinks_mergeCoLeading m)
  refine mergeCoAccepting_eq_self_iff.2 fun p q hlt shared => ?_
  by_cases dead : (exhaust mergeCoLeading m).DeadEnd p
  · exact deadEnds p q hlt shared dead
  · by_contra left
    -- States with the same future lead to what the first of them leads to.
    obtain ⟨_, same, _⟩ := mergeSameOutgoing?_isSome_iff.1 (Option.isSome_iff_ne_none.2 left)
    simp only [DeadEnd, not_forall, not_not] at dead
    obtain ⟨t, label, he⟩ := dead
    have he' := ((sameOutgoing_iff.1 same).2 t).symm.trans he
    exact left (coLeading p q hlt ⟨t, ⟨label, he⟩, label, he'⟩)

/-! ## What takes over no other state -/

/-- No other state has become a state, and it has become no other. -/
def Sole (f : State → State) (t : State) : Prop := ∀ s, f s = t ↔ s = t

/-- States are merged into others so that the edges into each state that took over no other are as
they were. -/
structure Absorbs (m n : Automaton) (f : State → State) : Prop where
  merges : Merges m f n
  entries : ∀ t, Sole f t → ∀ s, n.edges.get? (f s) t = m.edges.get? s t

theorem sole_fold (hne : n₁ ≠ n₂) {t : State} : Sole (fold n₁ n₂) t ↔ t ≠ n₁ ∧ t ≠ n₂ := by
  simp only [Sole, fold_eq_iff hne]
  constructor
  · intro sole
    exact ⟨fun ht => hne (ht ▸ ((sole n₂).1 (.inr ⟨rfl, ht⟩)).symm),
      fun ht => ((sole t).2 rfl).elim (fun h => h.2 ht) fun h => hne (h.2.symm.trans h.1)⟩
  · rintro ⟨h₁, h₂⟩ s
    exact ⟨fun h => h.elim And.left fun h => absurd h.2 h₁, fun h => .inl ⟨h, h₂⟩⟩

theorem Absorbs.refl (m : Automaton) : Absorbs m m id := ⟨.refl, fun _ _ _ => rfl⟩

/-- If no state became a state by two rows of merges, none did by the second or by the first. -/
theorem sole_of_comp {g : State → State} {k : Automaton} (h : Merges m f n) (hg : Merges n g k)
    {t : State} (sole : Sole (g ∘ f) t) : Sole f t ∧ Sole g t := by
  have second : Sole g t := by
    intro u
    by_cases hu : u ∈ n.states
    · rw [← sole u, Function.comp_apply, (h.mem_states_iff.1 hu).2]
    · rw [hg.eq_of_not_mem hu]
  refine ⟨fun s => ?_, second⟩
  rw [← sole s, Function.comp_apply, second]

theorem Absorbs.trans {g : State → State} {k : Automaton} (h : Absorbs m n f)
    (hg : Absorbs n k g) : Absorbs m k (g ∘ f) := by
  refine ⟨h.merges.trans hg.merges, fun t sole s => ?_⟩
  obtain ⟨first, second⟩ := sole_of_comp h.merges hg.merges sole
  rw [Function.comp_apply, hg.entries t second, h.entries t first]

theorem absorbs_mergeSameOutgoing (order : n₁ < n₂) (h : m.mergeSameOutgoing? n₁ n₂ = some n) :
    Absorbs m n (fold n₁ n₂) := by
  refine ⟨.coLeading .refl order h, fun t sole s => ?_⟩
  obtain ⟨h₁, h₂⟩ := (sole_fold (Nat.ne_of_lt order)).1 sole
  exact get?_mergeSameOutgoing h h₁ h₂ s

theorem lasting_absorbs : Lasting fun m n => ∃ f, Absorbs m n f :=
  ⟨fun m => ⟨id, .refl m⟩, fun ⟨_, first⟩ ⟨_, other⟩ => ⟨_, first.trans other⟩⟩

namespace Absorbs

variable (h : Absorbs m n f)

include h

theorem edge_of_sole {s t : State} (sole : Sole f t) (he : n.Edge s t) : m.Edge s t := by
  have left : s ∈ n.states := mem_states.2 (.inl ⟨t, he⟩)
  obtain ⟨label, he⟩ := he
  refine ⟨label, ?_⟩
  rw [← h.entries t sole, (h.merges.mem_states_iff.1 left).2, he]

theorem foldedLabel_of_sole {p q t : State} (hp : Sole f p) (hq : Sole f q) (sole : Sole f t)
    (s : State) : n.foldedLabel p q (f s) t = m.foldedLabel p q s t := by
  have entry (s : State) (hs : f s = s) : n.edges.get? s t = m.edges.get? s t := by
    rw [← h.entries t sole, hs]
  unfold foldedLabel
  simp only [hp s, hq s, h.entries t sole s, entry p ((hp p).2 rfl), entry q ((hq q).2 rfl)]

/-- States that took over no other and that can be merged as they are entered by the same edges
could have been merged before. -/
theorem coEntered_before {p q : State} (hp : Sole f p) (hq : Sole f q)
    (shared : n.CoEntered p q) (left : (n.mergeSameIncoming? p q).isSome = true) :
    m.CoEntered p q ∧ (m.mergeSameIncoming? p q).isSome = true := by
  obtain ⟨u, hup, huq⟩ := shared
  obtain ⟨mergeable, same⟩ := mergeSameIncoming?_isSome_iff.1 left
  obtain ⟨hne, ⟨r, hr⟩, ⟨r', hr'⟩⟩ := mergeable_iff.1 mergeable
  refine ⟨⟨u, h.edge_of_sole hp hup, h.edge_of_sole hq huq⟩,
    mergeSameIncoming?_isSome_iff.2 ⟨mergeable_iff.2 ⟨hne, ?_, ?_⟩, ?_⟩⟩
  · exact ⟨r, h.edge_of_sole hp hr⟩
  · exact ⟨r', h.edge_of_sole hq hr'⟩
  · refine (sameIncoming_iff hne).2 fun s => ?_
    rw [← h.foldedLabel_of_sole hp hq hp, ← h.foldedLabel_of_sole hp hq hq]
    exact (sameIncoming_iff hne).1 same (f s)

theorem exists_of_not_sole {t : State} (ht : t ∈ n.states) (shared : ¬Sole f t) :
    ∃ s ∈ m.states, f s ≠ s ∧ f s = t := by
  have kept : f t = t := (h.merges.mem_states_iff.1 ht).2
  simp only [Sole, not_forall] at shared
  obtain ⟨s, hs⟩ := shared
  have other : f s = t ∧ s ≠ t := by
    by_cases same : s = t
    · exact absurd (iff_of_true (same ▸ kept) same) hs
    · exact ⟨by_contra fun away => hs (iff_of_false away same), same⟩
  refine ⟨s, ?_, other.1 ▸ other.2.symm, other.1⟩
  by_contra absent
  exact other.2 ((h.merges.eq_of_not_mem absent).symm.trans other.1)

end Absorbs

/-- When simplification returns, no two states that accept a common rule or lead to a common state
have the same future and can be merged. So it leaves its result as it is exactly if no two states
entered from a common state are entered by the same edges. Such a pair may be left, as no pass
follows the third; one of its states took over another in the second or the third pass. -/
theorem simplify_leaves (m : Automaton) :
    (∀ n₁ n₂, n₁ < n₂ → m.simplify.CoAccepting n₁ n₂ ∨ m.simplify.CoLeading n₁ n₂ →
        m.simplify.mergeSameOutgoing? n₁ n₂ = none) ∧
      (m.simplify.simplify = m.simplify ↔
        ∀ n₁ n₂, n₁ < n₂ → m.simplify.CoEntered n₁ n₂ →
          m.simplify.mergeSameIncoming? n₁ n₂ = none) ∧
      ∃ f, Merges (exhaust mergeCoEntered m) f m.simplify ∧
        ∀ n₁ n₂, n₁ < n₂ → m.simplify.CoEntered n₁ n₂ →
          m.simplify.mergeSameIncoming? n₁ n₂ ≠ none →
          ∃ s ∈ (exhaust mergeCoEntered m).states, f s ≠ s ∧ (f s = n₁ ∨ f s = n₂) := by
  have accepting : m.simplify.mergeCoAccepting = m.simplify :=
    mergeCoAccepting_exhaust (exhaust_fixed shrinks_mergeCoAccepting _)
  have leading : m.simplify.mergeCoLeading = m.simplify := exhaust_fixed shrinks_mergeCoLeading _
  refine ⟨?_, ?_, ?_⟩
  · rintro n₁ n₂ hlt (shared | shared)
    · exact mergeCoAccepting_eq_self_iff.1 accepting n₁ n₂ hlt shared
    · exact mergeCoLeading_eq_self_iff.1 leading n₁ n₂ hlt shared
  · rw [simplify_eq_self_iff, ← mergeCoEntered_eq_self_iff]
    exact ⟨fun settled => settled.1, fun settled => ⟨settled, accepting, leading⟩⟩
  · obtain ⟨f, absorbs⟩ : ∃ f, Absorbs (exhaust mergeCoEntered m) m.simplify f :=
      lasting_absorbs.trans
        (lasting_absorbs.of_exhaust (lasting_absorbs.of_mergeCoAccepting fun order merged =>
          ⟨_, absorbs_mergeSameOutgoing order merged⟩) _)
        (lasting_absorbs.of_exhaust (lasting_absorbs.of_mergeCoLeading fun order merged =>
          ⟨_, absorbs_mergeSameOutgoing order merged⟩) _)
    refine ⟨f, absorbs.merges, fun n₁ n₂ hlt shared left => ?_⟩
    obtain ⟨u, h₁, h₂⟩ := shared
    by_cases sole₁ : Sole f n₁
    · by_cases sole₂ : Sole f n₂
      · -- The first pass would have merged the two.
        obtain ⟨before, some⟩ := absorbs.coEntered_before sole₁ sole₂ ⟨u, h₁, h₂⟩
          (Option.isSome_iff_ne_none.2 left)
        have none := mergeCoEntered_eq_self_iff.1 (exhaust_fixed shrinks_mergeCoEntered m)
          n₁ n₂ hlt before
        rw [none] at some
        cases some
      · obtain ⟨s, hs, moved, became⟩ :=
          absorbs.exists_of_not_sole (mem_states.2 (.inr (.inl ⟨u, h₂⟩))) sole₂
        exact ⟨s, hs, moved, .inr became⟩
    · obtain ⟨s, hs, moved, became⟩ :=
        absorbs.exists_of_not_sole (mem_states.2 (.inr (.inl ⟨u, h₁⟩))) sole₁
      exact ⟨s, hs, moved, .inl became⟩

/-- State 2 takes over state 3 in the third pass, and is then entered as state 1 is. -/
theorem simplify_leaves_taken : ∃ m : Automaton,
    m = ⟨.ofCells [⟨0, 0, .full⟩, ⟨0, 2, .singleton 97⟩, ⟨0, 1, .singleton 97⟩,
        ⟨3, 3, .singleton 97⟩, ⟨3, 1, .singleton 97⟩, ⟨2, 3, .singleton 97⟩,
        ⟨2, 1, .singleton 97⟩], .ofCells [⟨1, 1, ()⟩], 1⟩ ∧
      1 < 2 ∧ m.simplify.CoEntered 1 2 ∧ m.simplify.mergeSameIncoming? 1 2 ≠ none ∧
      m.simplify.simplify ≠ m.simplify ∧
      ∃ f, Merges (exhaust mergeCoEntered m) f m.simplify ∧
        ∃ s ∈ (exhaust mergeCoEntered m).states, f s ≠ s ∧ (f s = 1 ∨ f s = 2) := by
  obtain ⟨_, again, f, merges, taken⟩ := simplify_leaves
    ⟨.ofCells [⟨0, 0, .full⟩, ⟨0, 2, .singleton 97⟩, ⟨0, 1, .singleton 97⟩,
      ⟨3, 3, .singleton 97⟩, ⟨3, 1, .singleton 97⟩, ⟨2, 3, .singleton 97⟩,
      ⟨2, 1, .singleton 97⟩], .ofCells [⟨1, 1, ()⟩], 1⟩
  have shared : (simplify ⟨.ofCells [⟨0, 0, .full⟩, ⟨0, 2, .singleton 97⟩, ⟨0, 1, .singleton 97⟩,
      ⟨3, 3, .singleton 97⟩, ⟨3, 1, .singleton 97⟩, ⟨2, 3, .singleton 97⟩,
      ⟨2, 1, .singleton 97⟩], .ofCells [⟨1, 1, ()⟩], 1⟩).CoEntered 1 2 :=
    ⟨0, mem_targets.1 (by decide +kernel), mem_targets.1 (by decide +kernel)⟩
  have left : (simplify ⟨.ofCells [⟨0, 0, .full⟩, ⟨0, 2, .singleton 97⟩, ⟨0, 1, .singleton 97⟩,
      ⟨3, 3, .singleton 97⟩, ⟨3, 1, .singleton 97⟩, ⟨2, 3, .singleton 97⟩,
      ⟨2, 1, .singleton 97⟩], .ofCells [⟨1, 1, ()⟩], 1⟩).mergeSameIncoming? 1 2 ≠ none :=
    Option.isSome_iff_ne_none.1 (by decide +kernel)
  exact ⟨_, rfl, by decide, shared, left, fun same => left (again.1 same 1 2 (by decide) shared),
    f, merges, taken 1 2 (by decide) shared left⟩

/-- The simplified automaton of a regex has two states entered from state 0 by the same edges, and
another simplification merges them. -/
theorem simplify_simplify_differs : ∃ first m,
    EpsilonAutomaton.ofRegexes? ["a|aa+"] = .ok first ∧ m = first.eliminate.simplify ∧
      m.CoEntered 1 2 ∧ m.mergeSameIncoming? 1 2 ≠ none ∧ m.stateCount = 3 ∧
      m.simplify.stateCount = 2 := by
  have sizes : ((EpsilonAutomaton.ofRegexes? ["a|aa+"]).toOption.map fun first =>
      (first.eliminate.simplify.targets 0,
        (first.eliminate.simplify.mergeSameIncoming? 1 2).isSome,
        first.eliminate.simplify.stateCount, first.eliminate.simplify.simplify.stateCount)) =
      some ([0, 2, 1], true, 3, 2) := by
    decide +kernel
  cases h : EpsilonAutomaton.ofRegexes? ["a|aa+"] with
  | error refusal =>
    rw [h] at sizes
    cases sizes
  | ok first =>
    rw [h] at sizes
    simp only [Except.toOption, Option.map_some, Option.some.injEq, Prod.mk.injEq] at sizes
    obtain ⟨targets, left, before, after⟩ := sizes
    have entered (t : State) (ht : t ∈ [0, 2, 1]) : first.eliminate.simplify.Edge 0 t :=
      mem_targets.1 (targets ▸ ht)
    exact ⟨first, _, rfl, rfl, ⟨0, entered 1 (by decide), entered 2 (by decide)⟩,
      Option.isSome_iff_ne_none.1 left, before, after⟩

end PatternGroups.Automaton
