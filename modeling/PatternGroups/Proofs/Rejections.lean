import PatternGroups.Proofs.Plans
import PatternGroups.Proofs.StartLoop

/-!
# Rejected rules

The last group is always empty, and it is the only one: an automaton has states, so that the groups
with rules are sorted before it, and when a rule begins a group another empty one is added. A rule
is therefore residual only if no group at all has room for it, not even one of its own. Rules of
groups that are given up are residual, too, but no group is given up if fewer are kept than may be.

* `EndsEmpty`, `endsEmpty_arrange`: the empty group stays the last when groups are sorted;
* `Selective.add`, `selective_ofRules`: the invariant, for one rule and for all;
* `Refuses.oversized`: what it is to be refused by an empty group;
* `oversized_ofRegexes`: a plan with room for more groups.
-/

namespace PatternGroups.Plan

open List (Perm)
open scoped List

variable {settings : Settings} {regexes : List String} {rule : Rule} {rules : List Rule}
  {groups : List Draft} {p q : Progress} {plan : Plan}

/-! ## The empty group -/

/-- A group has rules, and an automaton. -/
structure Draft.Begun (d : Draft) : Prop where
  rules : d.rules ≠ []
  states : 0 < d.states

theorem Joins.begun {draft joined : Draft} (h : Joins settings rule draft joined) :
    joined.Begun := by
  constructor
  · simp [h.rules]
  · rw [h.sized.states_eq]
    exact Automaton.stateCount_pos (Automaton.rooted_ofChains _)

/-- The last group is empty, and no other one. -/
def EndsEmpty (groups : List Draft) : Prop :=
  ∃ full, groups = full ++ [.empty] ∧ ∀ d ∈ full, d.Begun

theorem EndsEmpty.mem (h : EndsEmpty groups) : .empty ∈ groups := by
  obtain ⟨full, rfl, _⟩ := h
  simp

/-- Sorting leaves the empty group behind all others. -/
theorem endsEmpty_of_perm {full : List Draft} (begun : ∀ d ∈ full, d.Begun)
    (same : groups ~ full ++ [.empty])
    (descending : groups.Pairwise fun d e => e.states ≤ d.states) : EndsEmpty groups := by
  have member : .empty ∈ groups := same.mem_iff.2 (by simp)
  rcases groups.eq_nil_or_concat' with rfl | ⟨before, last, rfl⟩
  · cases member
  · have least : last = .empty := by
      by_contra other
      have earlier : .empty ∈ before := by simpa [Ne.symm other] using member
      have listed : last ∈ full ++ [.empty] := same.mem_iff.1 (by simp)
      have some : 0 < last.states := (begun last (by simpa [other] using listed)).states
      have none : last.states ≤ 0 :=
        (List.pairwise_append.1 descending).2.2 _ earlier last (by simp)
      omega
    subst least
    have others := (List.perm_append_right_iff _).1 same
    exact ⟨before, rfl, fun d hd => begun d (others.mem_iff.1 hd)⟩

theorem endsEmpty_arrange (h : ∀ d ∈ groups, d.Begun) :
    EndsEmpty (arrange (groups ++ [.empty])) := by
  obtain ⟨full, same, begun⟩ :=
    endsEmpty_of_perm h (Sorting.sort_perm _ _) (pairwise_sort_states (groups ++ [.empty]))
  refine ⟨full, ?_, begun⟩
  rw [arrange, same, if_pos]
  simp [Draft.empty]

/-- If no group is empty, an empty one is added. -/
theorem endsEmpty_arrange_of_begun (h : ∀ d ∈ groups, d.Begun) : EndsEmpty (arrange groups) := by
  have sorted := Sorting.sort_perm (fun a b : Draft => decide (b.states ≤ a.states)) groups
  refine ⟨_, if_neg ?_, fun d hd => h d (sorted.mem_iff.1 hd)⟩
  simp only [Option.any_eq_true, List.isEmpty_iff, not_exists, not_and]
  intro d last
  exact (h d (sorted.mem_iff.1 (List.mem_of_getLast? last))).rules

/-- A rule joins the last group, which is not empty any more, or another one. -/
theorem EndsEmpty.join {left right : List Draft} {draft joined : Draft}
    (h : EndsEmpty (left ++ draft :: right)) (joins : Joins settings rule draft joined) :
    EndsEmpty (arrange (left ++ joined :: right)) := by
  obtain ⟨full, split, begun⟩ := h
  rcases right.eq_nil_or_concat' with rfl | ⟨middle, last, rfl⟩
  · obtain ⟨rfl, _⟩ := List.append_inj' split rfl
    apply endsEmpty_arrange_of_begun
    simp only [List.forall_mem_append, List.forall_mem_singleton]
    exact ⟨begun, joins.begun⟩
  · rw [← List.cons_append, ← List.append_assoc] at split ⊢
    obtain ⟨rfl, same⟩ := List.append_inj' split rfl
    obtain rfl := List.singleton_inj.1 same
    apply endsEmpty_arrange
    simp only [List.forall_mem_append, List.forall_mem_cons] at begun ⊢
    exact ⟨begun.1, joins.begun, begun.2.2⟩

/-! ## The invariant -/

/-- A rule can always begin a group, and no residual rule has room there. -/
structure Selective (settings : Settings) (p : Progress) : Prop where
  last : EndsEmpty p.groups
  residual : ∀ rule ∈ p.residual, Refuses settings rule .empty

theorem Selective.start (settings : Settings) : Selective settings ⟨[.empty], [], []⟩ := by
  constructor
  · exact ⟨[], rfl, by simp⟩
  · simp

theorem Selective.add (h : Selective settings p) (added : p.add settings rule = .ok q) :
    Selective settings q := by
  rcases Progress.add_cases added with
    ⟨left, draft, joined, right, split, _, joins, groups, residual⟩ | ⟨refuse, groups, residual⟩
  · constructor
    · rw [groups]
      exact EndsEmpty.join (split ▸ h.last) joins
    · simpa [residual] using h.residual
  · constructor
    · simpa [groups] using h.last
    · simp only [residual, List.forall_mem_append, List.forall_mem_singleton]
      exact ⟨h.residual, refuse _ h.last.mem⟩

theorem selective_ofRules (h : Progress.ofRules? settings rules = .ok p) : Selective settings p :=
  keeps_ofRules (P := fun _ => Selective settings) Selective.add (.start settings) h

/-! ## Rules that no group has room for -/

/-- The deterministic automaton that comes of an automaton is larger than the budget, so that the
count is cut short. -/
def Oversized (settings : Settings) (m : Automaton) : Prop :=
  ∃ tables subsets, BitTables.ofAutomaton? m = .ok tables ∧
    SubsetCount.count? tables none = some ⟨subsets, true⟩ ∧
    settings.budget m.stateCount < subsets ∧
    SubsetCount.count? tables (some (settings.budget m.stateCount)) =
      some ⟨settings.budget m.stateCount + 1, false⟩

theorem Refuses.oversized (h : Refuses settings rule .empty) :
    Oversized settings (.ofChains [rule.tree]) := by
  obtain ⟨trial, tried, incomplete⟩ := h
  rw [Draft.empty, List.nil_append, Trial.of?_eq, List.map_singleton] at tried
  cases made : BitTables.ofAutomaton? (.ofChains [rule.tree]) with
  | error refusal => rw [made] at tried; cases tried
  | ok tables =>
    rw [made] at tried
    cases tried
    have d := BitTables.describes_ofAutomaton made
    have some := SubsetCount.size_pos d (Automaton.rooted_ofChains _)
    obtain ⟨subsets, beyond, unlimited, limited⟩ :=
      SubsetCount.count?_of_incomplete d some incomplete
    rw [size_of_ofAutomaton made] at beyond limited
    exact ⟨tables, subsets, made, unlimited, beyond, limited⟩

/-- If fewer groups are kept than may be, none is given up. -/
theorem perm_leftOver (few : (p.kept settings).length < settings.groupLimit) :
    p.leftOver settings ~ p.residual := by
  have all : (p.groups.filter (!·.rules.isEmpty)).length ≤ settings.groupLimit := by
    rw [Progress.kept, List.length_take] at few
    omega
  have sorted := Sorting.sort_perm (fun a b : Rule => decide (a.index ≤ b.index)) p.residual
  rwa [Progress.leftOver, List.drop_eq_nil_of_le all, List.flatMap_nil, List.append_nil]

/-- Before and after each rule there is one empty group, the last one, behind the others in the
order of descending size. If in the end fewer groups are kept than may be, the deterministic
automaton of each residual regex alone is larger than its budget. -/
theorem oversized_ofRegexes (settings : Settings) (regexes : List String) :
    (∀ n, ∃ p, Progress.ofRules? settings ((rulesOf (distinct regexes)).take n) = .ok p ∧
      ∃ full, p.groups = full ++ [.empty] ∧ (∀ d ∈ full, d.rules ≠ []) ∧
        full.Pairwise fun d e => e.states ≤ d.states) ∧
    ∀ plan, ofRegexes? settings regexes = .ok plan → plan.groups.length < settings.groupLimit →
      ∀ regex ∈ plan.residual, ∃ m, Automaton.ofRegexes? [regex] = .ok m ∧ Oversized settings m := by
  constructor
  · intro n
    obtain ⟨p, considered⟩ := exists_ofRules settings ((rulesOf (distinct regexes)).take n)
    obtain ⟨full, groups, begun⟩ := (selective_ofRules considered).last
    have descending := (sound_ofRules considered).descending
    rw [groups, List.pairwise_append] at descending
    exact ⟨p, considered, full, groups, fun d hd => (begun d hd).rules, descending.1⟩
  · intro plan made few regex residual
    obtain ⟨p, considered, rfl⟩ := exists_considered made
    rw [groups_ofProgress, List.length_map] at few
    rw [residual_ofProgress] at residual
    obtain ⟨rule, member, rfl⟩ := List.mem_map.1 residual
    have sound := sound_ofRules considered
    have parsed : rule.Parsed :=
      parsed_rulesOf (distinct regexes) rule (sound.sublist_leftOver.subset member)
    have refuses := (selective_ofRules considered).residual rule
      ((perm_leftOver few).mem_iff.1 member)
    have compiled := ofRegexes_automaton (List.forall_mem_singleton.2 parsed)
    exact ⟨_, compiled, refuses.oversized⟩

/-- With as many subsets as states, one group is begun, and eight may be kept. -/
theorem oversized_ofRegexes_letters : ∃ plan,
    ofRegexes? { coefficient := 1 } ["b", "a."] = .ok plan ∧
      plan.groups.length < 8 ∧ "a." ∈ plan.residual ∧
      ∃ m, Automaton.ofRegexes? ["a."] = .ok m ∧ Oversized { coefficient := 1 } m := by
  have told : (ofRegexes? { coefficient := 1 } ["b", "a."]).toOption.map
      (fun plan => (plan.groups.length, plan.residual)) = some (1, ["a."]) := by
    decide +kernel
  cases made : ofRegexes? { coefficient := 1 } ["b", "a."] with
  | error refusal => rw [made] at told; cases told
  | ok plan =>
    rw [made] at told
    obtain ⟨groups, residual⟩ := Prod.mk.inj (Option.some.inj told)
    have few : plan.groups.length < 8 := by omega
    have listed : "a." ∈ plan.residual := by simp [residual]
    exact ⟨plan, rfl, few, listed, (oversized_ofRegexes _ _).2 plan made few _ listed⟩

end PatternGroups.Plan
