import PatternGroups.Proofs.Trials

/-!
# Groups in the making

Each rule joins one group or the residual rules, and nothing else is moved, but that the groups are
sorted again. A group is told the sizes found in the trial of the rules that it then has, so that
they stay right while it is moved, and are found anew when another rule joins.

* `place?_cases`, `Progress.add_cases`: what becomes of one rule;
* `Sound.add`: what holds throughout;
* `keeps_ofRules`: from one rule to all;
* `exists_ofRules`: rules can all be considered.
-/

namespace PatternGroups.Plan

open List (Perm)
open scoped List

variable {settings : Settings} {rule : Rule} {rules seen : List Rule} {p q : Progress}

/-! ## One rule -/

/-- A rule would make the deterministic automaton of a group too large. -/
def Refuses (settings : Settings) (rule : Rule) (draft : Draft) : Prop :=
  ∃ trial, Trial.of? settings (draft.rules ++ [rule]) = .ok trial ∧ trial.count.complete = false

/-- A group as it is when a rule has joined. -/
structure Joins (settings : Settings) (rule : Rule) (draft joined : Draft) : Prop where
  rules : joined.rules = draft.rules ++ [rule]
  sized : Sized settings (.ofChains (joined.rules.map (·.tree))) joined.states joined.subsets

theorem place?_cons {draft : Draft} {before after : List Draft} {trial : Trial}
    (tried : Trial.of? settings (draft.rules ++ [rule]) = .ok trial) :
    place? settings rule before (draft :: after) =
      if trial.count.complete then
        .ok (some (before ++ ⟨draft.rules ++ [rule], trial.states, trial.count.subsets⟩ :: after),
          trial.log ++ [.joined rule.index trial.states trial.count.subsets])
      else (place? settings rule (before ++ [draft]) after).map fun out =>
        (out.1, trial.log ++ out.2) := by
  rw [place?, tried]
  cases h : trial.count.complete with
  | true => simp only [bind, Except.bind, h, if_pos]; rfl
  | false =>
    simp only [bind, Except.bind, h]
    cases place? settings rule (before ++ [draft]) after with
    | error refusal => rfl
    | ok out => rfl

/-- A rule joins the first group that has room for it, or none has. -/
theorem place?_cases {before after : List Draft} {out : Option (List Draft) × List Event}
    (h : place? settings rule before after = .ok out) :
    (∃ skipped draft joined rest, after = skipped ++ draft :: rest ∧
      (∀ d ∈ skipped, Refuses settings rule d) ∧ Joins settings rule draft joined ∧
      out.1 = some (before ++ skipped ++ joined :: rest)) ∨
    ((∀ d ∈ after, Refuses settings rule d) ∧ out.1 = none) := by
  induction after generalizing before out with
  | nil =>
    cases h
    exact .inr ⟨by simp, rfl⟩
  | cons draft rest ih =>
    cases tried : Trial.of? settings (draft.rules ++ [rule]) with
    | error refusal => rw [place?, tried] at h; cases h
    | ok trial =>
      rw [place?_cons tried] at h
      cases complete : trial.count.complete with
      | true =>
        rw [complete, if_pos rfl] at h
        cases h
        have joins : Joins settings rule draft
            ⟨draft.rules ++ [rule], trial.states, trial.count.subsets⟩ :=
          ⟨rfl, trial.sized tried complete⟩
        exact .inl ⟨[], draft, _, rest, rfl, by simp, joins, by simp⟩
      | false =>
        have refuses : Refuses settings rule draft := ⟨trial, tried, complete⟩
        rw [complete, if_neg Bool.false_ne_true] at h
        cases others : place? settings rule (before ++ [draft]) rest with
        | error refusal => rw [others] at h; cases h
        | ok out' =>
          rw [others] at h
          cases h
          rcases ih others with ⟨skipped, d, joined, after, rfl, full, joins, result⟩ | ⟨full, none⟩
          · refine .inl ⟨draft :: skipped, d, joined, after, rfl, ?_, joins, ?_⟩
            · exact List.forall_mem_cons.2 ⟨refuses, full⟩
            · simpa using result
          · exact .inr ⟨List.forall_mem_cons.2 ⟨refuses, full⟩, none⟩

theorem exists_place? (settings : Settings) (rule : Rule) (before after : List Draft) :
    ∃ out, place? settings rule before after = .ok out := by
  induction after generalizing before with
  | nil => exact ⟨_, rfl⟩
  | cons draft rest ih =>
    obtain ⟨trial, tried⟩ := Trial.exists_of? settings (draft.rules ++ [rule])
    rw [place?_cons tried]
    split
    · exact ⟨_, rfl⟩
    · obtain ⟨out, others⟩ := ih (before ++ [draft])
      rw [others]
      exact ⟨_, rfl⟩

/-- What becomes of a rule: it joins a group, and the groups are sorted, or it is residual. -/
theorem Progress.add_cases (h : p.add settings rule = .ok q) :
    (∃ left draft joined right, p.groups = left ++ draft :: right ∧
      (∀ d ∈ left, Refuses settings rule d) ∧ Joins settings rule draft joined ∧
      q.groups = arrange (left ++ joined :: right) ∧ q.residual = p.residual) ∨
    ((∀ d ∈ p.groups, Refuses settings rule d) ∧ q.groups = p.groups ∧
      q.residual = p.residual ++ [rule]) := by
  rw [Progress.add] at h
  cases placed : place? settings rule [] p.groups with
  | error refusal => rw [placed] at h; cases h
  | ok out =>
    obtain ⟨groups, log⟩ := out
    rw [placed] at h
    rcases place?_cases placed with
      ⟨left, draft, joined, right, split, full, joins, rfl⟩ | ⟨full, rfl⟩
    · cases h
      exact .inl ⟨left, draft, joined, right, split, full, joins, rfl, rfl⟩
    · cases h
      exact .inr ⟨full, rfl, rfl⟩

/-! ## Arrangement -/

theorem arrange_cases (groups : List Draft) :
    (arrange groups).Perm groups ∨ (arrange groups).Perm (groups ++ [.empty]) := by
  have sorted := Sorting.sort_perm (fun a b : Draft => decide (b.states ≤ a.states)) groups
  rw [arrange]
  split
  · exact .inl sorted
  · exact .inr (sorted.append_right _)

theorem pairwise_sort_states (groups : List Draft) :
    (Sorting.sort (fun a b : Draft => decide (b.states ≤ a.states)) groups).Pairwise
      fun d e => e.states ≤ d.states := by
  have sorted : (Sorting.sort (fun a b : Draft => decide (b.states ≤ a.states)) groups).Pairwise
      fun d e => decide (e.states ≤ d.states) = true := by
    apply Sorting.pairwise_sort
    · intro d e
      simpa using Nat.le_total e.states d.states
    · intro d e f
      simp only [decide_eq_true_eq]
      exact fun hde hef => Nat.le_trans hef hde
  simpa only [decide_eq_true_eq] using sorted

theorem pairwise_arrange (groups : List Draft) :
    (arrange groups).Pairwise fun d e => e.states ≤ d.states := by
  have sorted := pairwise_sort_states groups
  rw [arrange]
  split
  · exact sorted
  · refine List.pairwise_append.2 ⟨sorted, List.pairwise_singleton _ _, fun d _ e he => ?_⟩
    rw [List.mem_singleton.1 he]
    exact Nat.zero_le d.states

/-- Arrangement adds at most an empty group. -/
theorem mem_arrange {groups : List Draft} {d : Draft} (h : d ∈ arrange groups) :
    d ∈ groups ∨ d = .empty := by
  rcases arrange_cases groups with same | more
  · exact .inl (same.mem_iff.1 h)
  · simpa using more.mem_iff.1 h

theorem flatMap_arrange (groups : List Draft) :
    ((arrange groups).flatMap (·.rules)).Perm (groups.flatMap (·.rules)) := by
  rcases arrange_cases groups with same | more
  · exact same.flatMap_right _
  · have moved := more.flatMap_right (·.rules)
    rwa [List.flatMap_append, List.flatMap_singleton, Draft.empty, List.append_nil] at moved

/-! ## All rules -/

/-- What holds when some rules have been considered: they are shared out among the groups and the
residual ones, each group has its rules in their order and the sizes that come of them, and the
groups are sorted. -/
structure Sound (settings : Settings) (seen : List Rule) (p : Progress) : Prop where
  shared : (p.groups.flatMap (·.rules) ++ p.residual).Perm seen
  ordered : ∀ d ∈ p.groups, d.rules.Sublist seen
  sized : ∀ d ∈ p.groups, d.rules ≠ [] →
    Sized settings (.ofChains (d.rules.map (·.tree))) d.states d.subsets
  descending : p.groups.Pairwise fun d e => e.states ≤ d.states

theorem Sound.start (settings : Settings) : Sound settings [] ⟨[.empty], [], []⟩ := by
  constructor
  · exact .refl _
  · simp [Draft.empty]
  · simp [Draft.empty]
  · exact List.pairwise_singleton _ _

theorem Sound.add (h : Sound settings seen p) (added : p.add settings rule = .ok q) :
    Sound settings (seen ++ [rule]) q := by
  have kept : ∀ d ∈ p.groups, d.rules.Sublist (seen ++ [rule]) := fun d hd =>
    (h.ordered d hd).trans (List.sublist_append_left seen [rule])
  rcases Progress.add_cases added with
    ⟨left, draft, joined, right, split, _, joins, groups, residual⟩ | ⟨_, groups, residual⟩
  · have old {d : Draft} (hd : d ∈ left ++ joined :: right) : d ∈ p.groups ∨ d = joined := by
      rw [split]
      simp only [List.mem_append, List.mem_cons] at hd ⊢
      tauto
    constructor
    · rw [groups, residual]
      calc (arrange (left ++ joined :: right)).flatMap (·.rules) ++ p.residual
        _ ~ (left ++ joined :: right).flatMap (·.rules) ++ p.residual :=
          (flatMap_arrange _).append_right p.residual
        _ = left.flatMap (·.rules) ++ draft.rules ++
            rule :: (right.flatMap (·.rules) ++ p.residual) := by simp [joins.rules]
        _ ~ rule :: (left.flatMap (·.rules) ++ draft.rules ++
            (right.flatMap (·.rules) ++ p.residual)) := List.perm_middle
        _ = rule :: (p.groups.flatMap (·.rules) ++ p.residual) := by simp [split]
        _ ~ rule :: seen := h.shared.cons rule
        _ ~ seen ++ [rule] := (List.perm_append_singleton rule seen).symm
    · intro d hd
      rw [groups] at hd
      rcases mem_arrange hd with hd | rfl
      · rcases old hd with hd | rfl
        · exact kept d hd
        · rw [joins.rules]
          exact (h.ordered draft (by simp [split])).append_right [rule]
      · exact List.nil_sublist _
    · intro d hd some
      rw [groups] at hd
      rcases mem_arrange hd with hd | rfl
      · rcases old hd with hd | rfl
        · exact h.sized d hd some
        · exact joins.sized
      · exact absurd rfl some
    · rw [groups]
      exact pairwise_arrange _
  · constructor
    · rw [groups, residual, ← List.append_assoc]
      exact h.shared.append_right [rule]
    · rwa [groups]
    · rw [groups]
      exact h.sized
    · rw [groups]
      exact h.descending

/-- What each rule keeps, all rules keep. -/
theorem keeps_foldlM {P : List Rule → Progress → Prop}
    (step : ∀ {seen p rule q}, P seen p → p.add settings rule = .ok q → P (seen ++ [rule]) q)
    (h : P seen p) (considered : rules.foldlM (Progress.add settings) p = .ok q) :
    P (seen ++ rules) q := by
  induction rules generalizing seen p with
  | nil =>
    cases considered
    rwa [List.append_nil]
  | cons rule rest ih =>
    rw [List.foldlM_cons] at considered
    cases added : p.add settings rule with
    | error refusal => rw [added] at considered; cases considered
    | ok next =>
      rw [added] at considered
      rw [List.append_cons]
      exact ih (step h added) considered

theorem keeps_ofRules {P : List Rule → Progress → Prop}
    (step : ∀ {seen p rule q}, P seen p → p.add settings rule = .ok q → P (seen ++ [rule]) q)
    (start : P [] ⟨[.empty], [], []⟩) (h : Progress.ofRules? settings rules = .ok p) : P rules p :=
  keeps_foldlM step start h

theorem sound_ofRules (h : Progress.ofRules? settings rules = .ok p) : Sound settings rules p :=
  keeps_ofRules (P := Sound settings) Sound.add (.start settings) h

theorem exists_add (settings : Settings) (p : Progress) (rule : Rule) :
    ∃ next, p.add settings rule = .ok next := by
  obtain ⟨⟨groups, log⟩, placed⟩ := exists_place? settings rule [] p.groups
  rw [Progress.add, placed]
  cases groups with
  | none => exact ⟨_, rfl⟩
  | some groups => exact ⟨_, rfl⟩

/-- Rules can all be considered. -/
theorem exists_ofRules (settings : Settings) (rules : List Rule) :
    ∃ p, Progress.ofRules? settings rules = .ok p := by
  have considered (p : Progress) : ∃ q, rules.foldlM (Progress.add settings) p = .ok q := by
    induction rules generalizing p with
    | nil => exact ⟨p, rfl⟩
    | cons rule rest ih =>
      obtain ⟨next, added⟩ := exists_add settings p rule
      rw [List.foldlM_cons, added]
      exact ih next
  exact considered _

end PatternGroups.Plan
