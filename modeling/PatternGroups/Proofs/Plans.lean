import PatternGroups.Proofs.ByteOrder
import PatternGroups.Proofs.Progress

/-!
# Plans

When all rules have been considered, the groups beyond the number kept are given up, and their rules
join the residual ones. All lists are sorted again by position, which is the order of the regexes.

* `ofRegexes?_of_fit`: making a plan comes down to considering the rules;
* `outcome_ofRegexes`: when there is no plan, and why;
* `sharesOut_ofRegexes`: each regex is in one place of a plan;
* `rebuilt_ofRegexes`: the listed regexes have the sizes and the automaton that the plan tells.
-/

namespace PatternGroups.Plan

open List (Perm)
open scoped List

variable {settings : Settings} {regexes : List String} {faults : List Fault} {rules : List Rule}
  {p : Progress} {plan : Plan} {refusal : Refusal}

/-! ## When there is a plan -/

/-- The coefficient is negative, infinite or no number. -/
def Settings.Unfit (settings : Settings) : Prop :=
  settings.coefficient.isFinite = false ∨ settings.coefficient < 0

instance (settings : Settings) : Decidable settings.Unfit :=
  inferInstanceAs (Decidable (_ ∨ _))

theorem Settings.misfit?_of_unfit (h : settings.Unfit) :
    settings.misfit? = some (.coefficient settings.coefficient) := by
  rw [misfit?, if_pos]
  simpa [Unfit] using h

theorem Settings.misfit?_of_fit (h : ¬settings.Unfit) : settings.misfit? = none := by
  rw [misfit?, if_neg]
  simpa [Unfit] using h

theorem ofRegexes?_of_unfit (h : settings.Unfit) (regexes : List String) :
    ofRegexes? settings regexes = .error (.misfit (.coefficient settings.coefficient)) := by
  rw [ofRegexes?, Settings.misfit?_of_unfit h]
  rfl

theorem ofRegexes?_of_fault (fit : ¬settings.Unfit) (strict : settings.lenient = false)
    {fault : Fault} (h : (faultsOf (distinct regexes)).head? = some fault) :
    ofRegexes? settings regexes = .error (.regex fault.index fault.regex fault.cause) := by
  rw [ofRegexes?, Settings.misfit?_of_fit fit]
  simp only [strict, h]
  rfl

theorem ofRegexes?_of_fit (fit : ¬settings.Unfit)
    (h : settings.lenient = true ∨ faultsOf (distinct regexes) = []) :
    ofRegexes? settings regexes = (Progress.ofRules? settings (rulesOf (distinct regexes))).map
      (ofProgress settings (faultsOf (distinct regexes))) := by
  rw [ofRegexes?, Settings.misfit?_of_fit fit]
  dsimp only
  generalize Progress.ofRules? settings (rulesOf (distinct regexes)) = considered
  rcases h with lenient | none
  · simp only [lenient]
    cases considered <;> rfl
  · simp only [none]
    cases settings.lenient <;> cases considered <;> rfl

/-- The three outcomes. -/
theorem ofRegexes?_cases (settings : Settings) (regexes : List String) :
    (settings.Unfit ∧
      ofRegexes? settings regexes = .error (.misfit (.coefficient settings.coefficient))) ∨
    (¬settings.Unfit ∧ settings.lenient = false ∧
      ∃ fault, (faultsOf (distinct regexes)).head? = some fault ∧
        ofRegexes? settings regexes = .error (.regex fault.index fault.regex fault.cause)) ∨
    (¬settings.Unfit ∧ (settings.lenient = true ∨ faultsOf (distinct regexes) = []) ∧
      ∃ p, Progress.ofRules? settings (rulesOf (distinct regexes)) = .ok p ∧
        ofRegexes? settings regexes =
          .ok (ofProgress settings (faultsOf (distinct regexes)) p)) := by
  by_cases unfit : settings.Unfit
  · exact .inl ⟨unfit, ofRegexes?_of_unfit unfit regexes⟩
  · have answered (h : settings.lenient = true ∨ faultsOf (distinct regexes) = []) :
        ∃ p, Progress.ofRules? settings (rulesOf (distinct regexes)) = .ok p ∧
          ofRegexes? settings regexes =
            .ok (ofProgress settings (faultsOf (distinct regexes)) p) := by
      obtain ⟨p, considered⟩ := exists_ofRules settings (rulesOf (distinct regexes))
      refine ⟨p, considered, ?_⟩
      rw [ofRegexes?_of_fit unfit h, considered]
      rfl
    cases lenient : settings.lenient with
    | true => exact .inr (.inr ⟨unfit, .inl rfl, answered (.inl lenient)⟩)
    | false =>
      cases faulty : faultsOf (distinct regexes) with
      | nil => exact .inr (.inr ⟨unfit, .inr rfl, faulty ▸ answered (.inr faulty)⟩)
      | cons fault others =>
        exact .inr (.inl ⟨unfit, rfl, fault, rfl,
          ofRegexes?_of_fault unfit lenient (faulty ▸ rfl)⟩)

theorem ofRegexes?_eq_error_iff : ofRegexes? settings regexes = .error refusal ↔
    (settings.Unfit ∧ refusal = .misfit (.coefficient settings.coefficient)) ∨
    (¬settings.Unfit ∧ settings.lenient = false ∧ ∃ fault : Fault,
      fault.First (distinct regexes) ∧
        refusal = .regex fault.index fault.regex fault.cause) := by
  simp only [← head?_faultsOf_eq_some_iff]
  rcases ofRegexes?_cases settings regexes with
    ⟨unfit, answer⟩ | ⟨fit, strict, fault, first, answer⟩ | ⟨fit, taken, p, _, answer⟩
  · simp only [answer, unfit, Except.error.injEq, true_and, not_true, false_and, or_false, eq_comm]
  · simp only [answer, fit, strict, first, Except.error.injEq, Option.some.injEq,
      not_false_eq_true, true_and, false_and, false_or, exists_eq_left', eq_comm]
  · simp only [answer, fit, reduceCtorEq, not_false_eq_true, true_and, false_and, false_or,
      false_iff]
    rintro ⟨strict, fault, first, _⟩
    rcases taken with lenient | none
    · rw [strict] at lenient
      cases lenient
    · rw [none] at first
      cases first

theorem exists_ofRegexes?_iff : (∃ plan, ofRegexes? settings regexes = .ok plan) ↔
    ¬settings.Unfit ∧
      (settings.lenient = true ∨ ∀ regex ∈ regexes, (Chain.ofRegex? regex).isOk = true) := by
  have faultless : (∀ regex ∈ regexes, (Chain.ofRegex? regex).isOk = true) ↔
      faultsOf (distinct regexes) = [] := by
    simp only [faultsOf_eq_nil_iff, mem_distinct]
  rw [faultless]
  rcases ofRegexes?_cases settings regexes with
    ⟨unfit, answer⟩ | ⟨fit, strict, fault, first, answer⟩ | ⟨fit, taken, p, _, answer⟩
  · simp [answer, unfit]
  · have faulty : faultsOf (distinct regexes) ≠ [] := by
      rintro none
      rw [none] at first
      cases first
    simp [answer, strict, faulty]
  · simp [answer, fit, taken]

/-- There is no plan exactly if the settings are unfit, or else a regex has no tree and none may be
left out: the first such regex of the sorted list is told, with its position and its fault. A trial
never fails, whichever rules are tried together. -/
theorem outcome_ofRegexes (settings : Settings) (regexes : List String) :
    ((∀ regex, regex ∈ distinct regexes ↔ regex ∈ regexes) ∧ Text.Ascends (distinct regexes)) ∧
    (∀ refusal, ofRegexes? settings regexes = .error refusal ↔
      (settings.Unfit ∧ refusal = .misfit (.coefficient settings.coefficient)) ∨
      (¬settings.Unfit ∧ settings.lenient = false ∧ ∃ fault : Fault,
        fault.First (distinct regexes) ∧
          refusal = .regex fault.index fault.regex fault.cause)) ∧
    ((∃ plan, ofRegexes? settings regexes = .ok plan) ↔
      ¬settings.Unfit ∧
        (settings.lenient = true ∨ ∀ regex ∈ regexes, (Chain.ofRegex? regex).isOk = true)) ∧
    ∀ rules, rules ⊆ rulesOf (distinct regexes) →
      ∃ trial, Trial.of? settings rules = .ok trial := by
  have sorted := Text.ascends_of_pairwise (pairwise_distinct regexes)
  refine ⟨⟨fun _ => mem_distinct, sorted⟩, fun _ => ofRegexes?_eq_error_iff,
    exists_ofRegexes?_iff, fun rules _ => Trial.exists_of? settings rules⟩

/-! ## The rules of a plan -/

/-- The groups that are kept. -/
def Progress.kept (settings : Settings) (p : Progress) : List Draft :=
  (p.groups.filter (!·.rules.isEmpty)).take settings.groupLimit

/-- The rules that are residual in the end. -/
def Progress.leftOver (settings : Settings) (p : Progress) : List Rule :=
  Sorting.sort (fun a b => decide (a.index ≤ b.index))
    (p.residual ++
      ((p.groups.filter (!·.rules.isEmpty)).drop settings.groupLimit).flatMap (·.rules))

theorem groups_ofProgress : (ofProgress settings faults p).groups =
    (p.kept settings).map fun d => ⟨d.rules.map (·.regex), d.states, d.subsets⟩ := rfl

theorem residual_ofProgress :
    (ofProgress settings faults p).residual = (p.leftOver settings).map (·.regex) := rfl

theorem residualAutomaton_ofProgress : (ofProgress settings faults p).residualAutomaton =
    .ofChains ((p.leftOver settings).map (·.tree)) := rfl

theorem skipped_ofProgress : (ofProgress settings faults p).skipped = faults.map (·.regex) := rfl

theorem flatMap_filter_isEmpty (groups : List Draft) :
    (groups.filter (!·.rules.isEmpty)).flatMap (·.rules) = groups.flatMap (·.rules) := by
  induction groups with
  | nil => rfl
  | cons d rest ih =>
    rw [List.filter_cons]
    cases rules : d.rules with
    | nil => simpa [rules] using ih
    | cons rule others => simpa [rules] using ih

/-- Giving up groups loses no rule. -/
theorem perm_kept (settings : Settings) (p : Progress) :
    ((p.kept settings).flatMap (·.rules) ++ p.leftOver settings).Perm
      (p.groups.flatMap (·.rules) ++ p.residual) := by
  unfold Progress.kept Progress.leftOver
  rw [← flatMap_filter_isEmpty p.groups]
  generalize p.groups.filter (!·.rules.isEmpty) = groups
  calc _ ~ (groups.take settings.groupLimit).flatMap (·.rules) ++
        (p.residual ++ (groups.drop settings.groupLimit).flatMap (·.rules)) :=
        (Sorting.sort_perm _ _).append_left _
    _ ~ (groups.take settings.groupLimit).flatMap (·.rules) ++
        ((groups.drop settings.groupLimit).flatMap (·.rules) ++ p.residual) :=
        List.perm_append_comm.append_left _
    _ = groups.flatMap (·.rules) ++ p.residual := by
        rw [← List.append_assoc, ← List.flatMap_append, List.take_append_drop]

theorem mem_kept {d : Draft} (h : d ∈ p.kept settings) : d ∈ p.groups ∧ d.rules ≠ [] := by
  simpa using List.mem_filter.1 (List.mem_of_mem_take h)

theorem sublist_kept (settings : Settings) (p : Progress) :
    (p.kept settings).Sublist p.groups :=
  (List.take_sublist _ _).trans List.filter_sublist

section Considered

variable {l : List String} (sound : Sound settings (rulesOf l) p)
include sound

theorem Sound.perm_kept : ((p.kept settings).flatMap (·.rules) ++ p.leftOver settings).Perm
    (rulesOf l) :=
  (Plan.perm_kept settings p).trans sound.shared

/-- The rules that are residual are sorted by position, so that they have the order that they had
from the start. -/
theorem Sound.sublist_leftOver : (p.leftOver settings).Sublist (rulesOf l) := by
  have positions := pairwise_index_rulesOf l
  have part : (p.leftOver settings).Subperm (rulesOf l) :=
    sound.perm_kept.subperm_left.1 (List.sublist_append_right _ _).subperm
  obtain ⟨rules, same, sub⟩ := part
  have sorted : (p.leftOver settings).Pairwise fun a b => decide (a.index ≤ b.index) = true := by
    apply Sorting.pairwise_sort
    · intro a b
      simpa using Nat.le_total a.index b.index
    · intro a b c
      simpa using Nat.le_trans
  have distinctly : ((rulesOf l).map (·.index)).Nodup :=
    (List.pairwise_map.2 positions).imp Nat.ne_of_lt
  have equal : rules = p.leftOver settings := by
    refine List.Perm.eq_of_pairwise (fun a b ha hb hab hba => ?_)
      (positions.sublist sub |>.imp Nat.le_of_lt) (by simpa using sorted) same
    exact List.inj_on_of_nodup_map distinctly (sub.subset ha) (sub.subset (same.mem_iff.2 hb))
      (Nat.le_antisymm hab hba)
  exact equal ▸ sub

end Considered

/-! ## What a plan lists -/

/-- A plan comes of progress on all rules. -/
theorem exists_considered (h : ofRegexes? settings regexes = .ok plan) :
    ∃ p, Progress.ofRules? settings (rulesOf (distinct regexes)) = .ok p ∧
      plan = ofProgress settings (faultsOf (distinct regexes)) p := by
  rcases ofRegexes?_cases settings regexes with
    ⟨_, answer⟩ | ⟨_, _, _, _, answer⟩ | ⟨_, _, p, considered, answer⟩
  · rw [answer] at h
    cases h
  · rw [answer] at h
    cases h
  · rw [answer] at h
    exact ⟨p, considered, (Except.ok.inj h).symm⟩

theorem exists_progress (h : ofRegexes? settings regexes = .ok plan) :
    ∃ p, Sound settings (rulesOf (distinct regexes)) p ∧
      plan = ofProgress settings (faultsOf (distinct regexes)) p := by
  obtain ⟨p, considered, made⟩ := exists_considered h
  exact ⟨p, sound_ofRules considered, made⟩

/-- Rules in the order of the list are in the order of their regexes. -/
theorem ascends_of_sublist (h : rules.Sublist (rulesOf (distinct regexes))) :
    Text.Ascends (rules.map (·.regex)) := by
  apply Text.ascends_of_pairwise
  refine List.Pairwise.sublist (h.map (·.regex)) ?_
  rw [regex_rulesOf]
  exact (pairwise_distinct regexes).filter _

theorem mem_regex_faultsOf {regex : String} :
    regex ∈ (faultsOf (distinct regexes)).map (·.regex) ↔
      regex ∈ regexes ∧ ∃ cause, Chain.ofRegex? regex = .error cause := by
  rw [regex_faultsOf, List.mem_filter, mem_distinct]
  cases Chain.ofRegex? regex with
  | ok chain => simp [Except.isOk, Except.toBool]
  | error cause => simp [Except.isOk, Except.toBool]

theorem ascends_regex_faultsOf :
    Text.Ascends ((faultsOf (distinct regexes)).map (·.regex)) := by
  rw [regex_faultsOf]
  exact Text.ascends_of_pairwise ((pairwise_distinct regexes).filter _)

/-- What a plan is made of: each regex is in one place, those without a tree among the skipped ones,
and all lists are sorted. -/
structure SharesOut (settings : Settings) (regexes : List String) (plan : Plan) : Prop where
  once : ∀ regex,
    (plan.groups.flatMap (·.regexes) ++ plan.residual ++ plan.skipped).count regex =
      if regex ∈ regexes then 1 else 0
  skipped : ∀ regex, regex ∈ plan.skipped ↔
    regex ∈ regexes ∧ ∃ cause, Chain.ofRegex? regex = .error cause
  limit : plan.groups.length ≤ settings.groupLimit
  nonempty : ∀ group ∈ plan.groups, group.regexes ≠ []
  descending : plan.groups.Pairwise fun group next => next.states ≤ group.states
  ascending : (∀ group ∈ plan.groups, Text.Ascends group.regexes) ∧
    Text.Ascends plan.residual ∧ Text.Ascends plan.skipped

theorem sharesOut_ofRegexes (h : ofRegexes? settings regexes = .ok plan) :
    SharesOut settings regexes plan := by
  obtain ⟨p, sound, rfl⟩ := exists_progress h
  have rulesOfGroups : (ofProgress settings (faultsOf (distinct regexes)) p).groups.flatMap
      (·.regexes) = ((p.kept settings).flatMap (·.rules)).map (·.regex) := by
    rw [groups_ofProgress, List.flatMap_map, List.map_flatMap]
  constructor
  · intro regex
    have all : ((p.kept settings).flatMap (·.rules)).map (·.regex) ++
        (p.leftOver settings).map (·.regex) ++ (faultsOf (distinct regexes)).map (·.regex) ~
          distinct regexes := by
      rw [← List.map_append, regex_faultsOf]
      have parsed := sound.perm_kept.map (·.regex)
      rw [regex_rulesOf] at parsed
      exact (parsed.append_right _).trans (List.filter_append_perm _ _)
    have nodup : (distinct regexes).Nodup := by
      refine (pairwise_distinct regexes).imp ?_
      rintro a _ less rfl
      exact String.lt_irrefl a less
    rw [rulesOfGroups, residual_ofProgress, skipped_ofProgress, all.count_eq, nodup.count]
    simp only [mem_distinct]
  · exact fun _ => mem_regex_faultsOf
  · rw [groups_ofProgress, List.length_map]
    exact List.length_take_le _ _
  · intro group hg
    rw [groups_ofProgress] at hg
    obtain ⟨d, hd, rfl⟩ := List.mem_map.1 hg
    simpa using (mem_kept hd).2
  · rw [groups_ofProgress, List.pairwise_map]
    exact sound.descending.sublist (sublist_kept settings p)
  · refine ⟨fun group hg => ?_, ascends_of_sublist sound.sublist_leftOver, ?_⟩
    · rw [groups_ofProgress] at hg
      obtain ⟨d, hd, rfl⟩ := List.mem_map.1 hg
      exact ascends_of_sublist (sound.ordered d (mem_kept hd).1)
    · exact ascends_regex_faultsOf

/-- There is room for `a.` or for `b.` in one group, not for both, and one group is kept; `a)` is
left out. -/
theorem sharesOut_two_letters : ∃ plan,
    ofRegexes? { coefficient := 1.5, groupLimit := 1, lenient := true } ["b.", "a)", "a.", "b."] =
      .ok plan ∧
    SharesOut { coefficient := 1.5, groupLimit := 1, lenient := true } ["b.", "a)", "a.", "b."]
      plan := by
  have fit : ¬Settings.Unfit { coefficient := 1.5, groupLimit := 1, lenient := true } := by
    decide +kernel
  obtain ⟨plan, made⟩ := exists_ofRegexes?_iff.2 ⟨fit, .inl rfl⟩
  exact ⟨plan, made, sharesOut_ofRegexes made⟩

/-! ## What a plan tells -/

/-- The figures of each group are those of the automaton of its regexes, and the residual automaton
is that of the residual regexes; their ids number these regexes. -/
theorem rebuilt_ofRegexes (h : ofRegexes? settings regexes = .ok plan) :
    (∀ group ∈ plan.groups, ∃ m, Automaton.ofRegexes? group.regexes = .ok m ∧
      Sized settings m group.states group.subsets ∧ m.Numbers group.regexes) ∧
    Automaton.ofRegexes? plan.residual = .ok plan.residualAutomaton ∧
      plan.residualAutomaton.Numbers plan.residual := by
  obtain ⟨p, sound, rfl⟩ := exists_progress h
  have parsed {rules : List Rule} (part : rules.Sublist (rulesOf (distinct regexes))) :
      ∀ rule ∈ rules, rule.Parsed := fun rule hr =>
    parsed_rulesOf (distinct regexes) rule (part.subset hr)
  refine ⟨fun group hg => ?_, ?_⟩
  · rw [groups_ofProgress] at hg
    obtain ⟨d, hd, rfl⟩ := List.mem_map.1 hg
    obtain ⟨member, some⟩ := mem_kept hd
    have read := parsed (sound.ordered d member)
    exact ⟨_, ofRegexes_automaton read, sound.sized d member some,
      Automaton.numbers_ofRegexes (ofRegexes_of_parsed read)⟩
  · have read := parsed sound.sublist_leftOver
    rw [residual_ofProgress, residualAutomaton_ofProgress]
    exact ⟨ofRegexes_automaton read, Automaton.numbers_ofRegexes (ofRegexes_of_parsed read)⟩

/-- A letter that joins the group of another, and a regex with more than three subsets for each
two states. -/
theorem rebuilt_ofRegexes_letters : ∃ plan,
    ofRegexes? { coefficient := 1.5 } ["b", "a", "c..."] = .ok plan ∧
    (∀ group ∈ plan.groups, ∃ m, Automaton.ofRegexes? group.regexes = .ok m ∧
      Sized { coefficient := 1.5 } m group.states group.subsets ∧ m.Numbers group.regexes) ∧
    Automaton.ofRegexes? plan.residual = .ok plan.residualAutomaton ∧
      plan.residualAutomaton.Numbers plan.residual := by
  have fit : ¬Settings.Unfit { coefficient := 1.5 } := by decide +kernel
  have parsed : ∀ regex ∈ ["b", "a", "c..."], (Chain.ofRegex? regex).isOk = true := by
    decide +kernel
  obtain ⟨plan, made⟩ := exists_ofRegexes?_iff.2 ⟨fit, .inr parsed⟩
  exact ⟨plan, made, rebuilt_ofRegexes made⟩

end PatternGroups.Plan
