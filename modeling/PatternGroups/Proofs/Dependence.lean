import Mathlib.Data.List.Sort
import PatternGroups.Proofs.Plans

/-!
# What a plan depends on

A plan is made of the sorted regexes, each once, and they are determined by the set of the regexes.
Its groups are made of the rules alone, which are numbered among themselves, so that regexes without
a tree have no part in them.

* `distinct_eq_iff`: sorted regexes without repetitions stand for sets;
* `ofRegexes?_of_same_members`: neither the order nor the number of the regexes matters;
* `ofRules?_congr`: of the settings, only the budgets matter to the groups;
* `leavesOut_ofRegexes`: regexes that are left out do not matter to the others.
-/

namespace PatternGroups.Plan

variable {settings : Settings} {regexes others : List String} {rules : List Rule} {p : Progress}

/-! ## Sets of regexes -/

/-- There is one ascending list for each set of regexes. -/
theorem eq_distinct {l : List String} (ascending : l.Pairwise (· < ·))
    (members : ∀ regex, regex ∈ l ↔ regex ∈ regexes) : l = distinct regexes :=
  ascending.eq_of_mem_iff (pairwise_distinct regexes) fun regex =>
    (members regex).trans mem_distinct.symm

theorem distinct_eq_iff :
    distinct others = distinct regexes ↔ ∀ regex, regex ∈ others ↔ regex ∈ regexes := by
  constructor
  · intro same regex
    rw [← mem_distinct, same, mem_distinct]
  · intro members
    exact eq_distinct (pairwise_distinct others) fun regex => mem_distinct.trans (members regex)

theorem ofRegexes?_eq_of_distinct (same : distinct others = distinct regexes) :
    ofRegexes? settings others = ofRegexes? settings regexes := by
  rw [ofRegexes?, same, ← ofRegexes?]

/-- The outcome is the same for all lists of the same regexes: the refusal with its position, or the
plan with its log. -/
theorem ofRegexes?_of_same_members (settings : Settings)
    (members : ∀ regex, regex ∈ others ↔ regex ∈ regexes) :
    ofRegexes? settings others = ofRegexes? settings regexes :=
  ofRegexes?_eq_of_distinct (distinct_eq_iff.2 members)

/-- Regexes in another order, one of them twice, one the beginning of another, and one without a
tree. -/
theorem ofRegexes?_of_same_members_shuffled :
    (∀ regex, regex ∈ ["ab", "a)", "a", "ab"] ↔ regex ∈ ["a", "a)", "a)", "ab"]) ∧
      ofRegexes? { lenient := true } ["ab", "a)", "a", "ab"] =
        ofRegexes? { lenient := true } ["a", "a)", "a)", "ab"] := by
  have members : ∀ regex, regex ∈ ["ab", "a)", "a", "ab"] ↔ regex ∈ ["a", "a)", "a)", "ab"] := by
    intro regex
    simp only [List.mem_cons, List.not_mem_nil, or_false]
    tauto
  exact ⟨members, ofRegexes?_of_same_members { lenient := true } members⟩

/-! ## Rules and settings -/

/-- The regexes that have a tree. -/
def readable (regexes : List String) : List String :=
  regexes.filter fun regex => (Chain.ofRegex? regex).isOk

theorem mem_readable {regex : String} :
    regex ∈ readable regexes ↔ regex ∈ regexes ∧ (Chain.ofRegex? regex).isOk = true :=
  List.mem_filter

theorem distinct_readable : distinct (readable regexes) = readable (distinct regexes) := by
  refine (eq_distinct ((pairwise_distinct regexes).filter _) fun regex => ?_).symm
  rw [List.mem_filter, mem_distinct, mem_readable]

/-- Rules are numbered among themselves, whatever stands between them. -/
theorem rulesOf_readable (l : List String) : rulesOf (readable l) = rulesOf l := by
  have same : (readable l).filterMap
      (fun regex => (Chain.ofRegex? regex).toOption.map (regex, ·)) =
        l.filterMap fun regex => (Chain.ofRegex? regex).toOption.map (regex, ·) := by
    induction l with
    | nil => rfl
    | cons regex rest ih =>
      rw [readable] at ih ⊢
      rw [List.filter_cons, List.filterMap_cons]
      cases read : Chain.ofRegex? regex with
      | error cause => exact ih
      | ok chain =>
        rw [if_pos (by rfl), List.filterMap_cons, read]
        exact congrArg _ ih
  rw [rulesOf, same, ← rulesOf]

section Budgets

variable {other : Settings} (budgets : ∀ states, other.budget states = settings.budget states)
include budgets

theorem place?_congr (rule : Rule) (before after : List Draft) :
    place? other rule before after = place? settings rule before after := by
  induction after generalizing before with
  | nil => rfl
  | cons draft rest ih => simp only [place?, Trial.of?, budgets, ih]

theorem ofRules?_congr (rules : List Rule) :
    Progress.ofRules? other rules = Progress.ofRules? settings rules := by
  have add : Progress.add other = Progress.add settings := by
    funext p rule
    rw [Progress.add, Progress.add, place?_congr budgets]
  rw [Progress.ofRules?, Progress.ofRules?, add]

end Budgets

/-! ## Regexes that are left out -/

/-- A plan that tells which regexes it leaves out, and tells it first in its log. -/
def leavingOut (faults : List Fault) (plan : Plan) : Plan :=
  { plan with
    skipped := faults.map (·.regex)
    log := faults.map (fun f => .skipped f.index f.regex f.cause) ++ plan.log }

theorem ofProgress_eq_leavingOut (settings : Settings) (faults : List Fault) (p : Progress) :
    ofProgress settings faults p = (ofProgress settings [] p).leavingOut faults := by
  simp only [ofProgress, leavingOut, List.map_nil, List.nil_append, List.append_assoc]

/-- Regexes without a tree are left out as if they had not been there. -/
theorem ofRegexes?_of_lenient (lenient : settings.lenient = true) (regexes : List String) :
    ofRegexes? settings regexes =
      (ofRegexes? { settings with lenient := false } (readable regexes)).map
        (leavingOut (faultsOf (distinct regexes))) := by
  by_cases unfit : settings.Unfit
  · have unfit' : Settings.Unfit { settings with lenient := false } := unfit
    rw [ofRegexes?_of_unfit unfit, ofRegexes?_of_unfit unfit']
    rfl
  · have fit' : ¬Settings.Unfit { settings with lenient := false } := unfit
    have faultless : faultsOf (distinct (readable regexes)) = [] :=
      faultsOf_eq_nil_iff.2 fun regex h => (mem_readable.1 (mem_distinct.1 h)).2
    have budgets : ∀ states, Settings.budget { settings with lenient := false } states =
        settings.budget states := fun _ => rfl
    rw [ofRegexes?_of_fit unfit (.inl lenient), ofRegexes?_of_fit fit' (.inr faultless), faultless,
      distinct_readable, rulesOf_readable, ofRules?_congr budgets]
    cases Progress.ofRules? settings (rulesOf (distinct regexes)) with
    | error refusal => rfl
    | ok p => exact congrArg Except.ok (ofProgress_eq_leavingOut settings _ p)

/-- The part of a plan that is made of rules. -/
def grouping (plan : Plan) : List Group × List String × Automaton :=
  (plan.groups, plan.residual, plan.residualAutomaton)

theorem map_grouping_of_lenient (lenient : settings.lenient = true) (regexes : List String) :
    (ofRegexes? settings regexes).map grouping =
      (ofRegexes? { settings with lenient := false } (readable regexes)).map grouping := by
  rw [ofRegexes?_of_lenient lenient]
  generalize ofRegexes? _ _ = outcome
  cases outcome <;> rfl

theorem map_grouping_congr (lenient : settings.lenient = true)
    (members : ∀ regex, (Chain.ofRegex? regex).isOk = true → (regex ∈ others ↔ regex ∈ regexes)) :
    (ofRegexes? settings others).map grouping = (ofRegexes? settings regexes).map grouping := by
  have same : distinct (readable others) = distinct (readable regexes) := by
    refine distinct_eq_iff.2 fun regex => ?_
    rw [mem_readable, mem_readable]
    exact and_congr_left (members regex)
  rw [map_grouping_of_lenient lenient, map_grouping_of_lenient lenient,
    ofRegexes?_eq_of_distinct same]

/-- Where regexes without a tree may be left out, the plan is that of the others alone, which has
nothing left out, together with the sorted regexes without a tree; and its groups and residual
regexes, or the refusal of the settings, are the same whichever regexes without a tree there are. -/
theorem leavesOut_ofRegexes (settings : Settings) (lenient : settings.lenient = true)
    (regexes : List String) :
    ofRegexes? settings regexes =
      (ofRegexes? { settings with lenient := false } (readable regexes)).map
        (leavingOut (faultsOf (distinct regexes))) ∧
    (¬settings.Unfit → ∃ plan, ofRegexes? settings regexes = .ok plan ∧
      Text.Ascends plan.skipped ∧ ∀ regex, regex ∈ plan.skipped ↔
        regex ∈ regexes ∧ ∃ cause, Chain.ofRegex? regex = .error cause) ∧
    ∀ others, (∀ regex, (Chain.ofRegex? regex).isOk = true →
        (regex ∈ others ↔ regex ∈ regexes)) →
      (ofRegexes? settings others).map grouping = (ofRegexes? settings regexes).map grouping := by
  refine ⟨ofRegexes?_of_lenient lenient regexes, fun fit => ?_,
    fun others => map_grouping_congr lenient⟩
  obtain ⟨plan, made⟩ : ∃ plan, ofRegexes? settings regexes = .ok plan :=
    exists_ofRegexes?_iff.2 ⟨fit, .inl lenient⟩
  obtain ⟨p, _, rfl⟩ := exists_progress made
  exact ⟨_, made, ascends_regex_faultsOf, fun _ => mem_regex_faultsOf⟩

/-- Two regexes without a tree more. -/
theorem leavesOut_ofRegexes_faulty :
    (ofRegexes? { lenient := true } ["b", "a)", "a", "(?", "[a"]).map grouping =
        (ofRegexes? { lenient := true } ["a", "b", "a)"]).map grouping ∧
      ∃ plan, ofRegexes? { lenient := true } ["a", "b", "a)"] = .ok plan ∧
        Text.Ascends plan.skipped ∧ ∀ regex, regex ∈ plan.skipped ↔
          regex ∈ ["a", "b", "a)"] ∧ ∃ cause, Chain.ofRegex? regex = .error cause := by
  have fit : ¬Settings.Unfit { lenient := true } := by decide +kernel
  have kept : ∀ regex ∈ ["b", "a)", "a", "(?", "[a"],
      (Chain.ofRegex? regex).isOk = true → regex ∈ ["a", "b", "a)"] := by decide +kernel
  have known : ∀ regex ∈ ["a", "b", "a)"], regex ∈ ["b", "a)", "a", "(?", "[a"] := by decide
  obtain ⟨_, told, others⟩ := leavesOut_ofRegexes { lenient := true } rfl ["a", "b", "a)"]
  exact ⟨others _ fun regex read => ⟨fun h => kept regex h read, known regex⟩, told fit⟩

end PatternGroups.Plan
