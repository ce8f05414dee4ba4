import PatternGroups.Plan

/-!
# Rules and faults

Regexes are sorted, and repetitions are left out. Those with a syntax tree become rules, numbered in
this order; the others are faults, with their positions among all.

* `mem_distinct`, `pairwise_distinct`: the sorted list without repetitions;
* `regex_rulesOf`, `regex_faultsOf`: rules and faults share it out;
* `head?_faultsOf_eq_some_iff`: the first fault.
-/

namespace PatternGroups

/-! ## Repetitions -/

namespace Sorting

variable {α : Type}

theorem eraseReps_loop (r : α → α → Bool) (a : α) (l done : List α) :
    List.eraseRepsBy.loop r a l done = done.reverse ++ List.eraseRepsBy.loop r a l [] := by
  induction l generalizing a done with
  | nil => simp [List.eraseRepsBy.loop]
  | cons b rest ih =>
    unfold List.eraseRepsBy.loop
    cases r a b with
    | true => exact ih a done
    | false =>
      dsimp only
      rw [ih b (a :: done), ih b [a]]
      simp

theorem eraseReps_cons_cons [BEq α] (a b : α) (l : List α) : (a :: b :: l).eraseReps =
    if a == b then (a :: l).eraseReps else a :: (b :: l).eraseReps := by
  simp only [List.eraseReps, List.eraseRepsBy]
  rw [List.eraseRepsBy.loop]
  cases a == b with
  | true => rfl
  | false =>
    dsimp only
    rw [eraseReps_loop]
    rfl

theorem mem_eraseReps [BEq α] [LawfulBEq α] {a : α} {l : List α} : a ∈ l.eraseReps ↔ a ∈ l := by
  match l with
  | [] => rfl
  | [b] => rfl
  | b :: c :: rest =>
    rw [eraseReps_cons_cons]
    split
    · rename_i same
      obtain rfl : b = c := eq_of_beq same
      rw [mem_eraseReps]
      simp
    · rw [List.mem_cons, mem_eraseReps, List.mem_cons (a := a) (b := b)]

/-- A sorted list has its repetitions side by side. -/
theorem pairwise_eraseReps {l : List String} (h : l.Pairwise (· ≤ ·)) :
    l.eraseReps.Pairwise (· < ·) := by
  match l with
  | [] => exact .nil
  | [b] => exact List.pairwise_singleton _ b
  | b :: c :: rest =>
    have later := h.tail
    rw [eraseReps_cons_cons]
    split
    · rename_i same
      obtain rfl : b = c := eq_of_beq same
      exact pairwise_eraseReps later
    · rename_i differ
      refine List.pairwise_cons.2 ⟨fun d hd => ?_, pairwise_eraseReps later⟩
      have least : c ≤ d := by
        rcases List.mem_cons.1 (mem_eraseReps.1 hd) with rfl | hd
        · exact String.le_refl d
        · exact (List.pairwise_cons.1 later).1 d hd
      apply String.not_le.1
      intro le
      have same := String.le_antisymm ((List.pairwise_cons.1 h).1 c List.mem_cons_self)
        (String.le_trans least le)
      exact differ (beq_iff_eq.2 same)

end Sorting

namespace Plan

variable {regexes : List String} {regex : String}

theorem mem_distinct : regex ∈ distinct regexes ↔ regex ∈ regexes := by
  rw [distinct, Sorting.mem_eraseReps]
  exact (Sorting.sort_perm _ regexes).mem_iff

theorem pairwise_distinct (regexes : List String) : (distinct regexes).Pairwise (· < ·) := by
  apply Sorting.pairwise_eraseReps
  have sorted : (PrefixParts.sort regexes).Pairwise fun a b => decide (a ≤ b) = true := by
    apply Sorting.pairwise_sort
    · intro a b
      simpa using String.le_total a b
    · intro a b c
      simpa using String.le_trans
  simpa using sorted

/-! ## Rules -/

/-- The tree of a rule is that of its regex. -/
def Rule.Parsed (rule : Rule) : Prop :=
  Chain.ofRegex? rule.regex = .ok rule.tree

theorem parsed_rulesOf (regexes : List String) : ∀ rule ∈ rulesOf regexes, rule.Parsed := by
  intro rule h
  simp only [rulesOf, List.mem_map, Prod.exists] at h
  obtain ⟨regex, tree, index, place, rfl⟩ := h
  have read := List.fst_mem_of_mem_zipIdx place
  simp only [List.mem_filterMap, Option.map_eq_some_iff, Prod.mk.injEq] at read
  obtain ⟨_, _, _, parsed, rfl, rfl⟩ := read
  unfold Rule.Parsed
  dsimp only
  generalize Chain.ofRegex? _ = answer at parsed ⊢
  cases answer with
  | error cause => cases parsed
  | ok chain => cases parsed; rfl

theorem regex_rulesOf :
    (rulesOf regexes).map (·.regex) = regexes.filter fun r => (Chain.ofRegex? r).isOk := by
  have regexOf (l : List (String × Chain)) :
      (l.zipIdx.map fun e => (⟨e.2, e.1.1, e.1.2⟩ : Rule)).map (·.regex) = l.map Prod.fst := by
    rw [List.map_map]
    calc _ = (l.zipIdx.map Prod.fst).map Prod.fst := by rw [List.map_map]; rfl
      _ = l.map Prod.fst := by rw [List.zipIdx_map_fst]
  rw [rulesOf, regexOf]
  induction regexes with
  | nil => rfl
  | cons r rest ih =>
    rw [List.filterMap_cons, List.filter_cons]
    cases Chain.ofRegex? r with
    | error cause => exact ih
    | ok chain => exact congrArg (r :: ·) ih

theorem pairwise_index_rulesOf (regexes : List String) :
    (rulesOf regexes).Pairwise fun a b => a.index < b.index := by
  have indexOf (l : List (String × Chain)) :
      (l.zipIdx.map fun e => (⟨e.2, e.1.1, e.1.2⟩ : Rule)).map (·.index) =
        List.range' 0 l.length := by
    rw [List.map_map, ← List.zipIdx_map_snd]
    rfl
  apply List.pairwise_map.1
  rw [rulesOf, indexOf]
  exact List.pairwise_lt_range'

/-! ## Faults -/

/-- The fault of a regex at a position, if it has one. -/
def faultAt (place : String × Nat) : Option Fault :=
  match Chain.ofRegex? place.1 with
  | .ok _ => none
  | .error cause => some ⟨place.2, place.1, cause⟩

theorem faultAt_eq_some_iff {place : String × Nat} {fault : Fault} :
    faultAt place = some fault ↔
      place = (fault.regex, fault.index) ∧ Chain.ofRegex? fault.regex = .error fault.cause := by
  obtain ⟨regex, index⟩ := place
  obtain ⟨index', regex', cause'⟩ := fault
  unfold faultAt
  dsimp only
  cases h : Chain.ofRegex? regex with
  | ok chain =>
    simp only [reduceCtorEq, Prod.mk.injEq, false_iff]
    rintro ⟨⟨rfl, rfl⟩, error⟩
    rw [h] at error
    cases error
  | error cause =>
    simp only [Option.some.injEq, Fault.mk.injEq, Prod.mk.injEq]
    constructor
    · rintro ⟨rfl, rfl, rfl⟩
      exact ⟨⟨rfl, rfl⟩, h⟩
    · rintro ⟨⟨rfl, rfl⟩, error⟩
      rw [h] at error
      cases error
      exact ⟨rfl, rfl, rfl⟩

theorem faultAt_eq_none_iff {place : String × Nat} :
    faultAt place = none ↔ (Chain.ofRegex? place.1).isOk = true := by
  unfold faultAt
  cases Chain.ofRegex? place.1 with
  | ok chain => exact ⟨fun _ => rfl, fun _ => rfl⟩
  | error cause => exact ⟨nofun, nofun⟩

theorem faultsOf_eq (regexes : List String) :
    faultsOf regexes = regexes.zipIdx.filterMap faultAt := rfl

theorem regex_faultsOf :
    (faultsOf regexes).map (·.regex) = regexes.filter fun r => !(Chain.ofRegex? r).isOk := by
  have faults (n : Nat) : ((regexes.zipIdx n).filterMap faultAt).map (·.regex) =
      regexes.filter fun r => !(Chain.ofRegex? r).isOk := by
    induction regexes generalizing n with
    | nil => rfl
    | cons r rest ih =>
      rw [List.zipIdx_cons, List.filterMap_cons, List.filter_cons, faultAt]
      cases Chain.ofRegex? r with
      | error cause => exact congrArg (r :: ·) (ih (n + 1))
      | ok chain => exact ih (n + 1)
  exact faults 0

theorem faultsOf_eq_nil_iff :
    faultsOf regexes = [] ↔ ∀ r ∈ regexes, (Chain.ofRegex? r).isOk = true := by
  rw [← List.map_eq_nil_iff (f := (·.regex)), regex_faultsOf, List.filter_eq_nil_iff]
  simp

/-- A fault is that of the first of some regexes that has no tree. -/
def Fault.First (fault : Fault) (regexes : List String) : Prop :=
  ∃ before after, regexes = before ++ fault.regex :: after ∧ fault.index = before.length ∧
    Chain.ofRegex? fault.regex = .error fault.cause ∧
    ∀ earlier ∈ before, (Chain.ofRegex? earlier).isOk = true

theorem head?_faultsOf_eq_some_iff {fault : Fault} :
    (faultsOf regexes).head? = some fault ↔ fault.First regexes := by
  rw [faultsOf_eq, List.head?_filterMap, List.findSome?_eq_some_iff]
  constructor
  · rintro ⟨_, _, _, split, here, earlier⟩
    obtain ⟨before, _, rfl, rfl, others⟩ := List.zipIdx_eq_append_iff.1 split
    obtain ⟨r, after, rfl, rfl, _⟩ := List.zipIdx_eq_cons_iff.1 others.symm
    obtain ⟨place, cause⟩ := faultAt_eq_some_iff.1 here
    rw [Nat.zero_add, Prod.mk.injEq] at place
    obtain ⟨rfl, index⟩ := place
    refine ⟨before, after, rfl, index.symm, cause, fun r hr => ?_⟩
    obtain ⟨i, hi, rfl⟩ := List.getElem_of_mem hr
    exact faultAt_eq_none_iff.1
      (earlier (before[i], i) (List.mk_mem_zipIdx_iff_getElem?.2 (List.getElem?_eq_getElem hi)))
  · rintro ⟨before, after, rfl, index, cause, earlier⟩
    refine ⟨before.zipIdx, (fault.regex, fault.index), after.zipIdx (fault.index + 1), ?_,
      faultAt_eq_some_iff.2 ⟨rfl, cause⟩, fun place hp => ?_⟩
    · rw [List.zipIdx_append, List.zipIdx_cons, index, Nat.zero_add]
    · exact faultAt_eq_none_iff.2 (earlier place.1 (List.fst_mem_of_mem_zipIdx hp))

end Plan

end PatternGroups
