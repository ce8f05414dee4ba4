import Mathlib.Algebra.Group.Nat.Defs
import Mathlib.Data.List.Dedup
import Mathlib.Data.Set.Finite.Basic
import PatternGroups.BitTables.SubsetCount
import PatternGroups.Proofs.Tables

/-!
# Counting active sets

The search goes over distinct masks, visits the set discovered last, and ends early when the budget
is used up. Whatever the order, it knows only active sets, none of them twice, and what a visited
set leads to is known. There are finitely many sets with the capacity of the tables, so that it
ends.

* `mem_nextSets`: the masks stand for all symbols;
* `discover_eq`: what one visit adds;
* `explore_eq`: the search, from any point on;
* `count?_of_complete`, `count?_of_incomplete`: a count that stays within its budget, and one that
  does not;
* `count_ofAutomaton`: the number of active sets, up to a budget.
-/

namespace PatternGroups

namespace BitSet

/-- All sets of one capacity. -/
def all (capacity : Nat) : List BitSet :=
  (List.range (2 ^ capacity)).map fun i => ⟨capacity, BitVec.ofNat capacity i⟩

theorem length_all (capacity : Nat) : (all capacity).length = 2 ^ capacity := by
  simp [all]

theorem mem_all (S : BitSet) : S ∈ all S.capacity := by
  have same : BitVec.ofNat S.capacity S.bits.toNat = S.bits := by simp
  exact List.mem_map.2 ⟨S.bits.toNat, List.mem_range.2 S.bits.isLt, by rw [same]⟩

end BitSet

namespace SubsetCount

open Automaton BitTables Relation

variable {t : BitTables} {m : Automaton} {budget : Option Nat}

/-! ## Budgets -/

theorem exceeds_mono {n k : Nat} (h : exceeds budget n = true) (hle : n ≤ k) :
    exceeds budget k = true := by
  cases budget with
  | none => cases h
  | some most =>
    have hn : most < n := by simpa [exceeds] using h
    have hk : most < k := by omega
    simpa [exceeds] using hk

/-- The first number that a budget does not allow. -/
theorem eq_of_exceeds {n : Nat} (within : exceeds budget n = false)
    (h : exceeds budget (n + 1) = true) : n = budget.getD 0 := by
  cases budget with
  | none => cases h
  | some most =>
    have hn : n ≤ most := by simpa [exceeds] using within
    have hn' : most < n + 1 := by simpa [exceeds] using h
    have same : n = most := by omega
    simpa using same

/-- What is answered if there are some number of sets. -/
def answer (budget : Option Nat) (sets : Nat) : SubsetCount :=
  if exceeds budget sets then ⟨budget.getD 0 + 1, false⟩ else ⟨sets, true⟩

theorem answer_of_exceeds {sets : Nat} (h : exceeds budget sets = true) :
    answer budget sets = ⟨budget.getD 0 + 1, false⟩ := if_pos h

theorem answer_of_within {sets : Nat} (h : exceeds budget sets = false) :
    answer budget sets = ⟨sets, true⟩ := by
  rw [answer, h]
  rfl

/-! ## Discovery -/

/-- Each new set is counted once, and the count stops at the first one beyond the budget. -/
theorem discover_eq {known pending next : List BitSet}
    (within : exceeds budget known.length = false) :
    discover budget known pending next =
      if exceeds budget (known.length + (Search.fresh known next).length) then
        .error ⟨budget.getD 0 + 1, false⟩
      else .ok ((Search.fresh known next).reverse ++ known,
        (Search.fresh known next).reverse ++ pending) := by
  induction next generalizing known pending with
  | nil => simp [discover, Search.fresh, within]
  | cons T next ih =>
    by_cases old : T ∈ known
    · have skipped : Search.fresh known (T :: next) = Search.fresh known next := if_pos old
      rw [discover, if_pos old, skipped]
      exact ih within
    · have first : Search.fresh known (T :: next) = T :: Search.fresh (T :: known) next :=
        if_neg old
      rw [discover, if_neg old, first, List.length_cons]
      cases full : exceeds budget (known.length + 1) with
      | true =>
        have beyond := exceeds_mono full
          (k := known.length + ((Search.fresh (T :: known) next).length + 1)) (by omega)
        rw [if_pos rfl, if_pos beyond, eq_of_exceeds within full]
      | false =>
        have count : (T :: known).length + (Search.fresh (T :: known) next).length =
            known.length + ((Search.fresh (T :: known) next).length + 1) := by
          rw [List.length_cons]
          omega
        have within' : exceeds budget (T :: known).length = false := full
        rw [if_neg Bool.false_ne_true, ih within', count]
        simp only [List.reverse_cons, List.append_assoc, List.singleton_append]

/-! ## Active sets -/

/-- A symbol leads from one set to another. -/
def Next (t : BitTables) (S T : BitSet) : Prop :=
  ∃ symbol : Symbol, t.step? S symbol.val = some T

/-- Some input leads from the initial set to a set. -/
def Active (t : BitTables) (S : BitSet) : Prop := ReflTransGen (Next t) t.initial S

theorem mem_masks (d : t.Describes m) {mask : BitSet} :
    mask ∈ t.masks ↔ ∃ symbol : Symbol, t.symbolMasks[symbol.val]? = some mask := by
  rw [masks, List.mem_eraseDups, Array.mem_toList_iff, Array.mem_iff_getElem?]
  constructor
  · intro h
    obtain ⟨code, hcode⟩ := h
    have small : code < t.symbolMasks.size := (Array.getElem?_eq_some_iff.1 hcode).1
    rw [d.symbols] at small
    exact ⟨⟨code, small⟩, hcode⟩
  · intro h
    obtain ⟨symbol, hmask⟩ := h
    exact ⟨symbol.val, hmask⟩

/-- Each symbol has its mask among the masks, and each mask belongs to a symbol. -/
theorem mem_nextSets (d : t.Describes m) {S U T : BitSet} (hU : t.successors? S = some U) :
    T ∈ t.masks.map (U ∩ ·) ↔ Next t S T := by
  have step (symbol : Symbol) : t.step? S symbol.val = some T ↔
      ∃ mask, t.symbolMasks[symbol.val]? = some mask ∧ U ∩ mask = T := by
    simp [BitTables.step?, hU, Option.bind_eq_some_iff]
  simp only [List.mem_map, mem_masks d, Next, step]
  constructor
  · intro h
    obtain ⟨mask, ⟨symbol, hmask⟩, hT⟩ := h
    exact ⟨symbol, mask, hmask, hT⟩
  · intro h
    obtain ⟨symbol, mask, hmask, hT⟩ := h
    exact ⟨mask, ⟨symbol, hmask⟩, hT⟩

theorem capacity_active (d : t.Describes m) (some : 0 < t.size) {S : BitSet} (h : Active t S) :
    S.capacity = t.size := by
  induction h with
  | refl => exact Nat.max_eq_left some
  | tail _ next ih =>
    obtain ⟨symbol, hstep⟩ := next
    have below := fun s hs => ih ▸ BitSet.lt_capacity_of_contains (s := s) hs
    obtain ⟨T, hT, holds⟩ := d.step? below symbol
    have same := Option.some.inj (hT.symm.trans hstep)
    rw [← same, holds.capacity]

theorem lt_size_of_active (d : t.Describes m) (some : 0 < t.size) {S : BitSet} (h : Active t S)
    (s : State) (hs : S.contains s = true) : s < t.size :=
  capacity_active d some h ▸ BitSet.lt_capacity_of_contains hs

theorem exists_successors (d : t.Describes m) (some : 0 < t.size) {S : BitSet} (h : Active t S) :
    ∃ U, t.successors? S = .some U := by
  obtain ⟨U, hU, _⟩ := d.successors? (lt_size_of_active d some h)
  exact ⟨U, hU⟩

/-! ## The search -/

/-- The invariant: what is known is active and known once, and what a visited set leads to is
known. -/
structure Searching (t : BitTables) (known pending : List BitSet) : Prop where
  nodup : known.Nodup
  pending_nodup : pending.Nodup
  pending_known : pending ⊆ known
  active : ∀ S ∈ known, Active t S
  initial : t.initial ∈ known
  closed : ∀ S ∈ known, S ∉ pending → ∀ T, Next t S T → T ∈ known

namespace Searching

variable {known pending : List BitSet}

theorem start (t : BitTables) : Searching t [t.initial] [t.initial] := by
  constructor
  · exact List.nodup_singleton _
  · exact List.nodup_singleton _
  · exact List.Subset.refl _
  · exact List.forall_mem_singleton.2 .refl
  · exact List.mem_singleton_self _
  · intro S known visited
    exact absurd known visited

theorem nodup_append_fresh {l next : List BitSet} (nodup : l.Nodup) (sub : l ⊆ known) :
    ((Search.fresh known next).reverse ++ l).Nodup := by
  have fresh := List.nodup_reverse.2 (Search.fresh_nodup known next)
  refine List.nodup_append.2 ⟨fresh, nodup, ?_⟩
  intro T hT S hS same
  have unknown := (Search.mem_fresh.1 (List.mem_reverse.1 hT)).2
  exact unknown (same ▸ sub hS)

/-- A visit keeps the invariant. -/
theorem visit {S : BitSet} (h : Searching t known (S :: pending)) {next : List BitSet}
    (hnext : ∀ T, T ∈ next ↔ Next t S T) :
    Searching t ((Search.fresh known next).reverse ++ known)
      ((Search.fresh known next).reverse ++ pending) := by
  have known' {T : BitSet} : T ∈ (Search.fresh known next).reverse ++ known ↔
      Next t S T ∨ T ∈ known := by
    rw [List.mem_append, List.mem_reverse, Search.mem_fresh, hnext]
    tauto
  have hS : S ∈ known := h.pending_known List.mem_cons_self
  have rest : pending ⊆ known := fun T hT => h.pending_known (List.mem_cons_of_mem S hT)
  constructor
  · exact nodup_append_fresh h.nodup (List.Subset.refl known)
  · exact nodup_append_fresh (List.nodup_cons.1 h.pending_nodup).2 rest
  · apply List.append_subset.2
    exact ⟨List.subset_append_left _ _, fun T hT => known'.2 (.inr (rest hT))⟩
  · intro T hT
    rcases known'.1 hT with next | old
    · exact (h.active S hS).tail next
    · exact h.active T old
  · exact known'.2 (.inr h.initial)
  · intro R hR visited T hT
    rw [List.mem_append, not_or, List.mem_reverse] at visited
    -- A set that was not known is pending now, so that a visited one was known before.
    have old : R ∈ known := by
      by_contra unknown
      have new : Next t S R := (known'.1 hR).resolve_right unknown
      exact visited.1 (Search.mem_fresh.2 ⟨(hnext R).2 new, unknown⟩)
    by_cases same : R = S
    · exact known'.2 (.inl (same ▸ hT))
    · have before : R ∉ S :: pending := by
        rw [List.mem_cons, not_or]
        exact ⟨same, visited.2⟩
      exact known'.2 (.inr (h.closed R old before T hT))

/-- When nothing is pending, everything active is known. -/
theorem mem_iff (h : Searching t known []) {S : BitSet} : S ∈ known ↔ Active t S := by
  constructor
  · exact h.active S
  · intro active
    induction active with
    | refl => exact h.initial
    | tail _ next ih => exact h.closed _ ih List.not_mem_nil _ next

end Searching

/-- There are no more active sets than sets of one capacity. -/
theorem Searching.length_le {known pending : List BitSet} (h : Searching t known pending)
    (d : t.Describes m) (some : 0 < t.size) : known.length ≤ 2 ^ t.size := by
  have sub : known ⊆ BitSet.all t.size := by
    intro S hS
    have capacity := capacity_active d some (h.active S hS)
    exact capacity ▸ BitSet.mem_all S
  have le := (List.subperm_of_subset h.nodup sub).length_le
  rwa [BitSet.length_all] at le

/-- A search with nothing pending has found all active sets. -/
theorem explore_nil {sets masks known : List BitSet} (nodup : sets.Nodup)
    (hsets : ∀ S, S ∈ sets ↔ Active t S) (h : Searching t known [])
    (within : exceeds budget known.length = false) (bound : Nat) :
    explore t masks budget bound known [] = some (answer budget sets.length) := by
  have all : known.Perm sets :=
    (List.perm_ext_iff_of_nodup h.nodup nodup).2 fun S => h.mem_iff.trans (hsets S).symm
  rw [← all.length_eq, answer_of_within within]
  cases bound with
  | zero => rfl
  | succ bound => rfl

/-- A search that may visit each set that is not visited yet answers for the number of active
sets. -/
theorem explore_eq (d : t.Describes m) (some : 0 < t.size) {sets : List BitSet}
    (nodup : sets.Nodup) (hsets : ∀ S, S ∈ sets ↔ Active t S) {bound : Nat}
    {known pending : List BitSet} (h : Searching t known pending)
    (within : exceeds budget known.length = false)
    (visits : 2 ^ t.size + pending.length ≤ known.length + bound) :
    explore t t.masks budget bound known pending = .some (answer budget sets.length) := by
  induction bound generalizing known pending with
  | zero =>
    -- As many sets are visited as there are, so that none is left.
    have few := h.length_le d some
    have none : pending = [] := List.eq_nil_of_length_eq_zero (by omega)
    subst none
    exact explore_nil nodup hsets h within 0
  | succ bound ih =>
    cases pending with
    | nil => exact explore_nil nodup hsets h within (bound + 1)
    | cons S pending =>
      have hS : Active t S := h.active S (h.pending_known List.mem_cons_self)
      obtain ⟨U, hU⟩ := exists_successors d some hS
      have visited := h.visit fun T => mem_nextSets d hU
      rw [explore, hU]
      dsimp only
      rw [discover_eq within]
      cases full : exceeds budget
          (known.length + (Search.fresh known (t.masks.map (U ∩ ·))).length) with
      | true =>
        have count : known.length + (Search.fresh known (t.masks.map (U ∩ ·))).length ≤
            sets.length := by
          have sub : (Search.fresh known (t.masks.map (U ∩ ·))).reverse ++ known ⊆ sets :=
            fun T hT => (hsets T).2 (visited.active T hT)
          have le := (List.subperm_of_subset visited.nodup sub).length_le
          rw [List.length_append, List.length_reverse] at le
          omega
        rw [answer_of_exceeds (exceeds_mono full count)]
        rfl
      | false =>
        have length : ((Search.fresh known (t.masks.map (U ∩ ·))).reverse ++ known).length =
            known.length + (Search.fresh known (t.masks.map (U ∩ ·))).length := by
          rw [List.length_append, List.length_reverse, Nat.add_comm]
        apply ih visited
        · rw [length, full]
        · rw [length, List.length_append, List.length_reverse]
          rw [List.length_cons] at visits
          omega

/-- The search for tables with states, with any budget. -/
theorem count?_eq (d : t.Describes m) (some : 0 < t.size) {sets : List BitSet}
    (nodup : sets.Nodup) (hsets : ∀ S, S ∈ sets ↔ Active t S) (budget : Option Nat) :
    count? t budget = .some (answer budget sets.length) := by
  rw [count?]
  cases full : exceeds budget 1 with
  | true =>
    have initial : t.initial ∈ sets := (hsets _).2 .refl
    have least : 1 ≤ sets.length := List.length_pos_of_mem initial
    have none : 0 = budget.getD 0 := by
      apply eq_of_exceeds _ full
      cases budget with
      | none => rfl
      | some most => simp [exceeds]
    rw [if_pos rfl, answer_of_exceeds (exceeds_mono full least), ← none]
  | false =>
    rw [if_neg Bool.false_ne_true]
    apply explore_eq d some nodup hsets (Searching.start t) full
    rw [Nat.one_shiftLeft, List.length_singleton]
    omega

theorem finite_active (d : t.Describes m) (some : 0 < t.size) : {S | Active t S}.Finite := by
  apply (List.finite_toSet (BitSet.all t.size)).subset
  intro S active
  exact capacity_active d some active ▸ BitSet.mem_all S

/-- There is one number of sets, and it answers for each budget. -/
theorem exists_answer (d : t.Describes m) (some : 0 < t.size) :
    ∃ sets, ∀ budget, count? t budget = .some (answer budget sets) := by
  have finite := finite_active d some
  exact ⟨_, count?_eq d some finite.toFinset.nodup_toList fun S => by simp⟩

/-! ## Counts within a budget -/

/-- A search that is not cut short goes as it would without a budget. -/
theorem explore_of_complete {masks known pending : List BitSet} {bound n : Nat}
    (within : exceeds budget known.length = false)
    (h : explore t masks budget bound known pending = some ⟨n, true⟩) :
    explore t masks none bound known pending = some ⟨n, true⟩ ∧ exceeds budget n = false := by
  induction bound generalizing known pending with
  | zero =>
    cases pending with
    | nil => cases h; exact ⟨rfl, within⟩
    | cons S pending => cases h
  | succ bound ih =>
    cases pending with
    | nil => cases h; exact ⟨rfl, within⟩
    | cons S pending =>
      rw [explore] at h ⊢
      cases next : t.successors? S with
      | none => rw [next] at h; cases h
      | some U =>
        have unlimited : exceeds none known.length = false := rfl
        rw [next] at h
        dsimp only at h ⊢
        rw [discover_eq within] at h
        rw [discover_eq unlimited]
        cases full : exceeds budget
            (known.length + (Search.fresh known (masks.map (U ∩ ·))).length) with
        | true => rw [full, if_pos rfl] at h; cases h
        | false =>
          rw [full, if_neg Bool.false_ne_true] at h
          refine ih ?_ h
          rwa [List.length_append, List.length_reverse, Nat.add_comm]

/-- A count that stays within its budget is the count without one. -/
theorem count?_of_complete {most : Nat} (h : (count t (some most)).complete = true) :
    count? t none = some ⟨(count t (some most)).subsets, true⟩ ∧
      (count t (some most)).subsets ≤ most := by
  unfold count at h ⊢
  cases counted : count? t (some most) with
  | none => rw [counted] at h; cases h
  | some c =>
    obtain ⟨n, complete⟩ := c
    rw [counted, Option.getD_some] at h
    obtain rfl : complete = true := h
    rw [Option.getD_some]
    rw [count?] at counted
    cases full : exceeds (some most) 1 with
    | true => rw [full, if_pos rfl] at counted; cases counted
    | false =>
      rw [full, if_neg Bool.false_ne_true] at counted
      obtain ⟨unlimited, fits⟩ := explore_of_complete full counted
      exact ⟨unlimited, by simpa [exceeds] using fits⟩

/-- A count that is cut short would be larger than its budget without it. -/
theorem count?_of_incomplete (d : t.Describes m) (some : 0 < t.size) {most : Nat}
    (h : (count t (.some most)).complete = false) :
    ∃ sets, most < sets ∧ count? t none = .some ⟨sets, true⟩ ∧
      count? t (.some most) = .some ⟨most + 1, false⟩ := by
  obtain ⟨sets, counted⟩ := exists_answer d some
  have unlimited := counted none
  have limited := counted (.some most)
  cases full : exceeds (.some most) sets with
  | true =>
    rw [answer_of_exceeds full] at limited
    exact ⟨sets, by simpa [exceeds] using full, unlimited, limited⟩
  | false =>
    rw [count, limited, answer_of_within full] at h
    cases h

/-- For tables of an automaton with states there are finitely many active sets, all of one capacity,
so that those with different members are counted as different. Without a budget the count is their
number; with one it is, too, if they fit, and else the first number beyond the budget. -/
theorem count_ofAutomaton (h : ofAutomaton? m = .ok t) (some : m.states ≠ []) :
    ∃ sets : List BitSet, sets.Nodup ∧ (∀ S, S ∈ sets ↔ Active t S) ∧
      (∀ S ∈ sets, S.capacity = t.size) ∧
      count? t none = .some ⟨sets.length, true⟩ ∧
      ∀ budget, count? t (.some budget) = .some
        (if sets.length ≤ budget then ⟨sets.length, true⟩ else ⟨budget + 1, false⟩) := by
  classical
  have d := describes_ofAutomaton h
  have size : 0 < t.size := by
    obtain ⟨_, _, rfl⟩ := ofAutomaton?_eq_ok_iff.1 h
    exact List.length_pos_of_ne_nil some
  obtain ⟨sets, nodup, hsets⟩ : ∃ sets : List BitSet, sets.Nodup ∧
      ∀ S, S ∈ sets ↔ Active t S := by
    refine ⟨((BitSet.all t.size).filter (Active t ·)).dedup, List.nodup_dedup _, fun S => ?_⟩
    rw [List.mem_dedup, List.mem_filter, decide_eq_true_eq]
    constructor
    · exact And.right
    · intro active
      exact ⟨capacity_active d size active ▸ BitSet.mem_all S, active⟩
  have counted := count?_eq d size nodup hsets
  refine ⟨sets, nodup, hsets, ?_, counted none, fun budget => ?_⟩
  · intro S hS
    exact capacity_active d size ((hsets S).1 hS)
  · rw [counted, answer]
    by_cases fits : sets.length ≤ budget
    · have within : exceeds (.some budget) sets.length = false := by simpa [exceeds] using fits
      rw [within, if_neg Bool.false_ne_true, if_pos fits]
    · have beyond : exceeds (.some budget) sets.length = true := by
        simpa [exceeds] using Nat.lt_of_not_le fits
      rw [beyond, if_pos rfl, if_neg fits]
      rfl

/-- The count for a single letter, whose automaton has two states. -/
theorem count_ofAutomaton_letter :
    ∃ m t, m = ⟨.ofCells [⟨0, 0, .full⟩, ⟨0, 1, .singleton 97⟩], .ofCells [⟨1, 1, ()⟩], 1⟩ ∧
      ofAutomaton? m = .ok t ∧ m.states ≠ [] ∧
      ∃ sets : List BitSet, sets.Nodup ∧ (∀ S, S ∈ sets ↔ Active t S) ∧
        (∀ S ∈ sets, S.capacity = t.size) ∧ count? t none = some ⟨sets.length, true⟩ ∧
        ∀ budget, count? t (some budget) = some
          (if sets.length ≤ budget then ⟨sets.length, true⟩ else ⟨budget + 1, false⟩) := by
  have made : (ofAutomaton? ⟨.ofCells [⟨0, 0, .full⟩, ⟨0, 1, .singleton 97⟩],
      .ofCells [⟨1, 1, ()⟩], 1⟩).isOk = true := by decide +kernel
  cases h : ofAutomaton? ⟨.ofCells [⟨0, 0, .full⟩, ⟨0, 1, .singleton 97⟩],
      .ofCells [⟨1, 1, ()⟩], 1⟩ with
  | error refusal => rw [h] at made; cases made
  | ok t =>
    have states : Automaton.states ⟨.ofCells [⟨0, 0, .full⟩, ⟨0, 1, .singleton 97⟩],
        .ofCells [⟨1, 1, ()⟩], 1⟩ ≠ [] := by decide +kernel
    exact ⟨_, t, rfl, h, states, count_ofAutomaton h states⟩

end SubsetCount

end PatternGroups
