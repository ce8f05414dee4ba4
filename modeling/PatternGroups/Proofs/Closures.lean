import Mathlib.Data.Finset.Card
import Mathlib.Order.Bounds.Basic
import PatternGroups.Proofs.Matching

/-!
# Closures under ε-edges

The states whose ε-edges are still to be followed wait in a stack. A state goes there when it is
added, so that it is followed once, and the stack runs empty also if ε-edges lead in circles.

* `Snug`: a set has no more capacity than it had before, and than its members need;
* `Closes`: how the stack is worked off, without a bound on the turns; `Closes.unique`;
* `left_meet`, `Chased.turn`: a turn leaves one less to do, and keeps every state that is found on
  the stack or followed;
* `closes_iff`: the stack runs empty, and what is found then is the closure;
* `closure_eq_self_iff`: a set that no ε-edge leaves is its own closure;
* `closure_ofChains`: what the closures of the automata of trees are.
-/

namespace PatternGroups

/-! ## Capacities -/

namespace BitSet

variable {S T U : BitSet}

/-- A set has the least capacity that is not below that of another set and suffices for its
members. -/
def Snug (S T : BitSet) : Prop :=
  IsLeast {c | S.capacity ≤ c ∧ ∀ s, T.contains s = true → s < c} T.capacity

theorem snug_self (S : BitSet) : Snug S S :=
  ⟨⟨Nat.le_refl _, fun _ => lt_capacity_of_contains⟩, fun _ enough => enough.1⟩

theorem Snug.insert (h : Snug S T) (t : State) : Snug S (T.insert t) := by
  refine ⟨⟨?_, fun _ => lt_capacity_of_contains⟩, ?_⟩
  · have := h.1.1
    simp only [capacity_insert]
    omega
  · rintro c ⟨above, members⟩
    simp only [contains_insert, Bool.or_eq_true, decide_eq_true_eq] at members
    have old : T.capacity ≤ c := h.2 ⟨above, fun s hs => members s (.inl hs)⟩
    have new : t < c := members t (.inr rfl)
    exact Nat.max_le.2 ⟨old, new⟩

theorem Snug.insertAll (h : Snug S T) (states : List State) : Snug S (T.insertAll states) := by
  induction states generalizing T with
  | nil => exact h
  | cons s rest ih => exact ih (h.insert s)

theorem Snug.union {A B : BitSet} (h : Snug S A) (h' : Snug T B) : Snug (S ∪ T) (A ∪ B) := by
  refine ⟨⟨?_, fun _ => lt_capacity_of_contains⟩, ?_⟩
  · have := h.1.1
    have := h'.1.1
    simp only [capacity_union]
    omega
  · rintro c ⟨above, members⟩
    simp only [contains_union, Bool.or_eq_true, capacity_union] at members above
    have first : A.capacity ≤ c := h.2 ⟨by omega, fun s hs => members s (.inl hs)⟩
    have second : B.capacity ≤ c := h'.2 ⟨by omega, fun s hs => members s (.inr hs)⟩
    exact Nat.max_le.2 ⟨first, second⟩

/-- The members decide which set with such a capacity it is. -/
theorem Snug.eq (h : Snug S T) (h' : Snug S U)
    (same : ∀ s, T.contains s = true ↔ U.contains s = true) : T = U := by
  refine ext_contains ?_ fun s => Bool.eq_iff_iff.2 (same s)
  unfold Snug at h h'
  simp only [same] at h
  exact h.unique h'

end BitSet

namespace EpsilonAutomaton

open Relation

variable {m : EpsilonAutomaton} {S T U : BitSet}

/-! ## The stack -/

/-- A set that is being closed, and the states whose ε-edges are still to be followed, the next one
on top. -/
structure Closing where
  found : BitSet
  stack : List State

namespace Closing

/-- At first all members are on the stack, the greatest on top. -/
def start (S : BitSet) : Closing := ⟨S, S.members.reverse⟩

/-- A state that is new is added, and goes on the stack. -/
def meet (c : Closing) (t : State) : Closing :=
  if c.found.contains t then c else ⟨c.found.insert t, t :: c.stack⟩

def meetAll (c : Closing) (targets : List State) : Closing := targets.foldl meet c

end Closing

/-- How a set is closed: the ε-edges of the state on top of the stack are followed, until the stack
is empty. -/
inductive Closes (m : EpsilonAutomaton) : Closing → BitSet → Prop where
  | done {S : BitSet} : m.Closes ⟨S, []⟩ S
  | turn {S T : BitSet} {s : State} {stack : List State}
      (rest : m.Closes (Closing.meetAll ⟨S, stack⟩ (m.jumpTargets s)) T) :
      m.Closes ⟨S, s :: stack⟩ T

theorem Closes.unique {c : Closing} (h : m.Closes c T) (h' : m.Closes c U) : T = U := by
  induction h with
  | done =>
    cases h' with
    | done => rfl
  | turn _ ih =>
    cases h' with
    | turn rest => exact ih rest

namespace Closing

variable {c : Closing}

theorem contains_meet {t r : State} :
    (c.meet t).found.contains r = true ↔ c.found.contains r = true ∨ r = t := by
  unfold meet
  split
  · rename_i old
    constructor
    · exact .inl
    · rintro (h | rfl)
      · exact h
      · exact old
  · simp only [BitSet.contains_insert, Bool.or_eq_true, decide_eq_true_eq, eq_comm (a := t)]

theorem contains_meetAll {targets : List State} {r : State} :
    (c.meetAll targets).found.contains r = true ↔ c.found.contains r = true ∨ r ∈ targets := by
  induction targets generalizing c with
  | nil => simp [meetAll]
  | cons t rest ih =>
    have first : c.meetAll (t :: rest) = (c.meet t).meetAll rest := rfl
    rw [first, ih, contains_meet, List.mem_cons, or_assoc]

theorem mem_stack_meet {t r : State} :
    r ∈ (c.meet t).stack ↔ r ∈ c.stack ∨ (r = t ∧ ¬c.found.contains r = true) := by
  unfold meet
  split
  · rename_i old
    constructor
    · exact .inl
    · rintro (h | ⟨rfl, new⟩)
      · exact h
      · exact absurd old new
  · rename_i new
    simp only [List.mem_cons]
    constructor
    · rintro (rfl | h)
      · exact .inr ⟨rfl, new⟩
      · exact .inl h
    · rintro (h | ⟨rfl, _⟩)
      · exact .inr h
      · exact .inl rfl

theorem mem_stack_meetAll {targets : List State} {r : State} :
    r ∈ (c.meetAll targets).stack ↔
      r ∈ c.stack ∨ (r ∈ targets ∧ ¬c.found.contains r = true) := by
  induction targets generalizing c with
  | nil => simp [meetAll]
  | cons t rest ih =>
    have first : c.meetAll (t :: rest) = (c.meet t).meetAll rest := rfl
    rw [first, ih, mem_stack_meet, contains_meet, List.mem_cons]
    tauto

theorem snug_meetAll (h : BitSet.Snug S c.found) (targets : List State) :
    BitSet.Snug S (c.meetAll targets).found := by
  induction targets generalizing c with
  | nil => exact h
  | cons t rest ih =>
    apply ih
    unfold meet
    split
    · exact h
    · exact h.insert t

/-! ## The turns -/

/-- The turns that are left to do: one for each state on the stack, and one for each that may still
be found. -/
def left (m : EpsilonAutomaton) (c : Closing) : Nat :=
  ((Finset.range m.states).filter fun s => c.found.contains s = false).card + c.stack.length

/-- What is found goes on the stack. -/
theorem left_meet {t : State} (ht : t < m.states) : (c.meet t).left m = c.left m := by
  unfold meet
  split
  · rfl
  · rename_i new
    rw [Bool.not_eq_true] at new
    have missing : t ∈ (Finset.range m.states).filter fun s => c.found.contains s = false := by
      simp [ht, new]
    have others : ((Finset.range m.states).filter fun s => (c.found.insert t).contains s = false) =
        ((Finset.range m.states).filter fun s => c.found.contains s = false).erase t := by
      ext s
      simp only [Finset.mem_filter, Finset.mem_erase, BitSet.contains_insert, Bool.or_eq_false_iff,
        decide_eq_false_iff_not]
      tauto
    have := Finset.card_pos.2 ⟨t, missing⟩
    simp only [left, others, Finset.card_erase_of_mem missing, List.length_cons]
    omega

theorem left_meetAll {targets : List State} (h : ∀ t ∈ targets, t < m.states) :
    (c.meetAll targets).left m = c.left m := by
  induction targets generalizing c with
  | nil => rfl
  | cons t rest ih =>
    rw [List.forall_mem_cons] at h
    exact (ih h.2).trans (left_meet h.1)

theorem left_turn (hm : m.WellFormed) (found : BitSet) (s : State) (stack : List State) :
    (meetAll ⟨found, stack⟩ (m.jumpTargets s)).left m + 1 = left m ⟨found, s :: stack⟩ := by
  rw [left_meetAll fun t ht => (hm.jumps (mem_jumpTargets.1 ht)).2]
  rfl

/-- What is true of a closing at each turn: nothing is found but what ε-edges lead to from the first
set, and what is found is on the stack, or its ε-edges were followed. -/
structure Chased (m : EpsilonAutomaton) (S : BitSet) (c : Closing) : Prop where
  seeded : ∀ s, S.contains s = true → c.found.contains s = true
  reached : ∀ t, c.found.contains t = true → ∃ s, S.contains s = true ∧ ReflTransGen m.Jump s t
  stacked : ∀ s ∈ c.stack, c.found.contains s = true
  followed : ∀ s, c.found.contains s = true → s ∈ c.stack ∨
    ∀ t, m.Jump s t → c.found.contains t = true
  snug : BitSet.Snug S c.found

theorem chased_start (S : BitSet) : Chased m S (start S) where
  seeded _ := id
  reached t ht := ⟨t, ht, .refl⟩
  stacked s hs := by simpa [start] using hs
  followed s hs := .inl (by simpa [start] using hs)
  snug := S.snug_self

/-- The state on top of the stack is followed: what its ε-edges lead to is found, and goes on the
stack if it is new. -/
theorem Chased.turn {found : BitSet} {s : State} {stack : List State}
    (h : Chased m S ⟨found, s :: stack⟩) :
    Chased m S (meetAll ⟨found, stack⟩ (m.jumpTargets s)) where
  seeded r hr := contains_meetAll.2 (.inl (h.seeded r hr))
  reached t ht := by
    rcases contains_meetAll.1 ht with old | target
    · exact h.reached t old
    · obtain ⟨r, hr, jumps⟩ := h.reached s (h.stacked s List.mem_cons_self)
      exact ⟨r, hr, jumps.tail (mem_jumpTargets.1 target)⟩
  stacked r hr := by
    rcases mem_stack_meetAll.1 hr with old | ⟨target, _⟩
    · exact contains_meetAll.2 (.inl (h.stacked r (List.mem_cons_of_mem s old)))
    · exact contains_meetAll.2 (.inr target)
  followed r hr := by
    by_cases old : found.contains r = true
    · rcases h.followed r old with waiting | followed
      · rcases List.mem_cons.1 waiting with rfl | waiting
        · exact .inr fun t jump => contains_meetAll.2 (.inr (mem_jumpTargets.2 jump))
        · exact .inl (mem_stack_meetAll.2 (.inl waiting))
      · exact .inr fun t jump => contains_meetAll.2 (.inl (followed t jump))
    · have target := (contains_meetAll.1 hr).resolve_left old
      exact .inl (mem_stack_meetAll.2 (.inr ⟨target, old⟩))
  snug := by
    have before : BitSet.Snug S (Closing.mk found stack).found := h.snug
    exact snug_meetAll before _

/-- When the stack is empty, all that ε-edges lead to is found. -/
theorem Chased.contains_iff {found : BitSet} (h : Chased m S ⟨found, []⟩) {t : State} :
    found.contains t = true ↔ ∃ s, S.contains s = true ∧ ReflTransGen m.Jump s t := by
  refine ⟨h.reached t, ?_⟩
  rintro ⟨s, hs, jumps⟩
  induction jumps with
  | refl => exact h.seeded s hs
  | tail _ jump ih =>
    rcases h.followed _ ih with waiting | followed
    · cases waiting
    · exact followed _ jump

end Closing

/-! ## The closure -/

theorem snug_closure (m : EpsilonAutomaton) (S : BitSet) : BitSet.Snug S (m.closure S) :=
  S.snug_self.insertAll _

variable (hm : m.WellFormed)
include hm

theorem Closing.Chased.eq_closure {found : BitSet} (h : Chased m S ⟨found, []⟩) :
    found = m.closure S :=
  h.snug.eq (m.snug_closure S) fun t => by rw [h.contains_iff, mem_closure hm]

theorem closes_closure : ∀ {c : Closing}, c.Chased m S → m.Closes c (m.closure S)
  | ⟨found, []⟩, h => h.eq_closure hm ▸ .done
  | ⟨found, s :: stack⟩, h => .turn (closes_closure h.turn)
termination_by c => c.left m
decreasing_by
  have := Closing.left_turn hm found s stack
  omega

/-- The stack runs empty, and what is found then is the closure. -/
theorem closes_iff : m.Closes (.start S) T ↔ T = m.closure S := by
  have closes : m.Closes (.start S) (m.closure S) := closes_closure hm (Closing.chased_start S)
  constructor
  · exact fun h => h.unique closes
  · rintro rfl
    exact closes

/-- A set is its own closure exactly if no ε-edge leaves it. -/
theorem closure_eq_self_iff :
    m.closure S = S ↔ ∀ s t, S.contains s = true → m.Jump s t → S.contains t = true := by
  constructor
  · intro closed s t hs jump
    rw [← closed, mem_closure hm]
    exact ⟨s, hs, .single jump⟩
  · intro closed
    refine (m.snug_closure S).eq S.snug_self fun t => ?_
    rw [mem_closure hm]
    constructor
    · rintro ⟨s, hs, jumps⟩
      induction jumps with
      | refl => exact hs
      | tail _ jump ih => exact closed _ _ ih jump
    · exact fun ht => ⟨t, ht, .refl⟩

theorem closure_closure : m.closure (m.closure S) = m.closure S := by
  rw [closure_eq_self_iff hm]
  intro s t hs jump
  obtain ⟨r, hr, jumps⟩ := (mem_closure hm).1 hs
  exact (mem_closure hm).2 ⟨r, hr, jumps.tail jump⟩

theorem closure_union : m.closure (S ∪ T) = m.closure S ∪ m.closure T := by
  refine (m.snug_closure (S ∪ T)).eq ((m.snug_closure S).union (m.snug_closure T)) fun t => ?_
  simp only [BitSet.contains_union, Bool.or_eq_true, mem_closure hm, or_and_right, exists_or]

theorem isSubset_closure : S.isSubset (m.closure S) = true :=
  BitSet.isSubset_iff.2 fun s hs => (mem_closure hm).2 ⟨s, hs, .refl⟩

theorem closure_mono (h : S.isSubset T = true) : (m.closure S).isSubset (m.closure T) = true := by
  rw [BitSet.isSubset_iff] at h ⊢
  intro t ht
  obtain ⟨s, hs, jumps⟩ := (mem_closure hm).1 ht
  exact (mem_closure hm).2 ⟨s, h s hs, jumps⟩

omit hm

/-- In the automaton of any trees, a set is closed with a stack that runs empty, and its closure
holds exactly the states that ε-edges lead to. It contains the set, respects subsets and unions, and
is closed itself; and so is what a step enters. -/
theorem closure_ofChains (chains : List Chain) (S T : BitSet) (code : Nat) :
    let m := ofChains chains
    (∀ U, m.Closes (.start S) U ↔ U = m.closure S) ∧
    (∀ t, (m.closure S).contains t = true ↔
      ∃ s, S.contains s = true ∧ ReflTransGen m.Jump s t) ∧
    S.isSubset (m.closure S) = true ∧
    (S.isSubset T = true → (m.closure S).isSubset (m.closure T) = true) ∧
    m.closure (m.closure S) = m.closure S ∧
    m.closure (S ∪ T) = m.closure S ∪ m.closure T ∧
    m.closure (m.step (m.closure S) code) = m.step (m.closure S) code := by
  intro m
  have hm : m.WellFormed := wellFormed_ofChains chains
  exact ⟨fun U => closes_iff hm, fun t => mem_closure hm, isSubset_closure hm, closure_mono hm,
    closure_closure hm, closure_union hm, closure_closure hm⟩

/-- Two repetitions, one in the other, with states that jump to each other. -/
theorem closure_ofChains_cycle : ∃ m S T,
    m = ofChains [[.group [[.leaf (.singleton 97) ⟨0, none⟩]] ⟨0, none⟩]] ∧
      S = BitSet.ofList [3] ∧ T = BitSet.ofList [0, 3] ∧ m.Jump 2 3 ∧ m.Jump 3 2 ∧
      S.isSubset T = true ∧ m.Closes (.start S) (.ofList [1, 2, 3]) ∧
      (m.closure S).isSubset (m.closure T) = true ∧ m.step (m.closure S) 97 = m.closure S ∧
      m.closure (m.step (m.closure S) 97) = m.step (m.closure S) 97 := by
  refine ⟨_, _, _, rfl, rfl, rfl, mem_jumpTargets.1 (by decide +kernel),
    mem_jumpTargets.1 (by decide +kernel), by decide +kernel, ?_⟩
  obtain ⟨closes, _, _, mono, _, _, closed⟩ :=
    closure_ofChains [[.group [[.leaf (.singleton 97) ⟨0, none⟩]] ⟨0, none⟩]]
      (.ofList [3]) (.ofList [0, 3]) 97
  exact ⟨(closes _).2 (by decide +kernel), mono (by decide +kernel), by decide +kernel, closed⟩

end EpsilonAutomaton

end PatternGroups
