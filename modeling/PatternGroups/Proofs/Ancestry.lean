import Mathlib.Data.Finset.Card
import Mathlib.Order.Bounds.Basic
import PatternGroups.Proofs.Tables

/-!
# What leads into a set

A set of states is expanded by the states one edge before it, until an expansion changes nothing. Sets
differ also if their capacities do, so that an expansion without a new state need not be the last: it
is if the set has the capacity of the tables. What comes of it are the states that lead into the set.

* `Expands`, `Expands.unique`: expansion without a bound on the passes;
* `Describes.expand?`, `lacking_lt`: what one expansion adds, and why there are only so many;
* `Describes.expands_expandUpTo`: the bound on the passes is never reached;
* `Expands.subset_of_backClosed`, `Expands.backClosed`: the least set that no edge enters;
* `backClosure_ofAutomaton`: what the closure of a set is.
-/

namespace PatternGroups.BitTables

open Automaton Relation

variable {m : Automaton} {t : BitTables} {S T U : BitSet}

/-- Expansion of a set until it changes nothing, not even the capacity. -/
inductive Expands (t : BitTables) : BitSet → BitSet → Prop where
  | done {S : BitSet} (same : t.expand? S = some S) : t.Expands S S
  | more {S T U : BitSet} (grown : t.expand? S = some T) (changed : T ≠ S)
      (rest : t.Expands T U) : t.Expands S U

theorem Expands.unique {V : BitSet} (h : t.Expands S U) (other : t.Expands S V) : U = V := by
  induction h with
  | done same =>
    cases other with
    | done _ => rfl
    | more grown changed _ => exact absurd (Option.some.inj (grown.symm.trans same)) changed
  | more grown changed _ ih =>
    cases other with
    | done same => exact absurd (Option.some.inj (grown.symm.trans same)) changed
    | more grown' _ rest =>
      obtain rfl := Option.some.inj (grown.symm.trans grown')
      exact ih rest

/-! ## One expansion -/

/-- The states of a set are those of the tables. -/
def Covers (t : BitTables) (S : BitSet) : Prop := ∀ s, S.contains s = true → s < t.size

/-- A set with the states one edge before it. -/
structure Grows (m : Automaton) (t : BitTables) (S T : BitSet) : Prop where
  capacity : T.capacity = max t.size S.capacity
  mem : ∀ s, T.contains s = true ↔ (∃ r, S.contains r = true ∧ m.Edge s r) ∨ S.contains s = true

theorem Describes.predecessors? (d : t.Describes m) (hS : t.Covers S) :
    ∃ T, t.predecessors? S = some T ∧ t.Holds T fun s => ∃ r, S.contains r = true ∧ m.Edge s r :=
  exists_unionOf? fun s hs => d.precede (hS s hs)

theorem Describes.expand? (d : t.Describes m) (hS : t.Covers S) :
    ∃ T, t.expand? S = some T ∧ Grows m t S T := by
  obtain ⟨T, hT, holds⟩ := d.predecessors? hS
  refine ⟨T ∪ S, by rw [BitTables.expand?, hT]; rfl, ?_, fun s => ?_⟩
  · rw [BitSet.capacity_union, holds.capacity]
  · rw [BitSet.contains_union, Bool.or_eq_true, holds.mem]

theorem Describes.grows (d : t.Describes m) (hS : t.Covers S) (h : t.expand? S = some T) :
    Grows m t S T := by
  obtain ⟨T', hT', grows⟩ := d.expand? hS
  obtain rfl := Option.some.inj (h.symm.trans hT')
  exact grows

namespace Grows

variable (h : Grows m t S T)
include h

theorem subset {s : State} (hs : S.contains s = true) : T.contains s = true := (h.mem s).2 (.inr hs)

theorem covers (d : t.Describes m) (hS : t.Covers S) : t.Covers T := by
  intro s hs
  rcases (h.mem s).1 hs with ⟨r, _, edge⟩ | hs
  · exact (d.within.edge edge).1
  · exact hS s hs

theorem exists_new (d : t.Describes m) (capacity : T.capacity = S.capacity) (changed : T ≠ S) :
    ∃ s < t.size, T.contains s = true ∧ S.contains s = false := by
  by_contra none
  apply changed
  apply BitSet.ext_contains capacity
  intro s
  rw [Bool.eq_iff_iff]
  refine ⟨fun new => ?_, h.subset⟩
  rcases (h.mem s).1 new with ⟨r, _, edge⟩ | hs
  · by_contra old
    exact none ⟨s, (d.within.edge edge).1, new, Bool.eq_false_iff.2 old⟩
  · exact hs

end Grows

/-! ## Passes -/

/-- How many states a set does not have, and one more if its capacity is too small for the tables. -/
def lacking (t : BitTables) (S : BitSet) : Nat :=
  ((Finset.range t.size).filter fun s => S.contains s = false).card +
    if S.capacity < t.size then 1 else 0

theorem lacking_le (t : BitTables) (S : BitSet) : t.lacking S ≤ t.size + 1 := by
  apply Nat.add_le_add
  · simpa using Finset.card_filter_le (Finset.range t.size) _
  · split <;> omega

/-- An expansion that changes a set adds a state, or makes room for all of them. -/
theorem lacking_lt (d : t.Describes m) (h : Grows m t S T) (changed : T ≠ S) :
    t.lacking T < t.lacking S := by
  have fewer : ((Finset.range t.size).filter fun s => T.contains s = false) ⊆
      (Finset.range t.size).filter fun s => S.contains s = false := by
    intro s hs
    simp only [Finset.mem_filter, ← Bool.not_eq_true] at hs ⊢
    exact ⟨hs.1, fun old => hs.2 (h.subset old)⟩
  have room : ¬T.capacity < t.size := by
    have := h.capacity
    omega
  unfold lacking
  rw [if_neg room]
  by_cases small : S.capacity < t.size
  · have := Finset.card_le_card fewer
    rw [if_pos small]
    omega
  · have capacity : T.capacity = S.capacity := by
      have := h.capacity
      omega
    obtain ⟨s, hs, new, old⟩ := h.exists_new d capacity changed
    have less := Finset.card_lt_card (Finset.ssubset_iff_subset_ne.2 ⟨fewer, fun same => by
      have member : s ∈ (Finset.range t.size).filter fun s => S.contains s = false := by
        simp [hs, old]
      rw [← same] at member
      simp [new] at member⟩)
    rw [if_neg small]
    omega

theorem Describes.expands_expandUpTo (d : t.Describes m) (hS : t.Covers S) {passes : Nat}
    (enough : t.lacking S < passes) : ∃ T, t.expandUpTo passes S = some T ∧ t.Expands S T := by
  induction passes generalizing S with
  | zero => omega
  | succ passes ih =>
    obtain ⟨T, hT, grows⟩ := d.expand? hS
    by_cases same : T = S
    · subst same
      refine ⟨T, ?_, .done hT⟩
      simp [expandUpTo, hT]
    · have less := lacking_lt d grows same
      obtain ⟨U, hU, rest⟩ := ih (grows.covers d hS) (by omega)
      refine ⟨U, ?_, .more hT same rest⟩
      simp [expandUpTo, hT, same, hU]

/-! ## Closed sets -/

/-- No edge enters a set of states from outside. -/
def BackClosed (m : Automaton) (P : Set State) : Prop := ∀ ⦃s r⦄, m.Edge s r → r ∈ P → s ∈ P

namespace Expands

variable (h : t.Expands S U) (d : t.Describes m) (hS : t.Covers S)
include h d hS

theorem subset {s : State} (hs : S.contains s = true) : U.contains s = true := by
  induction h with
  | done _ => exact hs
  | more grown _ _ ih =>
    have grows := d.grows hS grown
    exact ih (grows.covers d hS) (grows.subset hs)

theorem capacity : U.capacity = max S.capacity t.size := by
  induction h with
  | done same =>
    have := (d.grows hS same).capacity
    omega
  | more grown _ _ ih =>
    have grows := d.grows hS grown
    have := grows.capacity
    have := ih (grows.covers d hS)
    omega

/-- The last expansion has added nothing. -/
theorem backClosed : BackClosed m {s | U.contains s = true} := by
  induction h with
  | done same => exact fun s r edge hr => ((d.grows hS same).mem s).2 (.inl ⟨r, hr, edge⟩)
  | more grown _ _ ih => exact ih ((d.grows hS grown).covers d hS)

/-- Nothing is added that is not in every closed set around the first one. -/
theorem subset_of_backClosed {P : Set State} (closed : BackClosed m P)
    (inside : ∀ s, S.contains s = true → s ∈ P) : ∀ s, U.contains s = true → s ∈ P := by
  induction h with
  | done _ => exact inside
  | more grown _ _ ih =>
    have grows := d.grows hS grown
    refine ih (grows.covers d hS) fun s hs => ?_
    rcases (grows.mem s).1 hs with ⟨r, hr, edge⟩ | hs
    · exact closed edge (inside r hr)
    · exact inside s hs

/-- Every closed set around the first one has all that leads into that. -/
theorem mem_iff {s : State} :
    U.contains s = true ↔ ∃ r, S.contains r = true ∧ ReflTransGen m.Edge s r := by
  constructor
  · apply h.subset_of_backClosed d hS (P := {s | ∃ r, S.contains r = true ∧ ReflTransGen m.Edge s r})
    · rintro s r edge ⟨target, ht, path⟩
      exact ⟨target, ht, path.head edge⟩
    · exact fun s hs => ⟨s, hs, .refl⟩
  · rintro ⟨r, hr, path⟩
    induction path using ReflTransGen.head_induction_on with
    | refl => exact h.subset d hS hr
    | head edge _ ih => exact h.backClosed d hS edge ih

end Expands

theorem Describes.isBackClosed? (d : t.Describes m) (hS : t.Covers S) :
    ∃ closed, t.isBackClosed? S = some closed ∧
      (closed = true ↔ BackClosed m {s | S.contains s = true}) := by
  obtain ⟨T, hT, holds⟩ := d.predecessors? hS
  refine ⟨T.isSubset S, by rw [BitTables.isBackClosed?, hT]; rfl, ?_⟩
  rw [BitSet.isSubset_iff]
  constructor
  · exact fun within s r edge hr => within s ((holds.mem s).2 ⟨r, hr, edge⟩)
  · intro closed s hs
    obtain ⟨r, hr, edge⟩ := (holds.mem s).1 hs
    exact closed edge hr

/-- Let a set have no states but those of the tables, and any capacity. Expanded until that changes
nothing, it comes to one end. The states of its closure are those that lead to a state of the set by
any number of edges, which make the least set around it that no edge enters from outside; so the set
is closed itself exactly if its closure has no other state. -/
theorem backClosure_ofAutomaton (h : ofAutomaton? m = .ok t) (S : BitSet)
    (within : ∀ s, S.contains s = true → s < t.size) :
    ∃ T, t.backClosure? S = some T ∧ (∀ U, t.Expands S U ↔ U = T) ∧
      T.capacity = max S.capacity t.size ∧
      (∀ s, T.contains s = true ↔ ∃ r, S.contains r = true ∧ ReflTransGen m.Edge s r) ∧
      IsLeast {P : Set State | (∀ s, S.contains s = true → s ∈ P) ∧ BackClosed m P}
        {s | T.contains s = true} ∧
      ∃ closed, t.isBackClosed? S = some closed ∧
        (closed = true ↔ ∀ s, T.contains s = true → S.contains s = true) := by
  have d := describes_ofAutomaton h
  have passes := t.lacking_le S
  obtain ⟨T, closure, expands⟩ : ∃ T, t.backClosure? S = some T ∧ t.Expands S T :=
    d.expands_expandUpTo within (by omega)
  obtain ⟨closed, test, closed_iff⟩ := d.isBackClosed? within
  have subset : ∀ s, S.contains s = true → T.contains s = true :=
    fun s => expands.subset d within
  have entered := expands.backClosed d within
  refine ⟨T, closure, fun U => ⟨fun other => other.unique expands, ?_⟩,
    expands.capacity d within, fun s => expands.mem_iff d within, ⟨⟨subset, entered⟩, ?_⟩,
    closed, test, closed_iff.trans ⟨?_, ?_⟩⟩
  · rintro rfl
    exact expands
  · rintro P ⟨inside, closed⟩
    exact expands.subset_of_backClosed d within closed inside
  · exact fun closed => expands.subset_of_backClosed d within closed fun s hs => hs
  · intro all s r edge hr
    exact all s (entered edge (subset r hr))

/-- States 1 and 2 lead into each other, and 0 into both. A set of 1 with less capacity than the tables
grows to theirs. -/
theorem backClosure_ofAutomaton_cycle :
    ∃ m t, m = ⟨.ofCells [⟨0, 0, .full⟩, ⟨0, 1, .singleton 97⟩, ⟨1, 2, .singleton 98⟩,
        ⟨2, 1, .singleton 97⟩], .ofCells [⟨2, 1, ()⟩], 1⟩ ∧
      ofAutomaton? m = .ok t ∧ (BitSet.ofList [1]).capacity = 2 ∧
      (∀ s, (BitSet.ofList [1]).contains s = true → s < t.size) ∧
      t.isBackClosed? (.ofList [1]) = some false ∧
      ∃ T, t.backClosure? (.ofList [1]) = some T ∧ t.Expands (.ofList [1]) T ∧ T.capacity = 3 ∧
        T.contains 2 = true ∧ T.contains 0 = true := by
  have made : (ofAutomaton? ⟨.ofCells [⟨0, 0, .full⟩, ⟨0, 1, .singleton 97⟩,
      ⟨1, 2, .singleton 98⟩, ⟨2, 1, .singleton 97⟩], .ofCells [⟨2, 1, ()⟩], 1⟩).toOption.map
        (·.size) = some 3 := by decide +kernel
  cases h : ofAutomaton? ⟨.ofCells [⟨0, 0, .full⟩, ⟨0, 1, .singleton 97⟩,
      ⟨1, 2, .singleton 98⟩, ⟨2, 1, .singleton 97⟩], .ofCells [⟨2, 1, ()⟩], 1⟩ with
  | error refusal => rw [h] at made; cases made
  | ok t =>
    rw [h] at made
    have size : t.size = 3 := Option.some.inj made
    have within : ∀ s, (BitSet.ofList [1]).contains s = true → s < t.size := by
      intro s hs
      have mem : s ∈ [1] := by simpa using BitSet.contains_insertAll.1 hs
      rw [List.mem_singleton.1 mem, size]
      decide
    obtain ⟨T, closure, expands, capacity, leads, _, closed, test, closed_iff⟩ :=
      backClosure_ofAutomaton h (.ofList [1]) within
    have zero : T.contains 0 = true :=
      (leads 0).2 ⟨1, by decide, .single ⟨.singleton 97, by decide +kernel⟩⟩
    have two : T.contains 2 = true :=
      (leads 2).2 ⟨1, by decide, .single ⟨.singleton 97, by decide +kernel⟩⟩
    have entered : closed = false := by
      rw [Bool.eq_false_iff]
      intro all
      exact absurd (closed_iff.1 all 0 zero) (by decide)
    refine ⟨_, t, rfl, h, rfl, within, entered ▸ test, T, closure, (expands T).2 rfl, ?_, two, zero⟩
    rw [capacity, size]
    rfl

end PatternGroups.BitTables
