import PatternGroups.Numbering
import PatternGroups.Text.Braced

/-!
Sets of states with a capacity: all members are below it. The capacity is part of the value, and
two sets with the same members but different capacities differ.

Main statements:
- `BitSet.ext_contains`: a set is determined by its capacity and its members;
- `contains_insert`, `contains_remove`, `contains_union`, `contains_inter` and the equations on
  `capacity`: each operation, as seen by both.
-/

namespace PatternGroups

/-- Bit `s` tells whether state `s` is a member. -/
structure BitSet where
  capacity : Nat
  bits : BitVec capacity
deriving DecidableEq

namespace BitSet

def empty (capacity : Nat) : BitSet := ⟨capacity, 0⟩

instance : Inhabited BitSet := ⟨empty 0⟩

def contains (S : BitSet) (s : State) : Bool :=
  S.bits.getLsbD s

/-- Adds a state. The capacity grows if the state needs it. -/
def insert (S : BitSet) (s : State) : BitSet :=
  let capacity := max S.capacity (s + 1)
  ⟨capacity, S.bits.setWidth capacity ||| .twoPow capacity s⟩

/-- Removes a state, and leaves the capacity as it is. -/
def remove (S : BitSet) (s : State) : BitSet :=
  ⟨S.capacity, S.bits &&& ~~~.twoPow S.capacity s⟩

def clear (S : BitSet) : BitSet := empty S.capacity

/-- The capacity of a union is that of the larger set. -/
def union (S T : BitSet) : BitSet :=
  let capacity := max S.capacity T.capacity
  ⟨capacity, S.bits.setWidth capacity ||| T.bits.setWidth capacity⟩

/-- The members that are also in `T`. The capacity stays that of the first set. -/
def inter (S T : BitSet) : BitSet :=
  ⟨S.capacity, S.bits &&& T.bits.setWidth S.capacity⟩

instance : Union BitSet := ⟨union⟩
instance : Inter BitSet := ⟨inter⟩

def singleton (s : State) (capacity : Nat) : BitSet :=
  (empty capacity).insert s

def insertAll (S : BitSet) (states : List State) : BitSet :=
  states.foldl insert S

/-- The set of the listed states, with no more capacity than they need. -/
def ofList (states : List State) : BitSet :=
  (empty 0).insertAll states

/-- The members in ascending order. -/
def members (S : BitSet) : List State :=
  (List.range S.capacity).filter S.contains

def size (S : BitSet) : Nat := S.members.length

def isEmpty (S : BitSet) : Bool := S.bits == 0

def intersects (S T : BitSet) : Bool := !(S ∩ T).isEmpty

/-- Whether every member is in `T`. Capacities do not matter here. -/
def isSubset (S T : BitSet) : Bool := S ∩ T == S

/-- The members between braces. -/
def text (S : BitSet) : String := Text.braced S.members

theorem lt_capacity_of_contains {S : BitSet} {s : State} (h : S.contains s = true) :
    s < S.capacity :=
  BitVec.lt_of_getLsbD h

theorem ext_contains {S T : BitSet} (hc : S.capacity = T.capacity)
    (h : ∀ s, S.contains s = T.contains s) : S = T := by
  obtain ⟨n, x⟩ := S
  obtain ⟨m, y⟩ := T
  cases hc
  exact congrArg (mk n) (BitVec.eq_of_getLsbD_eq fun s _ => h s)

@[simp] theorem mem_members {S : BitSet} {s : State} : s ∈ S.members ↔ S.contains s = true := by
  simp only [members, List.mem_filter, List.mem_range, and_iff_right_iff_imp]
  exact lt_capacity_of_contains

@[simp] theorem contains_empty (capacity : Nat) (s : State) :
    (empty capacity).contains s = false := by
  simp [contains, empty]

theorem contains_insert (S : BitSet) (s t : State) :
    (S.insert s).contains t = (S.contains t || decide (s = t)) := by
  rw [Bool.eq_iff_iff]
  simp only [contains, insert, BitVec.getLsbD_or, BitVec.getLsbD_setWidth, BitVec.getLsbD_twoPow,
    Bool.or_eq_true, Bool.and_eq_true, decide_eq_true_eq]
  constructor
  · rintro (h | h)
    · exact .inl h.2
    · exact .inr h.2
  · rintro (h | rfl)
    · exact .inl ⟨Nat.lt_of_lt_of_le (BitVec.lt_of_getLsbD h) (Nat.le_max_left _ _), h⟩
    · exact .inr ⟨Nat.lt_of_lt_of_le (Nat.lt_succ_self s) (Nat.le_max_right _ _), rfl⟩

theorem contains_remove (S : BitSet) (s t : State) :
    (S.remove s).contains t = (S.contains t && !decide (s = t)) := by
  simp only [contains, remove, BitVec.getLsbD_and, BitVec.getLsbD_not, BitVec.getLsbD_twoPow]
  by_cases h : t < S.capacity
  · by_cases hs : s = t
    · simp [← hs]
    · simp [h, hs]
  · simp [BitVec.getLsbD_of_ge _ _ (Nat.not_lt.mp h)]

@[simp] theorem contains_union (S T : BitSet) (s : State) :
    (S ∪ T).contains s = (S.contains s || T.contains s) := by
  rw [Bool.eq_iff_iff]
  simp only [contains, Union.union, union, BitVec.getLsbD_or, BitVec.getLsbD_setWidth,
    Bool.or_eq_true, Bool.and_eq_true, decide_eq_true_eq]
  constructor
  · exact Or.imp And.right And.right
  · exact Or.imp
      (fun h => ⟨Nat.lt_of_lt_of_le (BitVec.lt_of_getLsbD h) (Nat.le_max_left _ _), h⟩)
      (fun h => ⟨Nat.lt_of_lt_of_le (BitVec.lt_of_getLsbD h) (Nat.le_max_right _ _), h⟩)

@[simp] theorem contains_inter (S T : BitSet) (s : State) :
    (S ∩ T).contains s = (S.contains s && T.contains s) := by
  by_cases h : s < S.capacity
  · simp [contains, Inter.inter, inter, h]
  · simp [contains, Inter.inter, inter, BitVec.getLsbD_of_ge _ _ (Nat.not_lt.mp h)]

theorem isSubset_iff {S T : BitSet} :
    S.isSubset T = true ↔ ∀ s, S.contains s = true → T.contains s = true := by
  rw [isSubset, beq_iff_eq]
  constructor
  · intro same s hs
    rw [← same, contains_inter, Bool.and_eq_true] at hs
    exact hs.2
  · intro within
    refine ext_contains rfl fun s => ?_
    rw [contains_inter, Bool.and_eq_left_iff_imp]
    exact within s

@[simp] theorem capacity_insert (S : BitSet) (s : State) :
    (S.insert s).capacity = max S.capacity (s + 1) := rfl

@[simp] theorem capacity_union (S T : BitSet) :
    (S ∪ T).capacity = max S.capacity T.capacity := rfl

@[simp] theorem capacity_inter (S T : BitSet) : (S ∩ T).capacity = S.capacity := rfl

end BitSet

end PatternGroups
