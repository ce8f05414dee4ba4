import PatternGroups.BitSet

/-!
Sets of states over a storage for bits. A storage has a length, and a bit is set only below it: a
set of states makes its storage grow first. `BitSet.storage` is the storage that a `BitSet` is itself.
-/

namespace PatternGroups

/-- A storage for bits, as a library provides it. -/
structure BitStorage (β : Type) where
  /-- A number of bits, all disabled. -/
  ofLength : Nat → β
  length : β → Nat
  test : β → Nat → Bool
  /-- The same bits, and disabled ones up to a length. -/
  grow : β → Nat → β
  /-- Enables a bit below the length. -/
  enable : β → Nat → β
  /-- Enables or disables a bit below the length. -/
  assign : β → Nat → Bool → β
  clear : β → β
  union : β → β → β
  inter : β → β → β
  isClear : β → Bool
  /-- How many bits are enabled. -/
  count : β → Nat
  /-- The bits that are enabled. -/
  ones : β → List Nat
  isDisjoint : β → β → Bool
  isSubset : β → β → Bool
  same : β → β → Bool

namespace BitStorage

variable {β : Type} (B : BitStorage β)

/-- Adds a state, after the storage has grown if the state needs it. -/
def insert (b : β) (s : State) : β :=
  B.enable (if B.length b ≤ s then B.grow b (s + 1) else b) s

/-- Removes a state. One beyond the length is no member. -/
def remove (b : β) (s : State) : β :=
  if s < B.length b then B.assign b s false else b

/-- The union with a set, after the storage has grown if that of the other set is longer. -/
def unite (b c : β) : β :=
  B.union (if B.length b < B.length c then B.grow b (B.length c) else b) c

def intersects (b c : β) : Bool := !B.isDisjoint b c

end BitStorage

namespace BitSet

/-- Bits with a length are sets with a capacity. -/
def storage : BitStorage BitSet where
  ofLength := empty
  length := capacity
  test := contains
  grow S length := S ∪ empty length
  enable := insert
  assign S s enabled := if enabled then S.insert s else S.remove s
  clear := clear
  union := union
  inter := inter
  isClear := isEmpty
  count := size
  ones := members
  isDisjoint S T := (S ∩ T).isEmpty
  isSubset := isSubset
  same S T := S == T

end BitSet

end PatternGroups
