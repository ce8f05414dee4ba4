import PatternGroups.BitSet.Storage

/-!
Registers that hold sets of states, and changes of one register after the other. The changes say
nothing of what a set is, so that sets of several kinds can go through the same changes.
-/

namespace PatternGroups

/-- The operations that make sets of states. -/
structure SetOperations (σ : Type) where
  empty : (capacity : Nat) → σ
  insert : σ → State → σ
  remove : σ → State → σ
  clear : σ → σ
  union : σ → σ → σ
  inter : σ → σ → σ

/-- What can be asked of sets of states. -/
structure SetQueries (σ : Type) where
  capacity : σ → Nat
  contains : σ → State → Bool
  members : σ → List State
  size : σ → Nat
  isEmpty : σ → Bool
  intersects : σ → σ → Bool
  isSubset : σ → σ → Bool
  same : σ → σ → Bool

/-- What a register is to hold; the operand of a copy, a union or an intersection is the set of some
register. -/
inductive SetChange where
  | withCapacity (capacity : Nat)
  | singleton (s : State) (capacity : Nat)
  | ofList (states : List State)
  | copy (operand : Nat)
  | insert (s : State)
  | remove (s : State)
  | clear
  | union (operand : Nat)
  | inter (operand : Nat)

namespace SetOperations

variable {σ : Type} (ops : SetOperations σ)

/-- The set that a register holds after a change. -/
def changed (registers : Nat → σ) (r : Nat) : SetChange → σ
  | .withCapacity capacity => ops.empty capacity
  | .singleton s capacity => ops.insert (ops.empty capacity) s
  | .ofList states => states.foldl ops.insert (ops.empty 0)
  | .copy operand => registers operand
  | .insert s => ops.insert (registers r) s
  | .remove s => ops.remove (registers r) s
  | .clear => ops.clear (registers r)
  | .union operand => ops.union (registers r) (registers operand)
  | .inter operand => ops.inter (registers r) (registers operand)

def change (registers : Nat → σ) (request : Nat × SetChange) : Nat → σ :=
  fun r => if r = request.1 then ops.changed registers r request.2 else registers r

/-- The registers after changes; at first each holds a set without capacity. -/
def after (requests : List (Nat × SetChange)) : Nat → σ :=
  requests.foldl ops.change fun _ => ops.empty 0

end SetOperations

namespace BitSet

def operations : SetOperations BitSet where
  empty := empty
  insert := insert
  remove := remove
  clear := clear
  union := union
  inter := inter

def queries : SetQueries BitSet where
  capacity := capacity
  contains := contains
  members := members
  size := size
  isEmpty := isEmpty
  intersects := intersects
  isSubset := isSubset
  same S T := S == T

end BitSet

namespace BitStorage

variable {β : Type} (B : BitStorage β)

def operations : SetOperations β where
  empty := B.ofLength
  insert := B.insert
  remove := B.remove
  clear := B.clear
  union := B.unite
  inter := B.inter

def queries : SetQueries β where
  capacity := B.length
  contains := B.test
  members := B.ones
  size := B.count
  isEmpty := B.isClear
  intersects := B.intersects
  isSubset := B.isSubset
  same := B.same

end BitStorage

end PatternGroups
