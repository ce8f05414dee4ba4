import Mathlib.Data.Finset.Sort
import PatternGroups.BitSet.Registers

/-!
# Sets of states and their capacities

A set of states is told by a capacity and by its members, which are below it. Insertions and unions
may raise the capacity, and nothing else changes it. This holds of sets over any storage for bits
that does what is documented of it, and of bit sets, which are such a storage themselves.

* `Extent`: a capacity, and states below it;
* `Documented`: what is documented of a storage;
* `Documented.insert`, `Documented.remove`, `Documented.unite`: when a storage grows;
* `Simulates.after`: what every operation keeps, any changes of registers keep;
* `operations_storage`, `queries_storage`: bit sets, as sets over themselves;
* `described_after`: sets after any changes, and what is answered of them.
-/

namespace PatternGroups

/-! ## Extents -/

/-- A capacity, and states below it. -/
structure Extent where
  capacity : Nat
  members : Finset State
  below : ∀ s ∈ members, s < capacity

namespace Extent

/-- Room for no state but the first ones, and none of them. -/
def empty (capacity : Nat) : Extent := ⟨capacity, ∅, by simp⟩

/-- One state more, and the capacity that it needs. -/
def insert (e : Extent) (s : State) : Extent where
  capacity := max e.capacity (s + 1)
  members := Insert.insert s e.members
  below t ht := by
    rcases Finset.mem_insert.1 ht with rfl | ht
    · exact Nat.le_max_right _ _
    · exact Nat.lt_of_lt_of_le (e.below t ht) (Nat.le_max_left _ _)

def remove (e : Extent) (s : State) : Extent where
  capacity := e.capacity
  members := e.members.erase s
  below t ht := e.below t (Finset.mem_of_mem_erase ht)

def union (e f : Extent) : Extent where
  capacity := max e.capacity f.capacity
  members := e.members ∪ f.members
  below t ht := by
    rcases Finset.mem_union.1 ht with ht | ht
    · exact Nat.lt_of_lt_of_le (e.below t ht) (Nat.le_max_left _ _)
    · exact Nat.lt_of_lt_of_le (f.below t ht) (Nat.le_max_right _ _)

def inter (e f : Extent) : Extent where
  capacity := e.capacity
  members := e.members ∩ f.members
  below t ht := e.below t (Finset.mem_of_mem_inter_left ht)

def operations : SetOperations Extent where
  empty := empty
  insert := insert
  remove := remove
  clear e := empty e.capacity
  union := union
  inter := inter

end Extent

namespace SetQueries

variable {σ : Type} (Q : SetQueries σ)

/-- What is answered of a set tells its extent. -/
structure Tells (x : σ) (e : Extent) : Prop where
  capacity : Q.capacity x = e.capacity
  contains : ∀ s, Q.contains x s = true ↔ s ∈ e.members
  below : ∀ s, Q.contains x s = true → s < Q.capacity x
  members : Q.members x = e.members.sort
  size : Q.size x = e.members.card
  isEmpty : Q.isEmpty x = true ↔ e.members = ∅

/-- What is answered of two sets is true of their extents. -/
structure Compares (x y : σ) (e f : Extent) : Prop where
  intersects : Q.intersects x y = true ↔ (e.members ∩ f.members).Nonempty
  isSubset : Q.isSubset x y = true ↔ e.members ⊆ f.members
  same : Q.same x y = true ↔ e.members = f.members ∧ e.capacity = f.capacity

end SetQueries

/-! ## Registers -/

namespace SetOperations

variable {σ τ : Type} {ops : SetOperations σ} {ops' : SetOperations τ} {R : σ → τ → Prop}

/-- Every operation makes corresponding sets from corresponding ones. -/
structure Simulates (ops : SetOperations σ) (ops' : SetOperations τ) (R : σ → τ → Prop) :
    Prop where
  empty : ∀ capacity, R (ops.empty capacity) (ops'.empty capacity)
  insert : ∀ {x y}, R x y → ∀ s, R (ops.insert x s) (ops'.insert y s)
  remove : ∀ {x y}, R x y → ∀ s, R (ops.remove x s) (ops'.remove y s)
  clear : ∀ {x y}, R x y → R (ops.clear x) (ops'.clear y)
  union : ∀ {x y x' y'}, R x y → R x' y' → R (ops.union x x') (ops'.union y y')
  inter : ∀ {x y x' y'}, R x y → R x' y' → R (ops.inter x x') (ops'.inter y y')

namespace Simulates

variable (h : ops.Simulates ops' R)
include h

theorem insertAll (states : List State) {x : σ} {y : τ} (hxy : R x y) :
    R (states.foldl ops.insert x) (states.foldl ops'.insert y) := by
  induction states generalizing x y with
  | nil => exact hxy
  | cons s rest ih => exact ih (h.insert hxy s)

theorem changed {registers : Nat → σ} {registers' : Nat → τ}
    (hr : ∀ r, R (registers r) (registers' r)) (r : Nat) (change : SetChange) :
    R (ops.changed registers r change) (ops'.changed registers' r change) := by
  cases change with
  | withCapacity capacity => exact h.empty capacity
  | singleton s capacity => exact h.insert (h.empty capacity) s
  | ofList states => exact h.insertAll states (h.empty 0)
  | copy operand => exact hr operand
  | insert s => exact h.insert (hr r) s
  | remove s => exact h.remove (hr r) s
  | clear => exact h.clear (hr r)
  | union operand => exact h.union (hr r) (hr operand)
  | inter operand => exact h.inter (hr r) (hr operand)

theorem change {registers : Nat → σ} {registers' : Nat → τ}
    (hr : ∀ r, R (registers r) (registers' r)) (request : Nat × SetChange) (r : Nat) :
    R (ops.change registers request r) (ops'.change registers' request r) := by
  unfold SetOperations.change
  split
  · exact h.changed hr r request.2
  · exact hr r

/-- Registers that correspond go on to correspond. -/
theorem after (requests : List (Nat × SetChange)) (r : Nat) :
    R (ops.after requests r) (ops'.after requests r) := by
  suffices run : ∀ {registers : Nat → σ} {registers' : Nat → τ},
      (∀ r, R (registers r) (registers' r)) →
      ∀ r, R (requests.foldl ops.change registers r) (requests.foldl ops'.change registers' r) from
    run (fun _ => h.empty 0) r
  induction requests with
  | nil => exact id
  | cons request rest ih => exact fun hr => ih (h.change hr request)

end Simulates

end SetOperations

/-! ## Storage -/

namespace BitStorage

variable {β : Type} {B : BitStorage β} {b c : β} {e f : Extent}

/-- A storage has a length, and some bits are enabled. -/
structure Reads (B : BitStorage β) (b : β) (length : Nat) (bits : Nat → Bool) : Prop where
  length : B.length b = length
  test : ∀ i, B.test b i = bits i

/-- What is documented of a storage. A bit is enabled or disabled only below the length, and a union
is documented only for a storage that is no shorter than the other. -/
structure Documented (B : BitStorage β) : Prop where
  lt_length : ∀ {b i}, B.test b i = true → i < B.length b
  ofLength : ∀ n, B.Reads (B.ofLength n) n fun _ => false
  grow : ∀ {b n}, B.length b ≤ n → B.Reads (B.grow b n) n (B.test b)
  enable : ∀ {b i}, i < B.length b →
    B.Reads (B.enable b i) (B.length b) fun j => B.test b j || decide (i = j)
  assign : ∀ {b i}, i < B.length b → ∀ enabled,
    B.Reads (B.assign b i enabled) (B.length b) fun j => if i = j then enabled else B.test b j
  clear : ∀ b, B.Reads (B.clear b) (B.length b) fun _ => false
  union : ∀ {b c}, B.length c ≤ B.length b →
    B.Reads (B.union b c) (B.length b) fun i => B.test b i || B.test c i
  inter : ∀ b c, B.Reads (B.inter b c) (B.length b) fun i => B.test b i && B.test c i
  isClear_iff : ∀ {b}, B.isClear b = true ↔ ∀ i, B.test b i = false
  mem_ones : ∀ {b i}, i ∈ B.ones b ↔ B.test b i = true
  ones_ascend : ∀ b, (B.ones b).Pairwise (· < ·)
  count_eq : ∀ b, B.count b = (B.ones b).length
  isDisjoint_iff : ∀ {b c}, B.isDisjoint b c = true ↔ ∀ i, B.test b i = true → B.test c i = false
  isSubset_iff : ∀ {b c}, B.isSubset b c = true ↔ ∀ i, B.test b i = true → B.test c i = true
  same_iff : ∀ {b c}, B.same b c = true ↔ B.length b = B.length c ∧ ∀ i, B.test b i = B.test c i

/-- A storage has the length and the bits of an extent. -/
def Holds (B : BitStorage β) (b : β) (e : Extent) : Prop :=
  B.Reads b e.capacity fun s => decide (s ∈ e.members)

theorem Holds.test_iff (h : B.Holds b e) {s : State} : B.test b s = true ↔ s ∈ e.members := by
  rw [h.test, decide_eq_true_eq]

namespace Documented

variable (h : B.Documented)
include h

/-- Where a state has no room, the storage grows by what is missing. -/
theorem insert (b : β) (s : State) : B.Reads (B.insert b s) (max (B.length b) (s + 1))
    fun j => B.test b j || decide (s = j) := by
  unfold BitStorage.insert
  split
  · rename_i short
    have grown := h.grow (Nat.le_succ_of_le short)
    have enabled := h.enable (grown.length ▸ Nat.lt_succ_self s)
    refine ⟨?_, fun j => by rw [enabled.test, grown.test]⟩
    rw [enabled.length, grown.length]
    omega
  · have enabled := h.enable (b := b) (i := s) (by omega)
    refine ⟨?_, enabled.test⟩
    rw [enabled.length]
    omega

theorem remove (b : β) (s : State) : B.Reads (B.remove b s) (B.length b)
    fun j => B.test b j && decide (s ≠ j) := by
  unfold BitStorage.remove
  split
  · rename_i inside
    have assigned := h.assign inside false
    refine ⟨assigned.length, fun j => ?_⟩
    rw [assigned.test]
    by_cases hj : s = j <;> simp [hj]
  · rename_i outside
    refine ⟨rfl, fun j => ?_⟩
    by_cases hj : s = j
    · have none : B.test b j = false := by
        rw [Bool.eq_false_iff]
        exact fun some => outside (hj ▸ h.lt_length some)
      simp [none]
    · simp [hj]

theorem unite (b c : β) : B.Reads (B.unite b c) (max (B.length b) (B.length c))
    fun i => B.test b i || B.test c i := by
  unfold BitStorage.unite
  split
  · rename_i short
    have grown := h.grow (Nat.le_of_lt short)
    have joined := h.union (Nat.le_of_eq grown.length.symm)
    refine ⟨?_, fun i => by rw [joined.test, grown.test]⟩
    rw [joined.length, grown.length]
    omega
  · have joined := h.union (b := b) (c := c) (by omega)
    refine ⟨?_, joined.test⟩
    rw [joined.length]
    omega

theorem holds_insert (he : B.Holds b e) (s : State) : B.Holds (B.insert b s) (e.insert s) := by
  have reads := h.insert b s
  refine ⟨reads.length.trans (by rw [he.length]; rfl), fun j => ?_⟩
  rw [reads.test, he.test, ← Bool.decide_or, decide_eq_decide, Extent.insert, Finset.mem_insert,
    or_comm, eq_comm]

theorem holds_remove (he : B.Holds b e) (s : State) : B.Holds (B.remove b s) (e.remove s) := by
  have reads := h.remove b s
  refine ⟨reads.length.trans he.length, fun j => ?_⟩
  rw [reads.test, he.test, ← Bool.decide_and, decide_eq_decide, Extent.remove, Finset.mem_erase,
    and_comm, ne_comm]

theorem holds_unite (he : B.Holds b e) (hf : B.Holds c f) :
    B.Holds (B.unite b c) (e.union f) := by
  have reads := h.unite b c
  refine ⟨reads.length.trans (by rw [he.length, hf.length]; rfl), fun j => ?_⟩
  rw [reads.test, he.test, hf.test, ← Bool.decide_or, decide_eq_decide, Extent.union,
    Finset.mem_union]

theorem holds_inter (he : B.Holds b e) (hf : B.Holds c f) :
    B.Holds (B.inter b c) (e.inter f) := by
  have reads := h.inter b c
  refine ⟨reads.length.trans he.length, fun j => ?_⟩
  rw [reads.test, he.test, hf.test, ← Bool.decide_and, decide_eq_decide, Extent.inter,
    Finset.mem_inter]

theorem holds_clear (he : B.Holds b e) : B.Holds (B.clear b) (.empty e.capacity) := by
  have reads := h.clear b
  exact ⟨reads.length.trans he.length, reads.test⟩

theorem simulates : B.operations.Simulates Extent.operations B.Holds where
  empty n := h.ofLength n
  insert := h.holds_insert
  remove := h.holds_remove
  clear := h.holds_clear
  union := h.holds_unite
  inter := h.holds_inter

theorem ones_eq (he : B.Holds b e) : B.ones b = e.members.sort := by
  have ascend := h.ones_ascend b
  have members : (B.ones b).toFinset = e.members := by
    ext s
    rw [List.mem_toFinset, h.mem_ones, he.test_iff]
  have nodup : (B.ones b).Nodup := ascend.imp Nat.ne_of_lt
  rw [← members, (List.toFinset_sort _ nodup).2 (ascend.imp Nat.le_of_lt)]

theorem tells (he : B.Holds b e) : B.queries.Tells b e where
  capacity := he.length
  contains _ := he.test_iff
  below _ := h.lt_length
  members := h.ones_eq he
  size := (h.count_eq b).trans (by rw [h.ones_eq he, Finset.length_sort])
  isEmpty := by
    have clear : B.isClear b = true ↔ ∀ s, s ∉ e.members := by simp [h.isClear_iff, he.test]
    exact clear.trans Finset.eq_empty_iff_forall_notMem.symm

theorem compares (he : B.Holds b e) (hf : B.Holds c f) : B.queries.Compares b c e f where
  intersects := by
    have disjoint : B.isDisjoint b c = true ↔ Disjoint e.members f.members := by
      simp [h.isDisjoint_iff, he.test, hf.test, Finset.disjoint_left]
    rw [← Finset.not_disjoint_iff_nonempty_inter, ← disjoint]
    simp [queries, BitStorage.intersects]
  isSubset := by
    have subset : B.isSubset b c = true ↔ e.members ⊆ f.members := by
      simp [h.isSubset_iff, he.test, hf.test, Finset.subset_iff]
    exact subset
  same := by
    have same : B.same b c = true ↔ e.members = f.members ∧ e.capacity = f.capacity := by
      rw [h.same_iff, he.length, hf.length, and_comm, Finset.ext_iff]
      simp only [he.test, hf.test, decide_eq_decide]
    exact same

end Documented

end BitStorage

/-! ## Bit sets -/

namespace BitSet

variable {S T : BitSet}

theorem isEmpty_iff : S.isEmpty = true ↔ ∀ s, S.contains s = false := by
  rw [isEmpty, beq_iff_eq]
  constructor
  · intro none s
    rw [contains, none]
    exact BitVec.getLsbD_zero
  · intro none
    exact BitVec.eq_of_getLsbD_eq fun s _ => (none s).trans BitVec.getLsbD_zero.symm

theorem pairwise_members (S : BitSet) : S.members.Pairwise (· < ·) :=
  (List.pairwise_lt_range).filter _

theorem eq_iff : S = T ↔ S.capacity = T.capacity ∧ ∀ s, S.contains s = T.contains s := by
  constructor
  · rintro rfl
    exact ⟨rfl, fun _ => rfl⟩
  · exact fun same => ext_contains same.1 same.2

theorem documented_storage : storage.Documented where
  lt_length := lt_capacity_of_contains
  ofLength n := ⟨rfl, contains_empty n⟩
  grow {S n} short := ⟨Nat.max_eq_right short, fun i => by simp [storage]⟩
  enable {S i} inside := ⟨Nat.max_eq_left inside, S.contains_insert i⟩
  assign {S i} inside enabled := by
    cases enabled with
    | true =>
      refine ⟨Nat.max_eq_left inside, fun j => (S.contains_insert i j).trans ?_⟩
      by_cases hj : i = j <;> simp [hj, storage]
    | false =>
      refine ⟨rfl, fun j => (S.contains_remove i j).trans ?_⟩
      by_cases hj : i = j <;> simp [hj, storage]
  clear S := ⟨rfl, contains_empty _⟩
  union {S T} short := ⟨Nat.max_eq_left short, S.contains_union T⟩
  inter S T := ⟨rfl, S.contains_inter T⟩
  isClear_iff := isEmpty_iff
  mem_ones := mem_members
  ones_ascend := pairwise_members
  count_eq S := rfl
  isDisjoint_iff {S T} := by
    refine isEmpty_iff.trans (forall_congr' fun i => ?_)
    simp [storage]
  isSubset_iff := isSubset_iff
  same_iff := beq_iff_eq.trans eq_iff

theorem insert_storage (S : BitSet) (s : State) : storage.insert S s = S.insert s := by
  have reads := documented_storage.insert S s
  exact ext_contains reads.length fun t => (reads.test t).trans (S.contains_insert s t).symm

theorem remove_storage (S : BitSet) (s : State) : storage.remove S s = S.remove s := by
  have reads := documented_storage.remove S s
  refine ext_contains reads.length fun t => (reads.test t).trans ?_
  rw [contains_remove, decide_not]
  rfl

theorem unite_storage (S T : BitSet) : storage.unite S T = S.union T := by
  have reads := documented_storage.unite S T
  exact ext_contains reads.length fun t => (reads.test t).trans (S.contains_union T t).symm

/-- Bit sets are sets over themselves. -/
theorem operations_storage : storage.operations = operations := by
  have insert : storage.insert = BitSet.insert := funext₂ insert_storage
  have remove : storage.remove = BitSet.remove := funext₂ remove_storage
  have union : storage.unite = BitSet.union := funext₂ unite_storage
  rw [BitStorage.operations, insert, remove, union]
  rfl

theorem queries_storage : storage.queries = queries := rfl

/-- Let sets be kept in registers and changed in any way, and let extents go through the same
changes. Then what is answered of each set, and of each two, is told by the extents: by the capacity,
which an insertion raises to what the state needs and a union to that of the other set, and by the
members, which are below it. This holds of sets over any storage that does what is documented, and of
bit sets. -/
theorem described_after {β : Type} (B : BitStorage β) (documented : B.Documented)
    (requests : List (Nat × SetChange)) (r q : Nat) :
    let sets := B.operations.after requests
    let bitSets := operations.after requests
    let extents := Extent.operations.after requests
    B.queries.Tells (sets r) (extents r) ∧
    B.queries.Compares (sets r) (sets q) (extents r) (extents q) ∧
    queries.Tells (bitSets r) (extents r) ∧
    queries.Compares (bitSets r) (bitSets q) (extents r) (extents q) := by
  have sets := documented.simulates.after requests
  have bitSets := documented_storage.simulates.after requests
  rw [operations_storage] at bitSets
  have tells := documented_storage.tells (bitSets r)
  have compares := documented_storage.compares (bitSets r) (bitSets q)
  rw [queries_storage] at tells compares
  exact ⟨documented.tells (sets r), documented.compares (sets r) (sets q), tells, compares⟩

/-- Two sets of one capacity: one grows by a union and an insertion, and the other by the insertion
of a state that is removed again. -/
theorem described_after_grown : ∃ (requests : List (Nat × SetChange)) (e f : Extent),
    requests = [(0, .singleton 1 6), (1, .ofList [5, 3]), (0, .inter 1), (2, .copy 1), (0, .union 2),
      (0, .insert 40), (0, .remove 3), (1, .insert 40), (1, .remove 40)] ∧ storage.Documented ∧
    e = Extent.operations.after requests 0 ∧ f = Extent.operations.after requests 1 ∧
    e.capacity = 41 ∧ e.members = {5, 40} ∧ f.capacity = 41 ∧ f.members = {3, 5} ∧
    storage.queries.Tells (storage.operations.after requests 0) e ∧
    storage.queries.Compares (storage.operations.after requests 0)
      (storage.operations.after requests 1) e f ∧
    queries.intersects (operations.after requests 0) (operations.after requests 1) = true := by
  refine ⟨_, _, _, rfl, documented_storage, rfl, rfl, rfl, by decide, rfl, by decide, ?_⟩
  obtain ⟨tells, compares, _, bitSets⟩ := described_after storage documented_storage
    [(0, .singleton 1 6), (1, .ofList [5, 3]), (0, .inter 1), (2, .copy 1), (0, .union 2),
      (0, .insert 40), (0, .remove 3), (1, .insert 40), (1, .remove 40)] 0 1
  exact ⟨tells, compares, bitSets.intersects.2 ⟨5, by decide⟩⟩

end BitSet

end PatternGroups
