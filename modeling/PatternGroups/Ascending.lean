/-!
Finite sets of numbers as ascending lists without repetition.

Main statements:
- `Ascending.mem_ofList`: the set of a list has the same members;
- `Ascending.pairwise_ofList`: it is strictly ascending.
-/

namespace PatternGroups.Ascending

def insert (n : Nat) : List Nat → List Nat
  | [] => [n]
  | m :: rest => if n < m then n :: m :: rest else if n = m then m :: rest else m :: insert n rest

def ofList (l : List Nat) : List Nat := l.foldr insert []

theorem mem_insert {n m : Nat} {l : List Nat} : m ∈ insert n l ↔ m = n ∨ m ∈ l := by
  induction l with
  | nil => simp [insert]
  | cons k rest ih =>
    unfold insert
    split
    · simp
    · split
      · rename_i h
        simp [h]
      · simp only [List.mem_cons, ih, or_left_comm]

@[simp] theorem mem_ofList {n : Nat} {l : List Nat} : n ∈ ofList l ↔ n ∈ l := by
  induction l with
  | nil => simp [ofList]
  | cons m rest ih =>
    simp only [ofList, List.foldr_cons, mem_insert, List.mem_cons] at ih ⊢
    rw [ih]

theorem pairwise_insert {n : Nat} {l : List Nat} (h : l.Pairwise (· < ·)) :
    (insert n l).Pairwise (· < ·) := by
  induction l with
  | nil => simp [insert]
  | cons k rest ih =>
    rw [List.pairwise_cons] at h
    unfold insert
    split
    · rename_i hlt
      refine List.pairwise_cons.2 ⟨fun m hm => ?_, List.pairwise_cons.2 h⟩
      rcases List.mem_cons.1 hm with rfl | hm
      · exact hlt
      · exact Nat.lt_trans hlt (h.1 m hm)
    · split
      · exact List.pairwise_cons.2 h
      · refine List.pairwise_cons.2 ⟨fun m hm => ?_, ih h.2⟩
        rcases mem_insert.1 hm with rfl | hm
        · omega
        · exact h.1 m hm

theorem pairwise_ofList (l : List Nat) : (ofList l).Pairwise (· < ·) := by
  induction l with
  | nil => exact .nil
  | cons m rest ih => exact pairwise_insert ih

end PatternGroups.Ascending
