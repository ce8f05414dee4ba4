/-!
Stable sorting by insertion. A sorted list is sorted again in one pass.

Main statements:
- `Sorting.sort_perm`: sorting loses and doubles nothing;
- `Sorting.pairwise_sort`: no element is before a smaller one;
- `Sorting.sort_eq_self`: a sorted list stays as it is.
-/

namespace PatternGroups.Sorting

variable {α : Type} (le : α → α → Bool)

/-- Puts an element before the first that is not smaller. -/
def insert (a : α) : List α → List α
  | [] => [a]
  | b :: rest => if le a b then a :: b :: rest else b :: insert a rest

/-- Later elements are inserted first, so that equal elements keep their order. -/
def sort (l : List α) : List α := l.foldr (insert le) []

theorem insert_perm (a : α) (l : List α) : (insert le a l).Perm (a :: l) := by
  induction l with
  | nil => exact .refl _
  | cons b rest ih =>
    unfold insert
    split
    · exact .refl _
    · exact (ih.cons b).trans (.swap a b rest)

theorem sort_perm (l : List α) : (sort le l).Perm l := by
  induction l with
  | nil => exact .refl _
  | cons a rest ih => exact (insert_perm le a _).trans (ih.cons a)

variable {le}

theorem pairwise_insert (total : ∀ a b, le a b || le b a)
    (trans : ∀ a b c, le a b → le b c → le a c) {a : α} {l : List α}
    (h : l.Pairwise fun b c => le b c) : (insert le a l).Pairwise fun b c => le b c := by
  induction l with
  | nil => simp [insert]
  | cons b rest ih =>
    rw [List.pairwise_cons] at h
    unfold insert
    split
    · rename_i hab
      refine List.pairwise_cons.2 ⟨fun c hc => ?_, List.pairwise_cons.2 h⟩
      rcases List.mem_cons.1 hc with rfl | hc
      · exact hab
      · exact trans a b c hab (h.1 c hc)
    · rename_i hab
      refine List.pairwise_cons.2 ⟨fun c hc => ?_, ih h.2⟩
      rcases List.mem_cons.1 ((insert_perm le a rest).mem_iff.1 hc) with rfl | hc
      · simpa [hab] using total c b
      · exact h.1 c hc

theorem pairwise_sort (total : ∀ a b, le a b || le b a)
    (trans : ∀ a b c, le a b → le b c → le a c) (l : List α) :
    (sort le l).Pairwise fun a b => le a b := by
  induction l with
  | nil => exact .nil
  | cons a rest ih => exact pairwise_insert total trans ih

theorem sort_eq_self {l : List α} (h : l.Pairwise fun a b => le a b) : sort le l = l := by
  induction l with
  | nil => rfl
  | cons a rest ih =>
    rw [List.pairwise_cons] at h
    simp only [sort, List.foldr_cons] at ih ⊢
    rw [ih h.2]
    cases rest with
    | nil => rfl
    | cons b rest => simp [insert, h.1 b]

end PatternGroups.Sorting
