/-!
Breadth-first search. Elements are listed in the order in which they are discovered, each once.
-/

namespace PatternGroups.Search

variable {σ : Type} [DecidableEq σ]

/-- The elements of a list that are not known yet, each at its first occurrence. -/
def fresh (known : List σ) : List σ → List σ
  | [] => []
  | s :: rest => if s ∈ known then fresh known rest else s :: fresh (s :: known) rest

/-- Visits the pending elements in turn, and discovers what each leads to, until none is pending.
Every element is visited at most once, so that a bound on the number of elements is a bound on the
visits. -/
def explore (next : σ → List σ) : (bound : Nat) → (known pending : List σ) → List σ
  | 0, known, _ => known
  | _, known, [] => known
  | bound + 1, known, s :: pending =>
    let new := fresh known (next s)
    explore next bound (known ++ new) (pending ++ new)

/-- Everything that some seed leads to, the seeds first. The bound is at least the number of such
elements. -/
def reach (next : σ → List σ) (bound : Nat) (seeds : List σ) : List σ :=
  explore next bound (fresh [] seeds) (fresh [] seeds)

theorem mem_fresh {known l : List σ} {s : σ} : s ∈ fresh known l ↔ s ∈ l ∧ s ∉ known := by
  induction l generalizing known with
  | nil => simp [fresh]
  | cons t rest ih =>
    unfold fresh
    split
    · rename_i h
      rw [ih, List.mem_cons]
      exact ⟨fun hs => ⟨.inr hs.1, hs.2⟩,
        fun hs => ⟨hs.1.elim (fun e => absurd (e ▸ h) hs.2) id, hs.2⟩⟩
    · rename_i h
      rw [List.mem_cons, List.mem_cons, ih, List.mem_cons, not_or]
      by_cases he : s = t
      · simp [he, h]
      · simp [he]

theorem fresh_nodup (known l : List σ) : (fresh known l).Nodup := by
  induction l generalizing known with
  | nil => simp [fresh]
  | cons t rest ih =>
    unfold fresh
    split
    · exact ih known
    · simp [List.nodup_cons, mem_fresh, ih]

end PatternGroups.Search
