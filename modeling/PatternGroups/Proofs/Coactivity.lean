import Mathlib.Data.List.Induction
import PatternGroups.Proofs.Merging

/-!
# States that are active together

Two states entered by the same edges are active after the same symbols: whatever enters one enters
the other, from the same state or from the one that counts as it, and that is active, too. Only
state 0 is different, as it is active before the first symbol.

* `mem_activeAfter_iff_of_sameIncoming`: activity, by induction on the symbols read;
* `coactive_mergeSameIncoming`: a merge of such states changes no run.
-/

namespace PatternGroups.Automaton

variable {m n : Automaton} {n₁ n₂ : State}

/-- The states that are active when some symbols have been read from state 0 on. -/
def activeAfter (m : Automaton) (codes : List Nat) : List State :=
  codes.foldl m.step [0]

theorem mem_activeAfter_nil {t : State} : t ∈ m.activeAfter [] ↔ t = 0 := List.mem_singleton

theorem mem_activeAfter_concat {codes : List Nat} {code : Nat} {t : State} :
    t ∈ m.activeAfter (codes ++ [code]) ↔
      ∃ s ∈ m.activeAfter codes, m.edges.Leads s code t := by
  rw [activeAfter, List.foldl_append]
  exact mem_step

/-- States entered by the same edges are entered together from active states, as long as a state
is active whenever the one that counts as it is. -/
theorem entered_iff_of_sameIncoming (hne : n₁ ≠ n₂) (h : m.sameIncoming n₁ n₂ = true)
    {active : List State} (together : n₁ ∈ active ↔ n₂ ∈ active) {code : Nat} :
    (∃ s ∈ active, m.edges.Leads s code n₁) ↔ ∃ s ∈ active, m.edges.Leads s code n₂ := by
  have closed {s r : State} (same : fold n₁ n₂ r = fold n₁ n₂ s) (hs : s ∈ active) :
      r ∈ active := by
    rcases fold_eq_fold same with rfl | ⟨rfl, rfl⟩ | ⟨rfl, rfl⟩
    · exact hs
    · exact together.2 hs
    · exact together.1 hs
  constructor
  · rintro ⟨s, hs, move⟩
    obtain ⟨r, same, move'⟩ := (leads_of_sameIncoming hne h).1 ⟨s, rfl, move⟩
    exact ⟨r, closed same hs, move'⟩
  · rintro ⟨s, hs, move⟩
    obtain ⟨r, same, move'⟩ := (leads_of_sameIncoming hne h).2 ⟨s, rfl, move⟩
    exact ⟨r, closed same hs, move'⟩

theorem mem_activeAfter_iff_of_sameIncoming (hne : n₁ ≠ n₂) (h : m.sameIncoming n₁ n₂ = true)
    (h₁ : n₁ ≠ 0) (h₂ : n₂ ≠ 0) (codes : List Nat) :
    n₁ ∈ m.activeAfter codes ↔ n₂ ∈ m.activeAfter codes := by
  induction codes using List.reverseRecOn with
  | nil => simp only [mem_activeAfter_nil, h₁, h₂]
  | append_singleton codes code ih =>
    rw [mem_activeAfter_concat, mem_activeAfter_concat]
    exact entered_iff_of_sameIncoming hne h ih

/-- Two states other than state 0 that are merged because they are entered by the same edges are
active after the same symbols, and the merge changes no run. -/
theorem coactive_mergeSameIncoming (positive : n₁ ≠ 0) (order : n₁ < n₂)
    (h : m.mergeSameIncoming? n₁ n₂ = some n) :
    (∀ codes, n₁ ∈ m.activeAfter codes ↔ n₂ ∈ m.activeAfter codes) ∧
      ∀ codes, n.run codes = m.run codes := by
  obtain ⟨hne, same, _⟩ := mergeSameIncoming?_cases h
  have positive₂ : n₂ ≠ 0 := Nat.ne_of_gt (Nat.zero_lt_of_lt order)
  refine ⟨mem_activeAfter_iff_of_sameIncoming hne same positive positive₂, fun codes => ?_⟩
  refine run_congr fun id => ?_
  -- No state but state 0 becomes state 0.
  rw [finds_mergeSameIncoming h, exists_fold_eq hne]
  constructor
  · rintro ⟨_, found | ⟨first, _⟩⟩
    · exact found
    · exact absurd first.symm positive
  · intro found
    exact ⟨positive₂.symm, .inl found⟩

/-- States 1 and 2 lead to each other by the symbol 98, which counts as a loop at either, and
state 1 has a loop by it. Only state 2 is marked. -/
theorem coactive_mergeSameIncoming_crossed : ∃ m n : Automaton,
    m = ⟨.ofCells [⟨0, 0, .full⟩, ⟨0, 1, .singleton 97⟩, ⟨0, 2, .singleton 97⟩,
        ⟨1, 1, .singleton 98⟩, ⟨1, 2, .singleton 98⟩, ⟨2, 1, .singleton 98⟩,
        ⟨2, 3, .singleton 99⟩], .ofCells [⟨2, 1, ()⟩, ⟨3, 2, ()⟩], 2⟩ ∧
      m.mergeSameIncoming? 1 2 = some n ∧
      (∀ codes, 1 ∈ m.activeAfter codes ↔ 2 ∈ m.activeAfter codes) ∧
      ∀ codes, n.run codes = m.run codes := by
  have merges : (mergeSameIncoming? ⟨.ofCells [⟨0, 0, .full⟩, ⟨0, 1, .singleton 97⟩,
      ⟨0, 2, .singleton 97⟩, ⟨1, 1, .singleton 98⟩, ⟨1, 2, .singleton 98⟩, ⟨2, 1, .singleton 98⟩,
      ⟨2, 3, .singleton 99⟩], .ofCells [⟨2, 1, ()⟩, ⟨3, 2, ()⟩], 2⟩ 1 2).isSome = true := by
    decide +kernel
  obtain ⟨n, merged⟩ := Option.isSome_iff_exists.1 merges
  exact ⟨_, n, rfl, merged, coactive_mergeSameIncoming (by decide) (by decide) merged⟩

end PatternGroups.Automaton
