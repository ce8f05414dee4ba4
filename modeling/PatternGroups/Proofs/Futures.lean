import PatternGroups.Proofs.Simplification

/-!
# States with the same future

Two states that lead to the same edges and accept the same rules find the same, whatever is read, as
each answers all that the other does. So it changes nothing that one becomes the other, even if it
is state 0 that takes over the other, and it does not matter which states were compared before.

* `finds_iff_of_sameOutgoing`: states with the same future find the same;
* `run_mergeSameOutgoing`: a merge of such states changes no run;
* `mergeSameOutgoing_sound`: nor does a pass that only makes such merges.
-/

namespace PatternGroups.Automaton

variable {m n : Automaton} {n₁ n₂ : State}

theorem finds_iff_of_sameOutgoing (h : m.sameOutgoing n₁ n₂ = true) {s r : State}
    (same : fold n₁ n₂ s = fold n₁ n₂ r) {codes : List Nat} {id : RuleId} :
    m.Finds s codes id ↔ m.Finds r codes id :=
  ⟨(futures_of_sameOutgoing h).finds same, (futures_of_sameOutgoing h).finds same.symm⟩

theorem run_mergeSameOutgoing (order : n₁ < n₂) (h : m.mergeSameOutgoing? n₁ n₂ = some n)
    (codes : List Nat) : n.run codes = m.run codes := by
  obtain ⟨_, same, _⟩ := mergeSameOutgoing?_cases h
  have start : fold n₁ n₂ 0 = 0 := fold_of_ne (Nat.ne_of_lt (Nat.zero_lt_of_lt order))
  refine run_congr fun id => ?_
  rw [finds_mergeSameOutgoing h]
  constructor
  · rintro ⟨s, hs, found⟩
    exact (finds_iff_of_sameOutgoing same (hs.trans start.symm)).1 found
  · intro found
    exact ⟨0, start, found⟩

theorem lasting_runs (codes : List Nat) : Lasting fun m n => n.run codes = m.run codes :=
  ⟨fun _ => rfl, fun first other => other.trans first⟩

/-- A merge of two states with the same future changes no run. So no pass of such merges does,
whichever states it compares: not those of any list that it was given, and neither the passes over
states that accept a common rule nor those over states that lead to a common state. -/
theorem mergeSameOutgoing_sound (m : Automaton) (codes : List Nat) :
    (∀ n₁ n₂ n, n₁ < n₂ → m.mergeSameOutgoing? n₁ n₂ = some n → n.run codes = m.run codes) ∧
      (∀ siblings, (mergeAmong mergeSameOutgoing? siblings m).run codes = m.run codes) ∧
      (exhaust mergeCoAccepting m).run codes = m.run codes ∧
      (exhaust mergeCoLeading m).run codes = m.run codes := by
  have merge {m n : Automaton} {n₁ n₂ : State} (order : n₁ < n₂)
      (h : m.mergeSameOutgoing? n₁ n₂ = some n) : n.run codes = m.run codes :=
    run_mergeSameOutgoing order h codes
  have lasting := lasting_runs codes
  refine ⟨fun _ _ _ => merge, fun siblings => lasting.of_mergeAmong merge siblings m, ?_, ?_⟩
  · exact lasting.of_exhaust (lasting.of_mergeCoAccepting merge) m
  · exact lasting.of_exhaust (lasting.of_mergeCoLeading merge) m

/-- States 0 and 1 lead to themselves and to each other, and state 2 leads to state 1. -/
theorem mergeSameOutgoing_sound_start : ∃ m n : Automaton,
    m = ⟨.ofCells [⟨0, 0, .full⟩, ⟨0, 1, .full⟩, ⟨0, 2, .singleton 97⟩, ⟨1, 0, .full⟩,
        ⟨1, 1, .full⟩, ⟨1, 2, .singleton 97⟩, ⟨2, 1, .full⟩], .ofCells [⟨2, 1, ()⟩], 1⟩ ∧
      0 < 1 ∧ m.mergeSameOutgoing? 0 1 = some n ∧ n.run [97] = m.run [97] ∧ m.run [97] = [1] := by
  have merges : (mergeSameOutgoing? ⟨.ofCells [⟨0, 0, .full⟩, ⟨0, 1, .full⟩,
      ⟨0, 2, .singleton 97⟩, ⟨1, 0, .full⟩, ⟨1, 1, .full⟩, ⟨1, 2, .singleton 97⟩,
      ⟨2, 1, .full⟩], .ofCells [⟨2, 1, ()⟩], 1⟩ 0 1).isSome = true := by
    decide +kernel
  obtain ⟨n, merged⟩ := Option.isSome_iff_exists.1 merges
  exact ⟨_, n, rfl, by decide, merged, (mergeSameOutgoing_sound _ [97]).1 0 1 n (by decide) merged,
    by decide +kernel⟩

end PatternGroups.Automaton
