import PatternGroups.Proofs.Merging

/-!
# Simplification

Simplification goes over pairs of states in a fixed order and repeats its passes; all that it does
is merge states, one pair after the other.

* `Merges`: any number of merges, with what becomes of each state;
* `Merges.finds`: what is found after them;
* `Lasting`: what each merge does and steps that follow each other do, each pass does;
* `merges_simplify`: simplification is a number of merges.
-/

namespace PatternGroups.Automaton

variable {m n : Automaton} {f : State → State}

/-! ## Any number of merges -/

/-- An automaton and what becomes of it by merges, and of its states. -/
inductive Merges (m : Automaton) : (State → State) → Automaton → Prop
  | refl : Merges m id m
  | coEntered {f : State → State} {n n' : Automaton} {n₁ n₂ : State} :
      Merges m f n → n₁ < n₂ → n.mergeSameIncoming? n₁ n₂ = some n' →
      Merges m (fold n₁ n₂ ∘ f) n'
  | coLeading {f : State → State} {n n' : Automaton} {n₁ n₂ : State} :
      Merges m f n → n₁ < n₂ → n.mergeSameOutgoing? n₁ n₂ = some n' →
      Merges m (fold n₁ n₂ ∘ f) n'

namespace Merges

/-- State 0 is never merged away. -/
theorem start (h : Merges m f n) : f 0 = 0 := by
  have kept {n₁ n₂ : State} (hlt : n₁ < n₂) : fold n₁ n₂ 0 = 0 :=
    fold_of_ne (Nat.ne_of_lt (Nat.lt_of_le_of_lt (Nat.zero_le n₁) hlt))
  induction h with
  | refl => rfl
  | coEntered _ hlt _ ih => rw [Function.comp_apply, ih, kept hlt]
  | coLeading _ hlt _ ih => rw [Function.comp_apply, ih, kept hlt]

theorem finds (h : Merges m f n) {t : State} {codes : List Nat} {id : RuleId} :
    n.Finds t codes id ↔ ∃ s, f s = t ∧ m.Finds s codes id := by
  have compose {f : State → State} {n : Automaton} {n₁ n₂ t : State}
      (ih : ∀ {r}, n.Finds r codes id ↔ ∃ s, f s = r ∧ m.Finds s codes id) :
      (∃ r, fold n₁ n₂ r = t ∧ n.Finds r codes id) ↔
        ∃ s, (fold n₁ n₂ ∘ f) s = t ∧ m.Finds s codes id := by
    constructor
    · rintro ⟨r, hr, found⟩
      obtain ⟨s, rfl, before⟩ := ih.1 found
      exact ⟨s, hr, before⟩
    · rintro ⟨s, hs, found⟩
      exact ⟨f s, hs, ih.2 ⟨s, rfl, found⟩⟩
  induction h generalizing t with
  | refl => simp
  | coEntered _ _ merged ih => rw [finds_mergeSameIncoming merged, compose ih]
  | coLeading _ _ merged ih => rw [finds_mergeSameOutgoing merged, compose ih]

theorem trans {g : State → State} {k : Automaton} (h : Merges m f n) (hg : Merges n g k) :
    Merges m (g ∘ f) k := by
  induction hg with
  | refl => exact h
  | coEntered _ hlt merged ih => exact ih.coEntered hlt merged
  | coLeading _ hlt merged ih => exact ih.coLeading hlt merged

end Merges

/-! ## The passes -/

/-- A relation that any number of steps has if each step has it. -/
structure Lasting (R : Automaton → Automaton → Prop) : Prop where
  refl : ∀ m, R m m
  trans : ∀ {m n k}, R m n → R n k → R m k

namespace Lasting

variable {R : Automaton → Automaton → Prop} (hR : Lasting R)

include hR

theorem of_foldl {α : Type} {step : Automaton → α → Automaton} (h : ∀ a m, R m (step m a))
    (l : List α) (m : Automaton) : R m (l.foldl step m) := by
  induction l generalizing m with
  | nil => exact hR.refl m
  | cons a l ih => exact hR.trans (h a m) (ih (step m a))

theorem of_mergeAmong {rule : Automaton → State → State → Option Automaton}
    (h : ∀ {m n n₁ n₂}, n₁ < n₂ → rule m n₁ n₂ = some n → R m n) (siblings : List State)
    (m : Automaton) : R m (mergeAmong rule siblings m) := by
  refine hR.of_foldl (fun n₁ => hR.of_foldl (fun n₂ m => ?_) siblings) siblings m
  by_cases hlt : n₁ < n₂
  · rw [if_pos hlt]
    cases merged : rule m n₁ n₂ with
    | none => exact hR.refl m
    | some n => exact h hlt merged
  · rw [if_neg hlt]
    exact hR.refl m

theorem of_mergeCoEntered
    (h : ∀ {m n n₁ n₂}, n₁ < n₂ → m.mergeSameIncoming? n₁ n₂ = some n → R m n)
    (m : Automaton) : R m m.mergeCoEntered :=
  hR.of_foldl (fun s n => hR.of_mergeAmong h (n.targets s) n) m.edges.rowKeys m

section
variable (h : ∀ {m n n₁ n₂}, n₁ < n₂ → m.mergeSameOutgoing? n₁ n₂ = some n → R m n)

include h

theorem of_mergeCoAccepting (m : Automaton) : R m m.mergeCoAccepting :=
  hR.of_foldl (fun id n => hR.of_mergeAmong h ((n.accepts.column id).map Prod.fst) n)
    m.accepts.columnKeys m

theorem of_mergeCoLeading (m : Automaton) : R m m.mergeCoLeading :=
  hR.of_foldl (fun s n => hR.of_mergeAmong h (n.sources s) n) m.edges.columnKeys m

end

theorem of_exhaust {pass : Automaton → Automaton} (h : ∀ m, R m (pass m)) (m : Automaton) :
    R m (exhaust pass m) := by
  have settles (bound : Nat) (m : Automaton) : R m (settle pass bound m) := by
    induction bound generalizing m with
    | zero => exact hR.refl m
    | succ bound ih =>
      rw [settle]
      split
      · exact hR.trans (h m) (ih (pass m))
      · exact h m
  exact settles _ m

theorem of_simplify
    (hin : ∀ {m n n₁ n₂}, n₁ < n₂ → m.mergeSameIncoming? n₁ n₂ = some n → R m n)
    (hout : ∀ {m n n₁ n₂}, n₁ < n₂ → m.mergeSameOutgoing? n₁ n₂ = some n → R m n)
    (m : Automaton) : R m m.simplify :=
  hR.trans (hR.trans (hR.of_exhaust (hR.of_mergeCoEntered hin) m)
    (hR.of_exhaust (hR.of_mergeCoAccepting hout) _)) (hR.of_exhaust (hR.of_mergeCoLeading hout) _)

end Lasting

theorem lasting_merges : Lasting fun m n => ∃ f, Merges m f n := by
  refine ⟨fun m => ⟨id, .refl⟩, ?_⟩
  rintro m n k ⟨f, first⟩ ⟨g, others⟩
  exact ⟨g ∘ f, first.trans others⟩

theorem merges_simplify (m : Automaton) : ∃ f, Merges m f m.simplify :=
  lasting_merges.of_simplify (fun hlt merged => ⟨_, .coEntered .refl hlt merged⟩)
    (fun hlt merged => ⟨_, .coLeading .refl hlt merged⟩) m

end PatternGroups.Automaton
