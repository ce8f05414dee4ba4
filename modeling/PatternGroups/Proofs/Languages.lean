import Mathlib.Computability.Language
import PatternGroups.Regex.Tree

/-!
# Languages of syntax trees

A word is a list of symbols, given by their numbers. A set matches one symbol, a node as many copies
of its content as its bounds admit, a chain one word of each of its nodes in order, and a group any
of its alternatives.

* `copies_none`, `copies_succ`, `copies_upTo`: repetitions, one copy at a time;
* `copies_once`, `copies_optional`, `copies_one`: repetitions that say little.
-/

namespace PatternGroups

open Computability

/-- How many copies in a row are allowed: an upper bound of zero reads as one, and one below the
lower bound as the lower bound. -/
def Bounds.Admits (b : Bounds) (k : Nat) : Prop :=
  b.lower ≤ k ∧ ∀ upper, b.atLeastOne.upper = some upper → k ≤ max b.lower upper

/-- The upper bound is not zero. -/
def Bounds.Positive (b : Bounds) : Prop := b.upper ≠ some 0

/-- Words made of as many words of a language as bounds admit. -/
def Bounds.copies (b : Bounds) (L : Language Nat) : Language Nat :=
  {w | ∃ k, b.Admits k ∧ w ∈ L ^ k}

/-- The words of one symbol of a set. -/
def SymbolSet.words (s : SymbolSet) : Language Nat :=
  {w | ∃ code, w = [code] ∧ s.contains code = true}

mutual

def Node.language : Node → Language Nat
  | .leaf symbols bounds => bounds.copies symbols.words
  | .group alternatives bounds => bounds.copies (alternativesLanguage alternatives)

def chainLanguage : List Node → Language Nat
  | [] => 1
  | node :: rest => node.language * chainLanguage rest

def alternativesLanguage : List (List Node) → Language Nat
  | [] => 0
  | chain :: rest => chainLanguage chain + alternativesLanguage rest

end

namespace Bounds

variable {L : Language Nat}

theorem mem_copies {b : Bounds} {w : List Nat} :
    w ∈ b.copies L ↔ ∃ k, b.Admits k ∧ w ∈ L ^ k := Iff.rfl

theorem admits_none {n k : Nat} : (Bounds.mk n none).Admits k ↔ n ≤ k := by
  simp [Admits, atLeastOne]

theorem admits_some {n u k : Nat} :
    (Bounds.mk n (some u)).Admits k ↔ n ≤ k ∧ k ≤ max n (max 1 u) := by
  simp [Admits, atLeastOne]

theorem admits_atLeastOne {b : Bounds} {k : Nat} : b.atLeastOne.Admits k ↔ b.Admits k := by
  obtain ⟨n, _ | u⟩ := b
  · exact Iff.rfl
  · simp [atLeastOne, admits_some]

theorem copies_congr {b c : Bounds} (h : ∀ k, b.Admits k ↔ c.Admits k) :
    b.copies L = c.copies L := by
  ext w
  simp only [mem_copies, h]

theorem copies_atLeastOne (b : Bounds) : b.atLeastOne.copies L = b.copies L :=
  copies_congr fun _ => admits_atLeastOne

/-- Copies that come first, whatever their number, and a fixed number of copies after them. -/
theorem copies_eq_mul_pow {b c : Bounds} {n : Nat}
    (h : ∀ k, b.Admits k ↔ ∃ j, c.Admits j ∧ k = j + n) :
    b.copies L = c.copies L * L ^ n := by
  ext w
  simp only [mem_copies, h, Language.mem_mul]
  constructor
  · rintro ⟨_, ⟨j, hj, rfl⟩, hw⟩
    rw [pow_add, Language.mem_mul] at hw
    obtain ⟨u, hu, v, hv, rfl⟩ := hw
    exact ⟨u, ⟨j, hj, hu⟩, v, hv, rfl⟩
  · rintro ⟨u, ⟨j, hj, hu⟩, v, hv, rfl⟩
    refine ⟨j + n, ⟨j, hj, rfl⟩, ?_⟩
    rw [pow_add]
    exact Language.append_mem_mul hu hv

theorem copies_star : Bounds.copies ⟨0, none⟩ L = L∗ := by
  ext w
  simp only [mem_copies, admits_none, Nat.zero_le, true_and, Language.kstar_eq_iSup_pow,
    Language.mem_iSup]

theorem copies_none (n : Nat) : Bounds.copies ⟨n, none⟩ L = L∗ * L ^ n := by
  rw [← copies_star]
  refine copies_eq_mul_pow fun k => ?_
  simp only [admits_none]
  exact ⟨fun h => ⟨k - n, Nat.zero_le _, by omega⟩, fun ⟨j, _, h⟩ => by omega⟩

/-- With a lower bound, all but one of the copies below it come last. -/
theorem copies_succ (n u : Nat) :
    Bounds.copies ⟨n + 1, some u⟩ L = Bounds.copies ⟨1, some (u - 1 - n + 1)⟩ L * L ^ n := by
  refine copies_eq_mul_pow fun k => ?_
  simp only [admits_some]
  exact ⟨fun h => ⟨k - n, by omega, by omega⟩, fun ⟨j, hj, h⟩ => by omega⟩

theorem copies_upTo_zero : Bounds.copies ⟨1, some 1⟩ L = L := by
  ext w
  simp only [mem_copies, admits_some]
  constructor
  · rintro ⟨k, hk, hw⟩
    obtain rfl : k = 1 := by omega
    simpa using hw
  · intro hw
    exact ⟨1, by omega, by simpa using hw⟩

/-- One copy or more: either one, or one after the others. -/
theorem copies_upTo_succ (n : Nat) :
    Bounds.copies ⟨1, some (n + 2)⟩ L = L + Bounds.copies ⟨1, some (n + 1)⟩ L * L := by
  ext w
  simp only [Language.mem_add, Language.mem_mul, mem_copies, admits_some]
  constructor
  · rintro ⟨k, hk, hw⟩
    obtain ⟨j, rfl⟩ : ∃ j, k = j + 1 := ⟨k - 1, by omega⟩
    cases j with
    | zero => exact .inl (by simpa using hw)
    | succ j =>
      rw [pow_succ, Language.mem_mul] at hw
      obtain ⟨u, hu, v, hv, rfl⟩ := hw
      exact .inr ⟨u, ⟨j + 1, by omega, hu⟩, v, hv, rfl⟩
  · rintro (hw | ⟨u, ⟨k, hk, hu⟩, v, hv, rfl⟩)
    · exact ⟨1, by omega, by simpa using hw⟩
    · refine ⟨k + 1, by omega, ?_⟩
      rw [pow_succ]
      exact Language.append_mem_mul hu hv

/-- No copy, or one or more. -/
theorem copies_zero (u : Nat) :
    Bounds.copies ⟨0, some u⟩ L = 1 + Bounds.copies ⟨1, some (u - 1 + 1)⟩ L := by
  ext w
  simp only [Language.mem_add, mem_copies, admits_some]
  constructor
  · rintro ⟨k, hk, hw⟩
    cases k with
    | zero => exact .inl (by simpa using hw)
    | succ k => exact .inr ⟨k + 1, by omega, hw⟩
  · rintro (hw | ⟨k, hk, hw⟩)
    · exact ⟨0, by omega, by simpa using hw⟩
    · exact ⟨k, by omega, hw⟩

theorem copies_once : once.copies L = L := copies_upTo_zero

theorem copies_optional : optional.copies L = 1 + L := by
  rw [optional, copies_zero, copies_upTo_zero]

/-- Copies of nothing are nothing. -/
theorem copies_one (b : Bounds) : b.copies 1 = 1 := by
  ext w
  simp only [mem_copies, one_pow]
  constructor
  · rintro ⟨_, _, hw⟩
    exact hw
  · intro hw
    exact ⟨b.lower, ⟨Nat.le_refl _, fun _ _ => Nat.le_max_left _ _⟩, hw⟩

end Bounds

theorem chainLanguage_append (c d : List Node) :
    chainLanguage (c ++ d) = chainLanguage c * chainLanguage d := by
  induction c with
  | nil => rw [List.nil_append, chainLanguage, one_mul]
  | cons node c ih => rw [List.cons_append, chainLanguage, chainLanguage, ih, mul_assoc]

theorem chainLanguage_singleton (node : Node) : chainLanguage [node] = node.language := by
  rw [chainLanguage, chainLanguage, mul_one]

end PatternGroups
