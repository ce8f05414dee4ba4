import Mathlib.Data.List.Induction
import PatternGroups.Proofs.Moves
import PatternGroups.SymbolSet.Words

/-!
# Words and their bits

The bits of several words are numbered through, those of the first word first. A set in five words
has more bits than there are symbols; here all of them count alike.

* `getLsbD_and_sub_one`: how the lowest bit of a word is removed;
* `foldl_cpop`: the bits of all words are counted word by word;
* `test_add`, `test_union`, `test_inter`, `test_sdiff`: each operation, as seen by the bits;
* `left_skip`, `left_give`: what a word adds to a listing;
* `left_next`, `left_advance`: what one call gives, and any number of them.
-/

namespace PatternGroups

/-! ## Words -/

/-- Subtraction of one changes the lowest bit of a word and the bits below it, so that this bit alone
is cleared. -/
theorem getLsbD_and_sub_one {w : Nat} (x : BitVec w) (i : Nat) :
    (x &&& (x - 1)).getLsbD i = (x.getLsbD i && decide (∃ j < i, x.getLsbD j = true)) := by
  have minus : x - 1 = ~~~(-x) := by
    rw [BitVec.not_neg]
    rfl
  rw [BitVec.getLsbD_and, minus, BitVec.getLsbD_not, BitVec.getLsbD_neg]
  by_cases h : i < w
  · cases x.getLsbD i <;> simp [h]
  · simp [BitVec.getLsbD_of_ge x i (Nat.not_lt.1 h)]

theorem getLsbD_and_sub_one_iff {w : Nat} {x : BitVec w} (some : x ≠ 0) {i : Nat} :
    (x &&& (x - 1)).getLsbD i = true ↔ x.getLsbD i = true ∧ i ≠ x.ctz.toNat := by
  have lowest : x.getLsbD x.ctz.toNat = true := BitVec.getLsbD_true_ctz_of_ne_zero some
  rw [getLsbD_and_sub_one, Bool.and_eq_true, decide_eq_true_eq]
  refine and_congr_right fun bit => ⟨?_, fun other => ?_⟩
  · rintro ⟨j, lt, below⟩ rfl
    rw [BitVec.getLsbD_false_of_lt_ctz lt] at below
    cases below
  · refine ⟨_, ?_, lowest⟩
    by_contra least
    have lt : i < x.ctz.toNat := by omega
    rw [BitVec.getLsbD_false_of_lt_ctz lt] at bit
    cases bit

theorem ctz_lt {w : Nat} {x : BitVec w} (some : x ≠ 0) : x.ctz.toNat < w :=
  BitVec.lt_of_getLsbD (BitVec.getLsbD_true_ctz_of_ne_zero some)

theorem cpop_eq_countP {w : Nat} (x : BitVec w) :
    x.cpop.toNat = (List.range w).countP x.getLsbD := by
  have upTo : ∀ n, x.cpopNatRec n 0 = (List.range n).countP x.getLsbD := by
    intro n
    induction n with
    | zero => rfl
    | succ n ih =>
      rw [BitVec.cpopNatRec_succ, BitVec.cpopNatRec_add, ih, List.range_succ, List.countP_append,
        List.countP_singleton]
      cases x.getLsbD n <;> rfl
  rw [BitVec.toNat_cpop, upTo]

/-- A bit of several words, those of the first word first. -/
def bitOf (words : List (BitVec 64)) (n : Nat) : Bool := (words[n / 64]?.getD 0).getLsbD (n % 64)

/-- The bits of all words are counted word by word. -/
theorem foldl_cpop (words : List (BitVec 64)) :
    words.foldl (fun n word => n + word.cpop.toNat) 0 =
      (List.range (64 * words.length)).countP (bitOf words) := by
  induction words using List.reverseRecOn with
  | nil => rfl
  | append_singleton words word ih =>
    have before : (List.range (64 * words.length)).countP (bitOf (words ++ [word])) =
        (List.range (64 * words.length)).countP (bitOf words) := by
      refine List.countP_congr fun n hn => ?_
      have inside : n / 64 < words.length := by
        have := List.mem_range.1 hn
        omega
      simp [bitOf, List.getElem?_append_left inside]
    have last : (List.range 64).countP (bitOf (words ++ [word]) ∘ (64 * words.length + ·)) =
        (List.range 64).countP word.getLsbD := by
      refine List.countP_congr fun n hn => ?_
      have place : (64 * words.length + n) / 64 = words.length := by
        have := List.mem_range.1 hn
        omega
      have := List.mem_range.1 hn
      simp [bitOf, place, Nat.mod_eq_of_lt this]
    rw [List.foldl_append, ih, List.length_append, List.length_singleton, Nat.mul_add, Nat.mul_one,
      List.range_add, List.countP_append, List.countP_map, before, last, ← cpop_eq_countP]
    rfl

namespace SymbolWords

variable {s t : SymbolWords}

/-- A bit of all the words, those of symbols and those that no symbol has. -/
def test (s : SymbolWords) (n : Nat) : Bool := bitOf s.words.toList n

theorem test_of_lt {n : Nat} (h : n / 64 < 5) : s.test n = s.words[n / 64].getLsbD (n % 64) := by
  simp [test, bitOf, h]

theorem test_of_div {i n : Nat} (hi : i < 5) (place : n / 64 = i) :
    s.test n = s.words[i].getLsbD (n % 64) := by
  subst place
  exact test_of_lt hi

theorem test_of_le {n : Nat} (h : 5 ≤ n / 64) : s.test n = false := by
  simp [test, bitOf, h]

theorem getLsbD_eq_test {i j : Nat} (hi : i < 5) (hj : j < 64) :
    s.words[i].getLsbD j = s.test (64 * i + j) := by
  have word : (64 * i + j) / 64 = i := by omega
  have place : (64 * i + j) % 64 = j := by omega
  rw [test_of_lt (by omega)]
  simp only [word, place]

theorem ext_test (h : ∀ n, s.test n = t.test n) : s = t := by
  obtain ⟨v⟩ := s
  obtain ⟨w⟩ := t
  have words : v = w := Vector.ext fun i hi => BitVec.eq_of_getLsbD_eq fun j hj => by
    have same := h (64 * i + j)
    rwa [← getLsbD_eq_test hi hj, ← getLsbD_eq_test hi hj] at same
  rw [words]

theorem test_empty (n : Nat) : empty.test n = false := by
  by_cases h : n / 64 < 5
  · simp [test_of_lt h, empty]
  · exact test_of_le (Nat.not_lt.1 h)

theorem test_set (s : SymbolWords) {i : Nat} (hi : i < 5) (word : BitVec 64) (n : Nat) :
    test ⟨s.words.set i word⟩ n = if n / 64 = i then word.getLsbD (n % 64) else s.test n := by
  by_cases h : n / 64 < 5
  · rw [test_of_lt h, test_of_lt h, Vector.getElem_set]
    simp only [eq_comm (a := i)]
    split <;> rfl
  · have other : n / 64 ≠ i := by omega
    rw [test_of_le (Nat.not_lt.1 h), test_of_le (Nat.not_lt.1 h), if_neg other]

theorem test_add (s : SymbolWords) (symbol : Symbol) (n : Nat) :
    (s.add symbol).test n = (s.test n || decide (symbol.val = n)) := by
  have lt : symbol.val % 64 < 64 := Nat.mod_lt _ (by decide)
  rw [add, test_set]
  split
  · rename_i word
    have place : symbol.val % 64 = n % 64 ↔ symbol.val = n := by
      have : n / 64 = symbol.val / 64 := word
      omega
    have bit : s.words[symbol.word].getLsbD (n % 64) = s.test n := by
      rw [test_of_lt (word ▸ symbol.word.isLt)]
      simp [word]
    rw [BitVec.getLsbD_or, Symbol.flag, BitVec.getLsbD_twoPow, bit]
    simp [lt, place]
  · rename_i word
    have other : symbol.val ≠ n := fun same => word (same ▸ rfl)
    simp [other]

theorem test_addAll (s : SymbolWords) (symbols : List Symbol) (n : Nat) :
    (s.addAll symbols).test n =
      (s.test n || symbols.any fun symbol => decide (symbol.val = n)) := by
  induction symbols generalizing s with
  | nil => simp [addAll]
  | cons symbol rest ih =>
    have first : s.addAll (symbol :: rest) = (s.add symbol).addAll rest := rfl
    rw [first, ih, test_add, List.any_cons, Bool.or_assoc]

theorem test_union (s t : SymbolWords) (n : Nat) : (s.union t).test n = (s.test n || t.test n) := by
  by_cases h : n / 64 < 5
  · simp [test_of_lt h, union]
  · simp [test_of_le (Nat.not_lt.1 h)]

theorem test_inter (s t : SymbolWords) (n : Nat) : (s.inter t).test n = (s.test n && t.test n) := by
  by_cases h : n / 64 < 5
  · simp [test_of_lt h, inter]
  · simp [test_of_le (Nat.not_lt.1 h)]

theorem test_sdiff (s t : SymbolWords) (n : Nat) :
    (s.sdiff t).test n = (s.test n && !t.test n) := by
  by_cases h : n / 64 < 5
  · simp [test_of_lt h, sdiff, Nat.mod_lt]
  · simp [test_of_le (Nat.not_lt.1 h)]

theorem and_twoPow_bne_zero (x : BitVec 64) {i : Nat} (hi : i < 64) :
    (x &&& .twoPow 64 i != 0) = x.getLsbD i := by
  have some : BitVec.twoPow 64 i ≠ 0 := by
    intro none
    have := congrArg (·.getLsbD i) none
    simp [hi] at this
  rw [BitVec.and_twoPow]
  cases x.getLsbD i with
  | false => rfl
  | true => simpa using some

theorem isEmpty_iff : s.isEmpty = true ↔ s = empty := by
  obtain ⟨words⟩ := s
  rw [isEmpty, Vector.all_eq_true]
  constructor
  · intro none
    have zero : words = .replicate 5 0 := Vector.ext fun i hi => by simpa using none i hi
    rw [zero]
    rfl
  · intro none
    cases none
    simp

/-- The bits that are set, of symbols or not. -/
def bits (s : SymbolWords) : List Nat := (List.range 320).filter s.test

theorem count_eq_length_bits (s : SymbolWords) : s.count = s.bits.length := by
  rw [count, ← Vector.foldl_toList, foldl_cpop, Vector.length_toList, bits,
    List.countP_eq_length_filter]
  rfl

/-! ## Listings -/

namespace Cursor

/-- The bits that are still to be given. -/
def left (c : Cursor) : List Nat :=
  (List.range 320).filter fun n => decide (64 * c.index ≤ n) && c.words.test n

theorem mem_left {c : Cursor} {n : Nat} :
    n ∈ c.left ↔ 64 * c.index ≤ n ∧ c.words.test n = true := by
  simp only [left, List.mem_filter, List.mem_range, Bool.and_eq_true, decide_eq_true_eq,
    and_iff_right_iff_imp]
  rintro ⟨_, bit⟩
  by_contra beyond
  rw [test_of_le (by omega)] at bit
  cases bit

theorem pairwise_left (c : Cursor) : c.left.Pairwise (· < ·) :=
  List.pairwise_lt_range.filter _

/-- Nothing is left in a word that is zero. -/
theorem left_skip {c : Cursor} (inside : c.index < 5) (zero : c.words.words[c.index] = 0) :
    left ⟨c.words, c.index + 1⟩ = c.left := by
  refine Ascending.eq_of_mem_iff (pairwise_left _) (pairwise_left _) fun n => ?_
  rw [mem_left, mem_left]
  refine and_congr_left fun bit => ?_
  have elsewhere : n / 64 ≠ c.index := by
    intro place
    rw [test_of_div inside place, zero] at bit
    simp at bit
  dsimp only
  omega

section Give

variable {c : Cursor} (inside : c.index < 5) {word : BitVec 64}
  (first : c.words.words[c.index] = word) (some : word ≠ 0)
include inside first some

theorem lowest_mem_left : c.index * 64 + word.ctz.toNat ∈ c.left := by
  have lt := ctz_lt some
  have place : (c.index * 64 + word.ctz.toNat) / 64 = c.index := by omega
  have bit : (c.index * 64 + word.ctz.toNat) % 64 = word.ctz.toNat := by omega
  rw [mem_left, test_of_div inside place, first, bit]
  exact ⟨by omega, BitVec.getLsbD_true_ctz_of_ne_zero some⟩

theorem lowest_le_of_mem_left {n : Nat} (member : n ∈ c.left) :
    c.index * 64 + word.ctz.toNat ≤ n := by
  obtain ⟨above, bit⟩ := mem_left.1 member
  by_contra below
  have lt := ctz_lt some
  have place : n / 64 = c.index := by omega
  rw [test_of_div inside place, first, BitVec.getLsbD_false_of_lt_ctz (by omega)] at bit
  cases bit

/-- Without its lowest bit, a word leaves the others. -/
theorem mem_left_set {n : Nat} :
    n ∈ left ⟨⟨c.words.words.set c.index (word &&& (word - 1))⟩, c.index⟩ ↔
      n ∈ c.left ∧ n ≠ c.index * 64 + word.ctz.toNat := by
  rw [mem_left, mem_left, test_set _ inside]
  by_cases place : n / 64 = c.index
  · rw [if_pos place, getLsbD_and_sub_one_iff some, test_of_div inside place, first, and_assoc]
    refine and_congr_right fun _ => and_congr_right fun _ => not_congr ?_
    omega
  · have lt := ctz_lt some
    have other : n ≠ c.index * 64 + word.ctz.toNat := by omega
    simp [place, other]

/-- The lowest bit of the first word with any is the first one that is left, and the others are left
without it. -/
theorem left_give :
    c.left = (c.index * 64 + word.ctz.toNat) ::
      left ⟨⟨c.words.words.set c.index (word &&& (word - 1))⟩, c.index⟩ := by
  have least := lowest_mem_left inside first some
  apply Ascending.eq_of_mem_iff (pairwise_left _)
  · refine List.pairwise_cons.2 ⟨fun n member => ?_, pairwise_left _⟩
    obtain ⟨old, other⟩ := (mem_left_set inside first some).1 member
    have := lowest_le_of_mem_left inside first some old
    omega
  · intro n
    rw [List.mem_cons, mem_left_set inside first some]
    constructor
    · intro member
      by_cases same : n = c.index * 64 + word.ctz.toNat
      · exact .inl same
      · exact .inr ⟨member, same⟩
    · rintro (rfl | other)
      · exact least
      · exact other.1

end Give

/-- The first bit that is left is given, and the others are left then. -/
theorem left_next (c : Cursor) : c.next.1 = c.left.head? ∧ c.next.2.left = c.left.tail := by
  fun_induction next c with
  | case1 c inside word zero ih =>
    rw [← left_skip inside zero]
    exact ih
  | case2 c inside word some =>
    rw [left_give inside rfl some]
    exact ⟨rfl, rfl⟩
  | case3 c beyond =>
    have none : c.left = [] := by
      refine List.eq_nil_iff_forall_not_mem.2 fun n member => ?_
      obtain ⟨above, bit⟩ := mem_left.1 member
      rw [test_of_le (by omega)] at bit
      cases bit
    rw [none]
    exact ⟨rfl, rfl⟩

theorem left_advance (c : Cursor) (calls : Nat) :
    (c.advance calls).1 = c.left.take calls ∧ (c.advance calls).2.left = c.left.drop calls := by
  induction calls generalizing c with
  | zero => exact ⟨rfl, rfl⟩
  | succ calls ih =>
    obtain ⟨member, rest⟩ := c.left_next
    obtain ⟨members, others⟩ := ih c.next.2
    have call : c.advance (calls + 1) = (c.next.1.toList ++ (c.next.2.advance calls).1,
        (c.next.2.advance calls).2) := rfl
    rw [call, members, others, member, rest]
    cases c.left with
    | nil => simp
    | cons n others => simp

end Cursor

end SymbolWords

end PatternGroups
