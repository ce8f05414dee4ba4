import Mathlib.Data.Set.Card
import PatternGroups.Proofs.Legibility
import PatternGroups.Proofs.Words
import PatternGroups.SymbolSet.Construction

/-!
# Stored sets of symbols

Five words have more bits than there are symbols. No operation leaves one of the others set, so that
the words tell a set, and sets are equal exactly if their words are.

* `Stores`: every bit of the words tells whether its number is in a set, so that the bits without a
  symbol are clear;
* `Stores.union`, `Stores.inter`, `Stores.sdiff`, `stores_ofConstruction`: what is stored stays so;
* `Stores.unused`, `Stores.eq_iff`, `Stores.bits_eq`: what the words tell of a set;
* `Has.union`, `Has.inter`, `Has.sdiff`, `has_construction`: membership goes with the construction;
* `tells_ofConstruction`: words, sets and symbols answer alike.
-/

namespace PatternGroups

namespace SymbolWords

variable {s t : SymbolWords} {S T : SymbolSet}

/-! ## Sets in words -/

/-- The words store a set: every bit tells whether its number is a member. -/
def Stores (s : SymbolWords) (S : SymbolSet) : Prop := ∀ n, s.test n = S.contains n

theorem stores_empty : empty.Stores ∅ := fun n => by
  rw [test_empty, SymbolSet.contains_empty]

theorem Stores.union (h : s.Stores S) (h' : t.Stores T) : (s.union t).Stores (S ∪ T) := fun n => by
  rw [test_union, h n, h' n, SymbolSet.contains_union]

theorem Stores.inter (h : s.Stores S) (h' : t.Stores T) : (s.inter t).Stores (S ∩ T) := fun n => by
  rw [test_inter, h n, h' n, SymbolSet.contains_inter]

/-- The complement sets the bits that stand for no symbol, and the intersection clears them. -/
theorem Stores.sdiff (h : s.Stores S) (h' : t.Stores T) : (s.sdiff t).Stores (S \ T) := fun n => by
  rw [test_sdiff, h n, h' n, SymbolSet.contains_sdiff]

theorem stores_addAll (symbols : List Symbol) :
    (empty.addAll symbols).Stores (.ofSymbols symbols) := fun n => by
  rw [test_addAll, test_empty, Bool.false_or, SymbolSet.contains_ofSymbols]

theorem stores_singleton (symbol : Symbol) : (singleton symbol).Stores (.singleton symbol) := by
  have added : singleton symbol = empty.add symbol := by
    simp [singleton, add, empty]
  intro n
  rw [added, test_add, test_empty, SymbolSet.contains_singleton, Bool.false_or]

theorem stores_range (a b : Symbol) : (range a b).Stores (.range a b) := by
  intro n
  rw [range, stores_addAll, SymbolSet.contains_ofSymbols, SymbolSet.contains_range,
    Bool.eq_iff_iff]
  simp only [List.any_eq_true, List.mem_filter, List.mem_finRange, true_and, decide_eq_true_eq]
  constructor
  · rintro ⟨symbol, inside, rfl⟩
    exact inside
  · intro inside
    exact ⟨⟨n, by omega⟩, inside, rfl⟩

theorem stores_ofBytes (bytes : List UInt8) : (ofBytes bytes).Stores (.ofBytes bytes) :=
  stores_addAll _

theorem stores_ofSymbols (symbols : List Symbol) :
    (ofSymbols symbols).Stores (.ofSymbols symbols) := by
  suffices h : ∀ {s : SymbolWords} {S : SymbolSet}, s.Stores S →
      (symbols.foldl (fun s symbol => s.union (singleton symbol)) s).Stores
        (symbols.foldl (fun S symbol => S ∪ .singleton symbol) S) from h stores_empty
  induction symbols with
  | nil => exact id
  | cons symbol rest ih => exact fun h => ih (h.union (stores_singleton symbol))

theorem stores_anyByte : anyByte.Stores .anyByte := stores_range 0 255

theorem stores_wordBytes : wordBytes.Stores .wordBytes := by
  have same : SymbolSet.ofBytes
      ("AaBbCcDdEeFfGgHhIiJjKkLlMmNnOoPpQqRrSsTtUuVvWwXxYyZz0123456789_".toList.map
        fun c => UInt8.ofNat c.toNat) = .wordBytes := by decide +kernel
  exact same ▸ stores_ofBytes _

theorem stores_digitBytes : digitBytes.Stores .digitBytes := by
  have same : SymbolSet.ofBytes ("0123456789".toList.map fun c => UInt8.ofNat c.toNat) =
      .digitBytes := by decide +kernel
  exact same ▸ stores_ofBytes _

theorem stores_blankBytes : blankBytes.Stores .blankBytes := by
  have same : SymbolSet.ofBytes [0x20, 0x0c, 0x0a, 0x0d, 0x09, 0x0b] = .blankBytes := by
    decide +kernel
  exact same ▸ stores_ofBytes _

theorem stores_ofConstant (name : SymbolSet.Constant) : (ofConstant name).Stores name.set := by
  cases name with
  | empty => exact stores_empty
  | full => exact stores_range 0 Symbol.border
  | border => exact stores_singleton Symbol.border
  | anyByte => exact stores_anyByte
  | wordBytes => exact stores_wordBytes
  | digitBytes => exact stores_digitBytes
  | blankBytes => exact stores_blankBytes
  | nonWordBytes => exact stores_anyByte.sdiff stores_wordBytes
  | nonDigitBytes => exact stores_anyByte.sdiff stores_digitBytes
  | nonBlankBytes => exact stores_anyByte.sdiff stores_blankBytes

/-- What is put together in words is what is put together in sets. -/
theorem stores_ofConstruction (c : SymbolSet.Construction) : (ofConstruction c).Stores c.set := by
  induction c with
  | constant name => exact stores_ofConstant name
  | singleton symbol => exact stores_singleton symbol
  | range a b => exact stores_range a b
  | ofBytes bytes => exact stores_ofBytes bytes
  | ofSymbols symbols => exact stores_ofSymbols symbols
  | union c d hc hd => exact hc.union hd
  | inter c d hc hd => exact hc.inter hd
  | sdiff c d hc hd => exact hc.sdiff hd

/-! ## What the words tell -/

namespace Stores

variable (h : s.Stores S)
include h

/-- No bit is set that stands for no symbol. -/
theorem unused {j : Nat} (some : 0 < j) : s.words[4].getLsbD j = false := by
  by_cases hj : j < 64
  · rw [getLsbD_eq_test (by decide) hj, h]
    exact BitVec.getLsbD_of_ge _ _ (by omega)
  · exact BitVec.getLsbD_of_ge _ _ (Nat.not_lt.1 hj)

theorem contains_eq (code : Nat) : s.contains code = S.contains code := by
  unfold contains Symbol.ofNat?
  by_cases hc : code < 257
  · rw [← h code, dif_pos hc, test_of_lt (by omega)]
    exact and_twoPow_bne_zero _ (Nat.mod_lt code (by decide))
  · rw [dif_neg hc]
    exact (BitVec.getLsbD_of_ge _ _ (Nat.not_lt.1 hc)).symm

/-- The words tell the set. -/
theorem eq_iff (h' : t.Stores T) : s = t ↔ S = T := by
  constructor
  · rintro rfl
    exact SymbolSet.ext_contains fun code _ => (h code).symm.trans (h' code)
  · rintro rfl
    exact ext_test fun n => (h n).trans (h' n).symm

theorem includes_eq (h' : t.Stores T) : s.includes t = T.isSubset S := by
  have comm : S ∪ T = T ∪ S := SymbolSet.ext_contains fun code _ => by
    rw [SymbolSet.contains_union, SymbolSet.contains_union, Bool.or_comm]
  rw [includes, SymbolSet.isSubset, Bool.eq_iff_iff, beq_iff_eq, beq_iff_eq, ← comm]
  exact (h.union h').eq_iff h

theorem strictlyIncludes_eq (h' : t.Stores T) : s.strictlyIncludes t = T.isStrictSubset S := by
  have differ : (s != t) = (T != S) := by
    rw [Bool.eq_iff_iff, bne_iff_ne, bne_iff_ne, Ne, h.eq_iff h', eq_comm]
  rw [strictlyIncludes, SymbolSet.isStrictSubset, h.includes_eq h', differ]

theorem isEmpty_eq : s.isEmpty = S.isEmpty := by
  rw [Bool.eq_iff_iff, isEmpty_iff, SymbolSet.isEmpty, beq_iff_eq]
  exact h.eq_iff stores_empty

theorem bits_eq : s.bits = S.codes := by
  refine Ascending.eq_of_mem_iff (List.pairwise_lt_range.filter _) S.pairwise_codes fun n => ?_
  rw [bits, List.mem_filter, List.mem_range, h, SymbolSet.mem_codes, and_iff_right_iff_imp]
  exact fun member => Nat.lt_trans (SymbolSet.contains_lt member) (by decide)

theorem count_eq : s.count = S.count := by
  rw [count_eq_length_bits, h.bits_eq, SymbolSet.length_codes]

end Stores

theorem Stores.left_cursor (h : s.Stores S) : s.cursor.left = S.codes := by
  rw [← h.bits_eq, bits, Cursor.left, cursor]
  simp

end SymbolWords

/-! ## Symbols -/

namespace SymbolSet

variable {S T : SymbolSet} {A B : Set Nat}

theorem isSubset_iff :
    S.isSubset T = true ↔ ∀ code, S.contains code = true → T.contains code = true := by
  rw [isSubset, beq_iff_eq]
  constructor
  · intro same code member
    rw [← same, contains_union, member, Bool.true_or]
  · intro within
    refine ext_contains fun code _ => ?_
    rw [contains_union, Bool.or_eq_right_iff_imp]
    exact within code

/-- These are the symbols of a set, by their numbers. -/
def Has (S : SymbolSet) (symbols : Set Nat) : Prop :=
  ∀ code, S.contains code = true ↔ code ∈ symbols

theorem has_empty : (∅ : SymbolSet).Has ∅ := fun code => by simp

theorem has_singleton (symbol : Symbol) : (singleton symbol).Has {symbol.val} := fun code => by
  rw [contains_singleton, decide_eq_true_eq, eq_comm]
  rfl

theorem has_range (a b : Symbol) :
    (range a b).Has (Set.Icc (min a.val b.val) (max a.val b.val)) := fun code => by
  rw [contains_range, decide_eq_true_eq]
  rfl

theorem has_ofSymbols (symbols : List Symbol) :
    (ofSymbols symbols).Has {code | ∃ symbol ∈ symbols, symbol.val = code} := fun code => by
  rw [contains_ofSymbols]
  simp only [List.any_eq_true, decide_eq_true_eq]
  rfl

theorem has_ofBytes (bytes : List UInt8) :
    (ofBytes bytes).Has {code | ∃ byte ∈ bytes, byte.toNat = code} := fun code => by
  rw [ofBytes, has_ofSymbols]
  simp [Symbol.ofByte]

namespace Has

variable (h : S.Has A)
include h

theorem union (h' : T.Has B) : (S ∪ T).Has (A ∪ B) := fun code => by
  rw [contains_union, Bool.or_eq_true, h, h']
  rfl

theorem inter (h' : T.Has B) : (S ∩ T).Has (A ∩ B) := fun code => by
  rw [contains_inter, Bool.and_eq_true, h, h']
  rfl

theorem sdiff (h' : T.Has B) : (S \ T).Has (A \ B) := fun code => by
  rw [contains_sdiff, Bool.and_eq_true, Bool.not_eq_true', ← Bool.not_eq_true, h, h']
  rfl

theorem eq_iff (h' : T.Has B) : S = T ↔ A = B := by
  constructor
  · rintro rfl
    exact Set.ext fun code => (h code).symm.trans (h' code)
  · rintro rfl
    exact ext_contains fun code _ => Bool.eq_iff_iff.2 ((h code).trans (h' code).symm)

theorem isSubset_iff (h' : T.Has B) : S.isSubset T = true ↔ A ⊆ B := by
  simp only [SymbolSet.isSubset_iff, h _, h' _]
  rfl

theorem isStrictSubset_iff (h' : T.Has B) :
    S.isStrictSubset T = true ↔ A ⊆ B ∧ A ≠ B := by
  rw [isStrictSubset, Bool.and_eq_true, bne_iff_ne, h.isSubset_iff h', Ne, h.eq_iff h']

theorem isEmpty_iff : S.isEmpty = true ↔ A = ∅ := by
  rw [isEmpty, beq_iff_eq]
  exact h.eq_iff has_empty

theorem mem_codes_iff (code : Nat) : code ∈ S.codes ↔ code ∈ A := mem_codes.trans (h code)

theorem count_eq : S.count = A.ncard := by
  have same : A = S.codes.toFinset := by
    ext code
    rw [← h.mem_codes_iff, List.coe_toFinset]
    rfl
  have nodup : S.codes.Nodup := S.pairwise_codes.imp Nat.ne_of_lt
  rw [same, Set.ncard_coe_finset, List.toFinset_card_of_nodup nodup, length_codes]

end Has

/-! ## Sets put together -/

def wordCodes : Set Nat := Set.Icc 0x41 0x5a ∪ Set.Icc 0x61 0x7a ∪ Set.Icc 0x30 0x39 ∪ {0x5f}

def digitCodes : Set Nat := Set.Icc 0x30 0x39

def blankCodes : Set Nat := Set.Icc 0x09 0x0d ∪ {0x20}

/-- The symbols of a constant, by their numbers. -/
def Constant.symbols : Constant → Set Nat
  | empty => ∅
  | full => Set.Icc 0 0x100
  | border => {0x100}
  | anyByte => Set.Icc 0 0xff
  | wordBytes => wordCodes
  | digitBytes => digitCodes
  | blankBytes => blankCodes
  | nonWordBytes => Set.Icc 0 0xff \ wordCodes
  | nonDigitBytes => Set.Icc 0 0xff \ digitCodes
  | nonBlankBytes => Set.Icc 0 0xff \ blankCodes

/-- The symbols of a construction, by their numbers. -/
def Construction.symbols : Construction → Set Nat
  | constant name => name.symbols
  | singleton symbol => {symbol.val}
  | range a b => Set.Icc (min a.val b.val) (max a.val b.val)
  | ofBytes bytes => {code | ∃ byte ∈ bytes, byte.toNat = code}
  | ofSymbols symbols => {code | ∃ symbol ∈ symbols, symbol.val = code}
  | union c d => c.symbols ∪ d.symbols
  | inter c d => c.symbols ∩ d.symbols
  | sdiff c d => c.symbols \ d.symbols

theorem has_anyByte : anyByte.Has (Set.Icc 0 0xff) := has_range 0 255

theorem has_wordBytes : wordBytes.Has wordCodes :=
  (((has_range 0x41 0x5a).union (has_range 0x61 0x7a)).union (has_range 0x30 0x39)).union
    (has_singleton 0x5f)

theorem has_digitBytes : digitBytes.Has digitCodes := has_range 0x30 0x39

theorem has_blankBytes : blankBytes.Has blankCodes :=
  (has_range 0x09 0x0d).union (has_singleton 0x20)

theorem has_constant (name : Constant) : name.set.Has name.symbols := by
  cases name with
  | empty => exact has_empty
  | full => exact has_range 0 Symbol.border
  | border => exact has_singleton Symbol.border
  | anyByte => exact has_anyByte
  | wordBytes => exact has_wordBytes
  | digitBytes => exact has_digitBytes
  | blankBytes => exact has_blankBytes
  | nonWordBytes => exact has_anyByte.sdiff has_wordBytes
  | nonDigitBytes => exact has_anyByte.sdiff has_digitBytes
  | nonBlankBytes => exact has_anyByte.sdiff has_blankBytes

/-- Membership goes with the construction. -/
theorem has_construction (c : Construction) : c.set.Has c.symbols := by
  induction c with
  | constant name => exact has_constant name
  | singleton symbol => exact has_singleton symbol
  | range a b => exact has_range a b
  | ofBytes bytes => exact has_ofBytes bytes
  | ofSymbols symbols => exact has_ofSymbols symbols
  | union c d hc hd => exact hc.union hd
  | inter c d hc hd => exact hc.inter hd
  | sdiff c d hc hd => exact hc.sdiff hd

end SymbolSet

namespace SymbolWords

variable {s t : SymbolWords} {S T : SymbolSet} {A B : Set Nat}

/-- Words answer like a set, whose symbols they give in ascending order. After any number of calls,
the others are still to come. -/
structure Tells (s : SymbolWords) (S : SymbolSet) (symbols : Set Nat) : Prop where
  unused : ∀ j, 0 < j → s.words[4].getLsbD j = false
  contains : ∀ code, s.contains code = S.contains code ∧ (S.contains code = true ↔ code ∈ symbols)
  isEmpty : s.isEmpty = S.isEmpty ∧ (S.isEmpty = true ↔ symbols = ∅)
  count : s.count = S.count ∧ S.count = symbols.ncard
  ascending : S.codes.Pairwise (· < ·) ∧ ∀ code, code ∈ S.codes ↔ code ∈ symbols
  given : ∀ calls, (s.cursor.advance calls).1 = S.codes.take calls
  toCome : ∀ calls more,
    ((s.cursor.advance calls).2.advance more).1 = (S.codes.drop calls).take more

/-- Words of two sets compare like the sets. -/
structure Compares (s t : SymbolWords) (S T : SymbolSet) (A B : Set Nat) : Prop where
  same : (s = t ↔ S = T) ∧ (s = t ↔ A = B)
  same_iff_contains : s = t ↔ ∀ code < 65536, s.contains code = t.contains code
  includes : s.includes t = T.isSubset S ∧ (T.isSubset S = true ↔ B ⊆ A)
  strictlyIncludes : s.strictlyIncludes t = T.isStrictSubset S ∧
    (T.isStrictSubset S = true ↔ B ⊆ A ∧ B ≠ A)

theorem Stores.tells (h : s.Stores S) (has : S.Has A) : s.Tells S A where
  unused _ := h.unused
  contains code := ⟨h.contains_eq code, has code⟩
  isEmpty := ⟨h.isEmpty_eq, has.isEmpty_iff⟩
  count := ⟨h.count_eq, has.count_eq⟩
  ascending := ⟨S.pairwise_codes, has.mem_codes_iff⟩
  given calls := by rw [(Cursor.left_advance _ _).1, h.left_cursor]
  toCome calls more := by
    rw [(Cursor.left_advance _ _).1, (Cursor.left_advance _ _).2, h.left_cursor]

theorem Stores.compares (h : s.Stores S) (h' : t.Stores T) (hasA : S.Has A) (hasB : T.Has B) :
    s.Compares t S T A B where
  same := ⟨h.eq_iff h', (h.eq_iff h').trans (hasA.eq_iff hasB)⟩
  same_iff_contains := by
    constructor
    · rintro rfl
      exact fun _ _ => rfl
    · intro same
      refine (h.eq_iff h').2 (SymbolSet.ext_contains fun code lt => ?_)
      rw [← h.contains_eq, ← h'.contains_eq, same code (Nat.lt_trans lt (by decide))]
  includes := ⟨h.includes_eq h', hasB.isSubset_iff hasA⟩
  strictlyIncludes := ⟨h.strictlyIncludes_eq h', hasB.isStrictSubset_iff hasA⟩

/-- However sets are put together, the words in which they are stored have no bit without a symbol,
and answer as the sets do; and so do words of two sets when they are compared. -/
theorem tells_ofConstruction (c d : SymbolSet.Construction) :
    (ofConstruction c).Tells c.set c.symbols ∧
      (ofConstruction c).Compares (ofConstruction d) c.set d.set c.symbols d.symbols := by
  have hc := stores_ofConstruction c
  have hd := stores_ofConstruction d
  have hasC := SymbolSet.has_construction c
  have hasD := SymbolSet.has_construction d
  exact ⟨hc.tells hasC, hc.compares hd hasC hasD⟩

/-- The border is in the last word, and comes last. -/
example : ((ofConstruction
    (.union (.constant .border) (.ofBytes [0x7a, 0x61, 0x62]))).cursor.advance 3).2.next.1 =
      some 0x100 := by
  decide +kernel

end SymbolWords

end PatternGroups
