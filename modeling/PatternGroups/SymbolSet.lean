/-!
Sets of symbols. A symbol is one of the 256 bytes or the border, which stands before and after
every text, so that anchors are ordinary symbols. A set is a mask of 257 bits.

Main statements:
- `SymbolSet.ext_contains`: a set is determined by its members;
- `contains_union`, `contains_inter`, `contains_sdiff`, `contains_singleton`, `contains_range`,
  `contains_anyByte`, `contains_ofSymbols`: each operation, as seen by `contains`.
-/

namespace PatternGroups

/-- The 256 bytes, followed by the border. -/
abbrev Symbol := Fin 257

namespace Symbol

/-- The symbol that stands before and after every text. -/
def border : Symbol := 256

def ofByte (byte : UInt8) : Symbol :=
  ⟨byte.toNat, Nat.lt_trans byte.toNat_lt (by decide)⟩

/-- The symbol with a given number, if there is one. -/
def ofNat? (code : Nat) : Option Symbol :=
  if h : code < 257 then some ⟨code, h⟩ else none

/-- A text as it is read by an automaton, between two borders. -/
def bordered (bytes : List UInt8) : List Symbol :=
  border :: bytes.map ofByte ++ [border]

end Symbol

/-- A set of symbols; bit `i` of the mask tells whether symbol `i` is a member. -/
structure SymbolSet where
  mask : BitVec 257
deriving DecidableEq, Hashable, Inhabited

namespace SymbolSet

/-- Membership of a symbol, given by its number. Numbers beyond the border are in no set. -/
def contains (s : SymbolSet) (code : Nat) : Bool :=
  s.mask.getLsbD code

instance : EmptyCollection SymbolSet := ⟨⟨0⟩⟩
instance : Union SymbolSet := ⟨fun s t => ⟨s.mask ||| t.mask⟩⟩
instance : Inter SymbolSet := ⟨fun s t => ⟨s.mask &&& t.mask⟩⟩
instance : SDiff SymbolSet := ⟨fun s t => ⟨s.mask &&& ~~~t.mask⟩⟩

def singleton (symbol : Symbol) : SymbolSet :=
  ⟨BitVec.twoPow 257 symbol⟩

/-- The interval from the smaller to the greater of two symbols, both included. -/
def range (a b : Symbol) : SymbolSet :=
  ⟨(BitVec.allOnes 257 <<< min a.val b.val) &&& (BitVec.allOnes 257 >>> (256 - max a.val b.val))⟩

def ofSymbols (symbols : List Symbol) : SymbolSet :=
  symbols.foldl (fun s symbol => s ∪ singleton symbol) ∅

def ofBytes (bytes : List UInt8) : SymbolSet :=
  ofSymbols (bytes.map Symbol.ofByte)

/-- Every byte and the border. -/
def full : SymbolSet := range 0 Symbol.border

def border : SymbolSet := singleton Symbol.border

def anyByte : SymbolSet := range 0 255

/-- ASCII letters, digits and the underscore. -/
def wordBytes : SymbolSet :=
  range 0x41 0x5a ∪ range 0x61 0x7a ∪ range 0x30 0x39 ∪ singleton 0x5f

def digitBytes : SymbolSet := range 0x30 0x39

/-- Tab to carriage return, and the space. -/
def blankBytes : SymbolSet := range 0x09 0x0d ∪ singleton 0x20

def isEmpty (s : SymbolSet) : Bool := s == ∅

/-- The members in ascending order. -/
def members (s : SymbolSet) : List Symbol :=
  (List.finRange 257).filter fun symbol => s.contains symbol

def count (s : SymbolSet) : Nat := s.members.length

/-- Whether every member of `s` is a member of `t`. -/
def isSubset (s t : SymbolSet) : Bool := s ∪ t == t

def isStrictSubset (s t : SymbolSet) : Bool := s.isSubset t && s != t

/-- The `i`-th group of 64 symbols, as a number. -/
def word (s : SymbolSet) (i : Nat) : Nat :=
  (s.mask.extractLsb' (64 * i) 64).toNat

/-- Sets are ordered by their groups of 64 symbols, the group of the smallest symbols first. -/
instance : Ord SymbolSet where
  compare s t := compare ((List.range 5).map s.word) ((List.range 5).map t.word)

/-- The maximal intervals that make up an ascending list of numbers. -/
def intervals : List Nat → List (Nat × Nat)
  | [] => []
  | n :: rest =>
    match intervals rest with
    | [] => [(n, n)]
    | (lo, hi) :: more => if n + 1 = lo then (n, hi) :: more else (n, n) :: (lo, hi) :: more

def ranges (s : SymbolSet) : List (Nat × Nat) :=
  intervals (s.members.map Fin.val)

theorem ext_contains {s t : SymbolSet} (h : ∀ code < 257, s.contains code = t.contains code) :
    s = t := by
  cases s; cases t
  exact congrArg mk (BitVec.eq_of_getLsbD_eq h)

@[simp] theorem contains_empty (code : Nat) : (∅ : SymbolSet).contains code = false := by
  simp [contains, EmptyCollection.emptyCollection]

@[simp] theorem contains_union (s t : SymbolSet) (code : Nat) :
    (s ∪ t).contains code = (s.contains code || t.contains code) := by
  simp [contains, Union.union]

@[simp] theorem contains_inter (s t : SymbolSet) (code : Nat) :
    (s ∩ t).contains code = (s.contains code && t.contains code) := by
  simp [contains, Inter.inter]

theorem contains_sdiff (s t : SymbolSet) (code : Nat) :
    (s \ t).contains code = (s.contains code && !t.contains code) := by
  by_cases h : code < 257
  · simp [contains, SDiff.sdiff, h]
  · simp [contains, BitVec.getLsbD_of_ge _ _ (Nat.not_lt.mp h)]

theorem contains_singleton (symbol : Symbol) (code : Nat) :
    (singleton symbol).contains code = decide (symbol.val = code) := by
  simp [contains, singleton, BitVec.getLsbD_twoPow, symbol.isLt]

theorem contains_range (a b : Symbol) (code : Nat) :
    (range a b).contains code =
      decide (min a.val b.val ≤ code ∧ code ≤ max a.val b.val) := by
  have ha := a.isLt
  have hb := b.isLt
  rw [Bool.eq_iff_iff]
  simp [contains, range, BitVec.getLsbD_shiftLeft, -BitVec.reduceAllOnes]
  omega

theorem contains_anyByte (code : Nat) : anyByte.contains code = decide (code < 256) := by
  rw [anyByte, contains_range, decide_eq_decide]
  exact ⟨fun h => Nat.lt_succ_of_le h.2, fun h => ⟨Nat.zero_le _, Nat.le_of_lt_succ h⟩⟩

theorem contains_ofSymbols (symbols : List Symbol) (code : Nat) :
    (ofSymbols symbols).contains code = symbols.any fun symbol => decide (symbol.val = code) := by
  suffices h : ∀ s : SymbolSet,
      (symbols.foldl (fun s symbol => s ∪ singleton symbol) s).contains code =
        (s.contains code || symbols.any fun symbol => decide (symbol.val = code)) by
    simpa [ofSymbols] using h ∅
  induction symbols with
  | nil => simp
  | cons symbol rest ih =>
    intro s
    simp [ih, contains_singleton, Bool.or_assoc]

end SymbolSet

end PatternGroups
