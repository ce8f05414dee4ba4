import PatternGroups.SymbolSet

/-!
Sets of symbols as they are stored, in five words of 64 bits. The last word has one bit for the
border, and 63 more that stand for no symbol.
-/

namespace PatternGroups

/-- Bit `j` of word `i` tells whether symbol `64 * i + j` is a member. -/
structure SymbolWords where
  words : Vector (BitVec 64) 5
deriving DecidableEq

/-- The word in which a symbol has its bit. -/
def Symbol.word (symbol : Symbol) : Fin 5 := ⟨symbol.val / 64, by omega⟩

/-- The bit of a symbol in its word. -/
def Symbol.flag (symbol : Symbol) : BitVec 64 := .twoPow 64 (symbol.val % 64)

namespace SymbolWords

def empty : SymbolWords := ⟨.replicate 5 0⟩

def add (s : SymbolWords) (symbol : Symbol) : SymbolWords :=
  ⟨s.words.set symbol.word (s.words[symbol.word] ||| symbol.flag)⟩

def addAll (s : SymbolWords) (symbols : List Symbol) : SymbolWords :=
  symbols.foldl add s

def singleton (symbol : Symbol) : SymbolWords :=
  ⟨empty.words.set symbol.word symbol.flag⟩

/-- Adds the symbols of an interval one by one. The end points may come in either order. -/
def range (a b : Symbol) : SymbolWords :=
  empty.addAll ((List.finRange 257).filter fun symbol =>
    min a.val b.val ≤ symbol.val ∧ symbol.val ≤ max a.val b.val)

def ofBytes (bytes : List UInt8) : SymbolWords :=
  empty.addAll (bytes.map Symbol.ofByte)

/-- The operations go through the words one by one. -/
def union (s t : SymbolWords) : SymbolWords :=
  ⟨s.words.zipWith (· ||| ·) t.words⟩

def inter (s t : SymbolWords) : SymbolWords :=
  ⟨s.words.zipWith (· &&& ·) t.words⟩

def sdiff (s t : SymbolWords) : SymbolWords :=
  ⟨s.words.zipWith (fun v w => v &&& ~~~w) t.words⟩

def ofSymbols (symbols : List Symbol) : SymbolWords :=
  symbols.foldl (fun s symbol => s.union (singleton symbol)) empty

/-- Numbers beyond the border have no bit to be tested. -/
def contains (s : SymbolWords) (code : Nat) : Bool :=
  match Symbol.ofNat? code with
  | some symbol => s.words[symbol.word] &&& symbol.flag != 0
  | none => false

/-- Whether a union with a set adds nothing. -/
def includes (s t : SymbolWords) : Bool := s.union t == s

def strictlyIncludes (s t : SymbolWords) : Bool := s.includes t && s != t

def isEmpty (s : SymbolWords) : Bool := s.words.all (· == 0)

/-- The number of bits in all words. -/
def count (s : SymbolWords) : Nat :=
  s.words.foldl (fun n word => n + word.cpop.toNat) 0

/-- A listing of members: the words without the bits of members that were given, and the first word
that may have more of them. -/
structure Cursor where
  words : SymbolWords
  index : Nat

def cursor (s : SymbolWords) : Cursor := ⟨s, 0⟩

namespace Cursor

/-- The lowest bit of the first word that is not zero stands for the next member, and is removed. -/
def next (c : Cursor) : Option Nat × Cursor :=
  if h : c.index < 5 then
    let word := c.words.words[c.index]
    if word = 0 then next { c with index := c.index + 1 }
    else
      (some (c.index * 64 + word.ctz.toNat),
        { c with words := ⟨c.words.words.set c.index (word &&& (word - 1))⟩ })
  else (none, c)
termination_by 5 - c.index

/-- The members that a number of calls give, and the listing after them. -/
def advance (c : Cursor) : (calls : Nat) → List Nat × Cursor
  | 0 => ([], c)
  | calls + 1 =>
    let (member, c) := c.next
    let (members, c) := c.advance calls
    (member.toList ++ members, c)

end Cursor

end SymbolWords

end PatternGroups
