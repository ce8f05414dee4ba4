import PatternGroups.SymbolSet.Words

/-!
How sets of symbols are put together. A construction tells a set, and the words in which it is
stored.
-/

namespace PatternGroups

namespace SymbolSet

inductive Constant where
  | empty
  | full
  | border
  | anyByte
  | wordBytes
  | digitBytes
  | blankBytes
  | nonWordBytes
  | nonDigitBytes
  | nonBlankBytes
deriving DecidableEq

inductive Construction where
  | constant (name : Constant)
  | singleton (symbol : Symbol)
  | range (a b : Symbol)
  | ofBytes (bytes : List UInt8)
  | ofSymbols (symbols : List Symbol)
  | union (c d : Construction)
  | inter (c d : Construction)
  | sdiff (c d : Construction)

def Constant.set : Constant → SymbolSet
  | empty => ∅
  | full => .full
  | border => .border
  | anyByte => .anyByte
  | wordBytes => .wordBytes
  | digitBytes => .digitBytes
  | blankBytes => .blankBytes
  | nonWordBytes => .anyByte \ .wordBytes
  | nonDigitBytes => .anyByte \ .digitBytes
  | nonBlankBytes => .anyByte \ .blankBytes

def Construction.set : Construction → SymbolSet
  | constant name => name.set
  | singleton symbol => .singleton symbol
  | range a b => .range a b
  | ofBytes bytes => .ofBytes bytes
  | ofSymbols symbols => .ofSymbols symbols
  | union c d => c.set ∪ d.set
  | inter c d => c.set ∩ d.set
  | sdiff c d => c.set \ d.set

end SymbolSet

namespace SymbolWords

open SymbolSet

def ofText (text : String) : SymbolWords :=
  ofBytes (text.toList.map fun c => UInt8.ofNat c.toNat)

def anyByte : SymbolWords := range (.ofByte 0) (.ofByte 255)

def wordBytes : SymbolWords :=
  ofText "AaBbCcDdEeFfGgHhIiJjKkLlMmNnOoPpQqRrSsTtUuVvWwXxYyZz0123456789_"

def digitBytes : SymbolWords := ofText "0123456789"

def blankBytes : SymbolWords := ofBytes [0x20, 0x0c, 0x0a, 0x0d, 0x09, 0x0b]

def ofConstant : Constant → SymbolWords
  | .empty => empty
  | .full => range (.ofByte 0) .border
  | .border => singleton .border
  | .anyByte => anyByte
  | .wordBytes => wordBytes
  | .digitBytes => digitBytes
  | .blankBytes => blankBytes
  | .nonWordBytes => anyByte.sdiff wordBytes
  | .nonDigitBytes => anyByte.sdiff digitBytes
  | .nonBlankBytes => anyByte.sdiff blankBytes

/-- The words in which a set is stored. -/
def ofConstruction : Construction → SymbolWords
  | .constant name => ofConstant name
  | .singleton symbol => singleton symbol
  | .range a b => range a b
  | .ofBytes bytes => ofBytes bytes
  | .ofSymbols symbols => ofSymbols symbols
  | .union c d => (ofConstruction c).union (ofConstruction d)
  | .inter c d => (ofConstruction c).inter (ofConstruction d)
  | .sdiff c d => (ofConstruction c).sdiff (ofConstruction d)

end SymbolWords

end PatternGroups
