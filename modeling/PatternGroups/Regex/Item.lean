import PatternGroups.Regex.SyntaxError
import PatternGroups.Regex.Token

/-!
Items of a regex: sets of symbols, repetitions, parentheses and bars. A class in brackets is one
set, and the anchors are the set of the border.
-/

namespace PatternGroups

inductive Item where
  | set (symbols : SymbolSet)
  | times (bounds : Bounds)
  | openGroup
  | closeGroup
  | alternate
deriving DecidableEq

namespace Item

def dash : Symbol := .ofByte 0x2d

/-- The item that a token outside of classes is on its own. -/
def ofToken? : Token → Option Item
  | .literal byte => some (.set (.singleton (.ofByte byte)))
  | .shorthand symbols => some (.set symbols)
  | .openGroup => some .openGroup
  | .closeGroup => some .closeGroup
  | .alternate => some .alternate
  | .dot => some (.set .anyByte)
  | .start | .stop => some (.set .border)
  | .times bounds => some (.times bounds)
  | .openClass _ | .closeClass | .rangeDash => none

/-- A class up to some token: where its bracket stands, what its members are so far, its last
literal byte, and whether a range dash came just now. -/
structure OpenClass where
  offset : Nat
  negated : Bool
  members : SymbolSet
  last : UInt8
  dashed : Bool

namespace OpenClass

def opened (offset : Nat) (negated : Bool) : OpenClass :=
  ⟨offset, negated, ∅, 0, false⟩

/-- The class with one token more. A dash between two literals stands for the interval, and one
before a shorthand for itself; the lexer puts no other tokens into a class. -/
def add (c : OpenClass) : Token → OpenClass
  | .literal byte =>
    let new :=
      if c.dashed then .range (.ofByte c.last) (.ofByte byte) else .singleton (.ofByte byte)
    { c with members := c.members ∪ new, last := byte, dashed := false }
  | .shorthand symbols =>
    let new := if c.dashed then .singleton dash ∪ symbols else symbols
    { c with members := c.members ∪ new, dashed := false }
  | .rangeDash => { c with dashed := true }
  | _ => c

/-- The set that a class stands for once it is closed. A negated class excludes bytes only. -/
def set (c : OpenClass) : SymbolSet :=
  if c.negated then .anyByte \ c.members else c.members

end OpenClass

/-- The items read from a regex, each with the offset of its last token, up to the fault that ended
the reading, if there is one; and the offset of the last token read. -/
structure Reading where
  items : List (Located Item)
  failure : Option SyntaxError
  offset : Nat

def Reading.cons (offset : Nat) (item : Item) (r : Reading) : Reading :=
  { r with items := ⟨offset, item⟩ :: r.items }

/-- Reads tokens, inside the class that is open, if there is one; the last token before them was
found at `offset`. -/
def readFrom : (inside : Option OpenClass) → (offset : Nat) → List (Located Token) → Reading
  | none, offset, [] => ⟨[], none, offset⟩
  | some c, offset, [] => ⟨[], some ⟨.unterminatedClass, c.offset⟩, offset⟩
  | none, _, ⟨offset, .openClass negated⟩ :: rest =>
    readFrom (some (.opened offset negated)) offset rest
  | none, _, ⟨offset, token⟩ :: rest =>
    match ofToken? token with
    | some item => (readFrom none offset rest).cons offset item
    | none => readFrom none offset rest
  | some c, _, ⟨offset, .closeClass⟩ :: rest =>
    if c.set.isEmpty then ⟨[], some ⟨.emptyClass, c.offset⟩, offset⟩
    else (readFrom none offset rest).cons offset (.set c.set)
  | some c, _, ⟨offset, token⟩ :: rest => readFrom (some (c.add token)) offset rest

/-- Reads a whole regex, given as UTF-8. -/
def read (regex : List UInt8) : Reading :=
  readFrom none 0 (Token.ofText regex)

/-- All items of a regex, or the fault in it. -/
def ofText? (regex : List UInt8) : Except SyntaxError (List (Located Item)) :=
  let reading := read regex
  match reading.failure with
  | some e => .error e
  | none => .ok reading.items

end Item

end PatternGroups
