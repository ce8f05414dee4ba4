import PatternGroups.Regex.Item

/-!
A spelling of items: sets of bytes as classes of hexadecimal escapes, in ascending order, and the
border as `^`; repetitions as bounds between braces.
-/

namespace PatternGroups

namespace Text

/-- A digit of hexadecimal numerals, whose letters may be capital ones. -/
def hexDigit (capital : Bool) (value : Nat) : Char :=
  if capital then (Nat.digitChar value).toUpper else Nat.digitChar value

end Text

namespace Bounds

/-- Bounds that can stand between braces: numerals are below `2 ^ 32`, and the upper bound is not
below the lower, so that it is zero only if both are. -/
structure Written (b : Bounds) : Prop where
  lower : b.lower < UInt32.size
  upper : ∀ upper ∈ b.upper, b.lower ≤ upper ∧ upper < UInt32.size

/-- What stands between the braces: a number that is both bounds, or else the bounds, with a comma
between them. -/
def body (b : Bounds) : List Char :=
  match b.upper with
  | none => Nat.toDigits 10 b.lower ++ [',']
  | some upper =>
    if b.lower = upper then Nat.toDigits 10 upper
    else Nat.toDigits 10 b.lower ++ ',' :: Nat.toDigits 10 upper

end Bounds

namespace Item

/-- Items that have a spelling: a set is the border, or a set of bytes that is not empty. -/
def Printable : Item → Prop
  | .set symbols =>
    symbols = .border ∨ symbols ≠ ∅ ∧ symbols.contains Symbol.border.val = false
  | .times bounds => bounds.Written
  | .openGroup | .closeGroup | .alternate => True

/-- A byte in a class. -/
def escaped (capital : Bool) (symbol : Symbol) : List Char :=
  ['\\', 'x', Text.hexDigit capital (symbol.val / 16), Text.hexDigit capital (symbol.val % 16)]

def spelling (capital : Bool) : Item → List Char
  | .set symbols =>
    if symbols = .border then ['^']
    else '[' :: (symbols.members.flatMap (escaped capital) ++ [']'])
  | .times bounds => '{' :: (bounds.body ++ ['}'])
  | .openGroup => ['(']
  | .closeGroup => [')']
  | .alternate => ['|']

/-- The spelling of items, one after the other. -/
def spelled (capital : Bool) (items : List Item) : String :=
  String.ofList (items.flatMap (spelling capital))

/-- The items of a regex, without their places. -/
def ofRegex? (regex : String) : Except SyntaxError (List Item) :=
  (ofText? regex.toUTF8.toList).map fun items => items.map (·.value)

end Item

end PatternGroups
