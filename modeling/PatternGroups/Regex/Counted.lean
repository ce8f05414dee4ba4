import PatternGroups.Bounds
import PatternGroups.Text.Blank
import PatternGroups.Text.Numeral

/-!
The bounds of a counted repetition, as written between braces: `n`, `n,`, `,m`, `n,m` or a comma
alone, with blanks around each part. A lower bound left out is zero; an upper bound after a comma is
at least one and not below the lower.
-/

namespace PatternGroups.Bounds

def comma : UInt8 := 0x2c

/-- A numeral, or zero where there is none. -/
def lower? (text : List UInt8) : Option Nat :=
  if text.isEmpty then some 0 else Text.numeral? text

/-- The bounds written before a comma and, if there is one, after it, without blanks. -/
def ofParts? (low : List UInt8) : (high : Option (List UInt8)) → Option Bounds
  | none => (lower? low).map fun n => ⟨n, some n⟩
  | some high =>
    if high.isEmpty then (lower? low).map (⟨·, none⟩)
    else do
      let lower ← lower? low
      let upper ← Text.numeral? high
      if 0 < upper ∧ lower ≤ upper then some ⟨lower, some upper⟩ else none

/-- The bounds written in a text. -/
def ofText? (body : List UInt8) : Option Bounds :=
  let text := Text.trim body
  if text.isEmpty then none
  else
    let low := Text.trim (text.takeWhile (· != comma))
    match text.dropWhile (· != comma) with
    | [] => ofParts? low none
    | _ :: high => if high.contains comma then none else ofParts? low (some (Text.trim high))

end PatternGroups.Bounds
