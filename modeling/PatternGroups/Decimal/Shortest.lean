/-!
Decimal text of floating-point numbers: the fewest digits that read back as the number, without an
exponent. All comparisons are exact, between natural numbers.
-/

namespace PatternGroups.Decimal

/-- A positive number `significand * 2 ^ exponent`, between the neighbours that its format gives it.
The neighbour below is half as far as the one above if the significand is the least of its
binade. -/
structure Binary where
  significand : Nat
  exponent : Int
  least : Bool

/-- A number `digits * 10 ^ exponent`. -/
structure Numeral where
  digits : Nat
  exponent : Int

namespace Binary

/-- A decimal, and a number of quarters of the last binary place, on one scale. -/
def onScale (b : Binary) (d : Numeral) (quarters : Nat) : Nat × Nat :=
  ((d.digits * Nat.pow 10 d.exponent.toNat) <<< (2 - b.exponent).toNat,
    (quarters * Nat.pow 10 (-d.exponent).toNat) <<< (b.exponent - 2).toNat)

/-- Whether a decimal is closer to the number than to its neighbours. Of two equally close numbers
the one with an even significand is read. -/
def reads (b : Binary) (d : Numeral) : Bool :=
  let low := b.onScale d (4 * b.significand - if b.least then 1 else 2)
  let high := b.onScale d (4 * b.significand + 2)
  if b.significand % 2 = 0 then low.2 ≤ low.1 && high.1 ≤ high.2
  else low.2 < low.1 && high.1 < high.2

/-- The greatest decimal with a given exponent that is not above the number. -/
def below (b : Binary) (exponent : Int) : Numeral :=
  let scales := b.onScale ⟨1, exponent⟩ (4 * b.significand)
  ⟨scales.2 / scales.1, exponent⟩

/-- Whether the number is closer to a decimal than to the next with the same exponent. -/
def isCloserTo (b : Binary) (d : Numeral) : Bool :=
  let scales := b.onScale ⟨2 * d.digits + 1, d.exponent⟩ (2 * (4 * b.significand))
  scales.2 < scales.1

/-- The decimal with a given exponent that reads back as the number and is closest to it. -/
def read? (b : Binary) (exponent : Int) : Option Numeral :=
  let down := b.below exponent
  let up : Numeral := ⟨down.digits + 1, exponent⟩
  let near := if b.isCloserTo down then [down, up] else [up, down]
  near.find? b.reads

/-- The decimal with the greatest exponent that reads back, for exponents up to a given one. -/
def shortestFrom (b : Binary) : (steps : Nat) → (exponent : Int) → Numeral
  | 0, exponent => b.below exponent
  | n + 1, exponent =>
    match b.read? exponent with
    | some d => d
    | none => b.shortestFrom n (exponent - 1)

/-- No finite number of 64 bits has more than 309 digits before the point, nor needs a place beyond
the 343rd after it. -/
def shortest (b : Binary) : Numeral :=
  b.shortestFrom 652 309

end Binary

/-- The digits of a decimal with a point among them where it needs one. -/
def Numeral.text (d : Numeral) : String :=
  let digits := (Nat.repr d.digits).toList
  let places := (-d.exponent).toNat
  let padded := List.replicate (places + 1 - digits.length) '0' ++ digits
  let whole := padded.take (padded.length - places)
  let fraction := padded.drop (padded.length - places)
  String.ofList (whole ++ List.replicate d.exponent.toNat '0' ++
    if fraction.isEmpty then [] else '.' :: fraction)

/-- The magnitude of a finite number other than zero, from its 64 bits: a sign, 11 bits for the
binade, and the fraction. -/
def Binary.ofBits (bits : BitVec 64) : Binary :=
  let fraction := bits.extractLsb' 0 52
  let binade := (bits.extractLsb' 52 11).toNat
  if binade = 0 then ⟨fraction.toNat, -1074, false⟩
  else ⟨(1#1 ++ fraction).toNat, (binade : Int) - 1075, fraction = 0 && 1 < binade⟩

/-- The text of a number; those that are not finite have names. -/
def floatText (x : Float) : String :=
  if x.isNaN then "NaN"
  else
    let bits := x.toBits.toBitVec
    (if bits.msb then "-" else "") ++
      if x.isInf then "inf"
      else if bits.extractLsb' 0 63 = 0 then "0"
      else (Binary.ofBits bits).shortest.text

end PatternGroups.Decimal
