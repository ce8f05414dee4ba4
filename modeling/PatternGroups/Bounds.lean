/-!
How often a part of a pattern may occur in a row.
-/

namespace PatternGroups

/-- From `lower` to `upper` occurrences in a row; without an upper bound, any number from `lower`
on. -/
structure Bounds where
  lower : Nat
  upper : Option Nat
deriving DecidableEq, Inhabited

namespace Bounds

def once : Bounds := ⟨1, some 1⟩
def optional : Bounds := ⟨0, some 1⟩
def plus : Bounds := ⟨1, none⟩
def star : Bounds := ⟨0, none⟩

def isOnce (b : Bounds) : Bool := b == once

/-- Nothing is repeated at most zero times: an upper bound of zero reads as one. -/
def atLeastOne (b : Bounds) : Bounds :=
  { b with upper := b.upper.map (max 1) }

/-- Nothing for a single occurrence, `{3}` for a fixed number, else both bounds. -/
def text (b : Bounds) : String :=
  match b.upper with
  | some upper =>
    if upper = b.lower then
      if upper = 1 then "" else s!"\x7b{upper}\x7d"
    else s!"\x7b{b.lower},{upper}\x7d"
  | none => s!"\x7b{b.lower},∞\x7d"

end Bounds

end PatternGroups
