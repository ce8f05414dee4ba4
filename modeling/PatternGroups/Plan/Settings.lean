import PatternGroups.Refusal

/-!
Settings of a plan.
-/

namespace PatternGroups.Plan

structure Settings where
  /-- The most states that a deterministic automaton may have for each state of a group. -/
  coefficient : Float := 2.0
  /-- The most groups that are kept. -/
  groupLimit : Nat := 8
  /-- Whether regexes without a syntax tree are left out instead of refused. -/
  lenient : Bool := false

namespace Settings

/-- The coefficient is finite and not negative. -/
def misfit? (s : Settings) : Option Misfit :=
  if !s.coefficient.isFinite || s.coefficient < 0 then some (.coefficient s.coefficient) else none

/-- The most states that the deterministic automaton of a group may have: a product of 64-bit
numbers, rounded down, and limited to what 64 bits can hold. -/
def budget (s : Settings) (states : Nat) : Nat :=
  ((UInt64.ofNat states).toFloat * s.coefficient).toUInt64.toNat

end Settings

end PatternGroups.Plan
