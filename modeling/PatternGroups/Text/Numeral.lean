/-!
Numerals: an optional plus sign and at least one decimal digit, below `2 ^ 32`. Leading zeros are
allowed.
-/

namespace PatternGroups.Text

def digit? (byte : UInt8) : Option Nat :=
  if 0x30 ≤ byte ∧ byte ≤ 0x39 then some (byte.toNat - 0x30) else none

/-- The value of digits that follow a number already read. -/
def digitsFrom? : (value : Nat) → List UInt8 → Option Nat
  | value, [] => some value
  | value, byte :: rest => do digitsFrom? (10 * value + (← digit? byte)) rest

def unsigned? : List UInt8 → Option Nat
  | [] => none
  | digits => (digitsFrom? 0 digits).filter (· < UInt32.size)

def numeral? : List UInt8 → Option Nat
  | 0x2b :: digits => unsigned? digits
  | digits => unsigned? digits

/-- The value of a hexadecimal digit of either case. -/
def hexDigit? (byte : UInt8) : Option UInt8 :=
  if 0x30 ≤ byte ∧ byte ≤ 0x39 then some (byte - 0x30)
  else if 0x41 ≤ byte ∧ byte ≤ 0x46 then some (byte - 0x41 + 10)
  else if 0x61 ≤ byte ∧ byte ≤ 0x66 then some (byte - 0x61 + 10)
  else none

end PatternGroups.Text
