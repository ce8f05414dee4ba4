/-!
Text of sets of numbers.
-/

namespace PatternGroups.Text

/-- Numbers between braces, with commas between them. -/
def braced (l : List Nat) : String :=
  "\x7b" ++ ", ".intercalate (l.map Nat.repr) ++ "\x7d"

end PatternGroups.Text
