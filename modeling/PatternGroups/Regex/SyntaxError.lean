/-!
Why a regex is not accepted.
-/

namespace PatternGroups

/-- What is wrong with a regex. -/
inductive SyntaxError.Cause where
  /-- A class that no byte belongs to. -/
  | emptyClass
  /-- A class without a closing bracket. -/
  | unterminatedClass
  /-- A closing parenthesis that closes nothing. -/
  | unbalancedParenthesis
  /-- A regex without a single symbol. -/
  | emptyRegex
deriving DecidableEq

/-- A fault in a regex, and the byte at which it was found. -/
structure SyntaxError where
  cause : SyntaxError.Cause
  offset : Nat
deriving DecidableEq

namespace SyntaxError

def Cause.message : Cause → String
  | emptyClass => "empty character class"
  | unterminatedClass => "unterminated character class"
  | unbalancedParenthesis => "unbalanced parenthesis"
  | emptyRegex => "empty regex"

def message (e : SyntaxError) : String :=
  s!"{e.cause.message} at offset {e.offset}"

end SyntaxError

end PatternGroups
