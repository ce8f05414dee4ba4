import PatternGroups.SymbolSet.Label
import PatternGroups.Regex.Tree

/-!
Outlines of syntax trees: one line for each node, indented by its depth. The first node of an
alternative is marked with the alternative's number.
-/

namespace PatternGroups

def indentation (depth : Nat) : String :=
  String.ofList (List.replicate (4 * depth) ' ')

/-- The margin of a node that begins no alternative. -/
def plainMargin : String := indentation 1

/-- The margin with the number of an alternative, in two columns or more. -/
def numberMargin (number : Nat) : String :=
  let digits := (Nat.repr number).toList
  let padding := List.replicate (2 - digits.length) ' '
  String.ofList (' ' :: padding ++ digits ++ [':'])

mutual

def Node.outline (depth : Nat) (margin : String) : Node → String
  | .leaf symbols bounds => s!"{indentation depth}{margin}{symbols.label} {bounds.text}\n"
  | .group alternatives bounds =>
    s!"{indentation depth}{margin}{alternatives.length}-subs {bounds.text}\n" ++
      outlineAlternatives (depth + 1) 1 alternatives

def outlineChain (depth : Nat) (margin : String) : List Node → String
  | [] => ""
  | node :: rest => node.outline depth margin ++ outlineChain depth plainMargin rest

/-- Alternatives, numbered from `number` on. -/
def outlineAlternatives (depth number : Nat) : List (List Node) → String
  | [] => ""
  | chain :: rest =>
    outlineChain depth (numberMargin number) chain ++ outlineAlternatives depth (number + 1) rest

end

def Chain.outline (chain : Chain) : String :=
  outlineChain 0 plainMargin chain

end PatternGroups
