import PatternGroups.Regex.Expr

/-!
Syntax trees. A tree is a chain of nodes, matched one after the other; a node is a set of symbols
or a group of alternative chains, and carries its own repetition. Trees are simplified as they are
built from expressions: a lone alternative joins the chain around it, a repetition of a lone node
becomes its own, and empty alternatives make a group optional.
-/

namespace PatternGroups

inductive Node where
  | leaf (symbols : SymbolSet) (bounds : Bounds)
  | group (alternatives : List (List Node)) (bounds : Bounds)

/-- Nodes matched one after the other. -/
abbrev Chain := List Node

namespace Node

def bounds : Node → Bounds
  | leaf _ bounds => bounds
  | group _ bounds => bounds

/-- The node with a repetition in place of its own. -/
def withBounds (bounds : Bounds) : Node → Node
  | leaf symbols _ => leaf symbols bounds
  | group alternatives _ => group alternatives bounds

/-- A repeated set; an upper bound of zero reads as one. -/
def ofSet (symbols : SymbolSet) (bounds : Bounds) : Node :=
  leaf symbols bounds.atLeastOne

/-- A repeated group; an upper bound of zero reads as one. -/
def ofAlternatives (alternatives : List Chain) (bounds : Bounds) : Node :=
  group alternatives bounds.atLeastOne

end Node

namespace Chain

/-- A lone alternative that is matched once stands on its own, and a lone node that is matched once
takes the repetition. -/
def ofLone (chain : Chain) (bounds : Bounds) : Chain :=
  if bounds.isOnce then chain
  else
    match chain with
    | [node] => if node.bounds.isOnce then [node.withBounds bounds] else [.group [chain] bounds]
    | _ => [.group [chain] bounds]

/-- Alternatives, none of them empty, as a part of the chain around them. -/
def ofAlternatives (alternatives : List Chain) (bounds : Bounds) : Chain :=
  match alternatives with
  | [] => []
  | [chain] => ofLone chain bounds.atLeastOne
  | _ => [.ofAlternatives alternatives bounds]

/-- Empty branches are left out, and make the others optional. -/
def ofBranches (branches : List Chain) : Chain :=
  ofAlternatives (branches.filter (!·.isEmpty))
    (if branches.any (·.isEmpty) then .optional else .once)

/-- A repetition of nothing is nothing. -/
def repeated (chain : Chain) (bounds : Bounds) : Chain :=
  if chain.isEmpty then [] else ofAlternatives [chain] bounds

end Chain

namespace Expr

mutual

/-- The chain of nodes that an expression contributes to the one around it. -/
def chain : Expr → Chain
  | set symbols => [.ofSet symbols .once]
  | sequence parts => chainOfParts parts
  | choice branches => .ofBranches (chains branches)
  | times body bounds => (chain body).repeated bounds

def chainOfParts : List Expr → Chain
  | [] => []
  | part :: rest => chain part ++ chainOfParts rest

def chains : List Expr → List Chain
  | [] => []
  | branch :: rest => chain branch :: chains rest

end

end Expr

namespace Chain

/-- The syntax tree of a regex, given as UTF-8. -/
def ofText? (regex : List UInt8) : Except SyntaxError Chain := do
  let items ← Item.ofText? regex
  let expr ← Expr.ofItems? items
  if expr.chain.isEmpty then .error ⟨.emptyRegex, 0⟩ else return expr.chain

def ofRegex? (regex : String) : Except SyntaxError Chain :=
  ofText? regex.toUTF8.toList

end Chain

end PatternGroups
