import PatternGroups.Regex.Item

/-!
Regexes as expressions. Items are read as a grammar: an expression is a choice between branches, a
branch a sequence of parts, and a part a set or an expression in parentheses, followed by any number
of repetitions, the innermost first. Parentheses left open are closed at the end; a repetition at
the beginning of a branch repeats nothing and is left out.
-/

namespace PatternGroups

inductive Expr where
  | set (symbols : SymbolSet)
  | sequence (parts : List Expr)
  | choice (branches : List Expr)
  | times (body : Expr) (bounds : Bounds)

namespace Expr

/-- An expression in the making: its complete branches and the parts of the branch after them, in
both cases the last first. -/
structure Frame where
  branches : List Expr
  parts : List Expr

namespace Frame

def empty : Frame := ⟨[], []⟩

def add (f : Frame) (part : Expr) : Frame :=
  { f with parts := part :: f.parts }

/-- Repeats the last part. -/
def repeatLast (f : Frame) (bounds : Bounds) : Frame :=
  match f.parts with
  | [] => f
  | part :: before => { f with parts := part.times bounds :: before }

/-- Ends the branch. -/
def alternate (f : Frame) : Frame :=
  ⟨.sequence f.parts.reverse :: f.branches, []⟩

def close (f : Frame) : Expr :=
  .choice f.alternate.branches.reverse

/-- Closes a frame and all those around it. -/
def closeAll : (inner : Frame) → (outer : List Frame) → Expr
  | inner, [] => inner.close
  | inner, frame :: outer => closeAll (frame.add inner.close) outer

end Frame

/-- Reads items into the innermost of the frames that are open. -/
def readFrom : (inner : Frame) → (outer : List Frame) → List (Located Item) →
    Except SyntaxError Expr
  | inner, outer, [] => .ok (inner.closeAll outer)
  | inner, outer, ⟨offset, item⟩ :: rest =>
    match item, outer with
    | .set symbols, _ => readFrom (inner.add (.set symbols)) outer rest
    | .times bounds, _ => readFrom (inner.repeatLast bounds) outer rest
    | .alternate, _ => readFrom inner.alternate outer rest
    | .openGroup, _ => readFrom .empty (inner :: outer) rest
    | .closeGroup, frame :: outer => readFrom (frame.add inner.close) outer rest
    | .closeGroup, [] => .error ⟨.unbalancedParenthesis, offset⟩

/-- The expression that the items spell, unless a parenthesis closes nothing. -/
def ofItems? (items : List (Located Item)) : Except SyntaxError Expr :=
  readFrom .empty [] items

end Expr

end PatternGroups
