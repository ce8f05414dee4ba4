import PatternGroups.EpsilonAutomaton
import PatternGroups.Regex.Tree

/-!
Automata of syntax trees. A chain connects two states by paths over its words: its nodes follow each
other over fresh states, the alternatives of a group share their end points, and a repetition is
spelt out as copies of what is repeated. State 0 reads any symbol and stays, so that a match may
begin anywhere.
-/

namespace PatternGroups

/-- Adds paths from a source to a target. -/
abbrev Connector := (source target : State) → EpsilonAutomaton → EpsilonAutomaton

namespace Connector

variable (once : Connector)

/-- A number of copies, and then something else. -/
def leading (last : Connector) : (copies : Nat) → Connector
  | 0 => last
  | n + 1 => fun source target m =>
    let (middle, m) := m.fresh
    leading last n source middle (once middle target m)

/-- One copy, and up to `extra` more. -/
def upTo : (extra : Nat) → Connector
  | 0 => once
  | n + 1 => fun source target m =>
    let (middle, m) := (once source target m).fresh
    upTo n source middle (once middle target m)

/-- Any number of copies. -/
def star : Connector := fun source target m =>
  let (looped, m) := m.fresh
  once looped looped ((m.jump source looped).jump looped target)

/-- One copy or more. -/
def plus : Connector := fun source target m =>
  let (looped, m) := m.fresh
  once looped target (once looped looped (m.jump source looped))

/-- Two copies or more. -/
def twoOrMore : Connector := fun source target m =>
  let (looped, m) := m.fresh
  once source looped (once looped target (once looped looped m))

/-- As many copies as bounds allow; an upper bound is at least one and not below the lower. -/
def repeated (bounds : Bounds) : Connector :=
  match bounds.upper, bounds.lower with
  | none, 0 => once.star
  | none, 1 => once.plus
  | none, n + 2 => once.leading once.twoOrMore n
  | some upper, 0 => fun source target m =>
    once.upTo (upper - 1) source target (m.jump source target)
  | some upper, n + 1 => once.leading (once.upTo (upper - 1 - n)) n

end Connector

mutual

def Node.connect : Node → Connector
  | .leaf symbols bounds =>
    Connector.repeated (fun source target m => m.join source target symbols) bounds
  | .group alternatives bounds =>
    Connector.repeated (connectAlternatives alternatives) bounds

/-- Nodes one after the other. -/
def connectChain : List Node → Connector
  | [] => EpsilonAutomaton.jump
  | [node] => node.connect
  | node :: rest => fun source target m =>
    let (middle, m) := m.fresh
    connectChain rest middle target (node.connect source middle m)

/-- Alternatives side by side, the last first. -/
def connectAlternatives : List (List Node) → Connector
  | [] => fun _ _ m => m
  | chain :: rest => fun source target m =>
    connectChain chain source target (connectAlternatives rest source target m)

end

namespace EpsilonAutomaton

/-- The automaton with an accepting state for each of some rules, and nothing that leads there. -/
def ofRules (rules : Nat) : EpsilonAutomaton where
  edges := SparseTable.empty.join 0 0 .full
  jumps := .empty
  accepts := (List.range' 1 rules).foldl (fun marks i => marks.mark i i) .empty
  rules
  states := rules + 1

/-- The automaton that finds each of several trees, the last connected first. -/
def ofChains (chains : List Chain) : EpsilonAutomaton :=
  (chains.zip (List.range' 1 chains.length)).foldr
    (fun rule m => connectChain rule.1 0 rule.2 m) (ofRules chains.length)

end EpsilonAutomaton

end PatternGroups
