import PatternGroups.EpsilonAutomaton.Construction
import PatternGroups.EpsilonAutomaton.Elimination
import PatternGroups.Automaton.Merge
import PatternGroups.Automaton.Renumber
import PatternGroups.Automaton.Split

/-!
From syntax trees to a small homogeneous automaton whose states are the numbers below their count.
-/

namespace PatternGroups

/-- The automata on the way, in order. -/
structure Stages where
  built : Automaton
  simplified : Automaton
  homogenized : Automaton
  resimplified : Automaton
  renumbered : Automaton

def Stages.ofChains (chains : List Chain) : Stages :=
  let built := (EpsilonAutomaton.ofChains chains).eliminate
  let simplified := built.simplify
  let homogenized := simplified.homogenize
  let resimplified := homogenized.simplify
  { built, simplified, homogenized, resimplified, renumbered := resimplified.renumber }

/-- The syntax trees of several regexes, or the first fault among them. -/
def Chain.ofRegexes? (regexes : List String) : Except Refusal (List Chain) :=
  regexes.zipIdx.mapM fun (regex, index) => (Chain.ofRegex? regex).mapError (.regex index regex)

def EpsilonAutomaton.ofRegexes? (regexes : List String) : Except Refusal EpsilonAutomaton :=
  (Chain.ofRegexes? regexes).map .ofChains

namespace Automaton

def ofChains (chains : List Chain) : Automaton := (Stages.ofChains chains).renumbered

def ofRegexes? (regexes : List String) : Except Refusal Automaton :=
  (Chain.ofRegexes? regexes).map .ofChains

end Automaton

end PatternGroups
