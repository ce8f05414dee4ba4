import PatternGroups.Plan.Event
import PatternGroups.Plan.Settings
import PatternGroups.PrefixParts
import PatternGroups.Sorting

/-!
Plans for running many regexes. In sorted order, each regex joins the first group whose automaton,
with the regex added, still has a deterministic automaton within the budget. Regexes that fit into
no group, and the groups beyond the number kept, share one residual automaton.
-/

namespace PatternGroups.Plan

/-- A regex with its syntax tree, and its position among those that have one. -/
structure Rule where
  index : Nat
  regex : String
  tree : Chain

/-- A regex without a syntax tree, and its position among all. -/
structure Fault where
  index : Nat
  regex : String
  cause : SyntaxError

/-- Regexes in ascending order, each once. -/
def distinct (regexes : List String) : List String :=
  (PrefixParts.sort regexes).eraseReps

def rulesOf (regexes : List String) : List Rule :=
  let read := regexes.filterMap fun regex => (Chain.ofRegex? regex).toOption.map (regex, ·)
  read.zipIdx.map fun ((regex, tree), index) => ⟨index, regex, tree⟩

def faultsOf (regexes : List String) : List Fault :=
  regexes.zipIdx.filterMap fun (regex, index) =>
    match Chain.ofRegex? regex with
    | .ok _ => none
    | .error cause => some ⟨index, regex, cause⟩

/-- A group in the making, with the sizes of its automata. -/
structure Draft where
  rules : List Rule
  states : Nat
  subsets : Nat

def Draft.empty : Draft := ⟨[], 0, 0⟩

/-- What comes of some rules as a group: the number of states of their automaton, the number of
subsets that a budget allows, and the number found. -/
structure Trial where
  stages : Stages
  states : Nat
  budget : Nat
  count : SubsetCount

def Trial.of? (settings : Settings) (rules : List Rule) : Except Refusal Trial := do
  let stages := Stages.ofChains (rules.map (·.tree))
  let tables ← BitTables.ofAutomaton? stages.renumbered
  let budget := settings.budget tables.size
  return ⟨stages, tables.size, budget, .count tables (some budget)⟩

def Trial.log (t : Trial) : List Event :=
  t.stages.log ++ if t.count.complete then [] else [.aborted t.count.subsets t.budget]

/-- Adds a rule to the first of the groups `after` that has room for it, and gives all groups then,
if there is one. -/
def place? (settings : Settings) (rule : Rule) :
    (before after : List Draft) → Except Refusal (Option (List Draft) × List Event)
  | _, [] => .ok (none, [])
  | before, draft :: after => do
    let rules := draft.rules ++ [rule]
    let trial ← Trial.of? settings rules
    if trial.count.complete then
      let joined : Draft := ⟨rules, trial.states, trial.count.subsets⟩
      let event := Event.joined rule.index trial.states trial.count.subsets
      return (some (before ++ joined :: after), trial.log ++ [event])
    else
      let (groups, log) ← place? settings rule (before ++ [draft]) after
      return (groups, trial.log ++ log)

/-- Groups by descending size of their automata, the last of them empty, so that a rule can begin a
group. -/
def arrange (groups : List Draft) : List Draft :=
  let sorted := Sorting.sort (fun a b => decide (b.states ≤ a.states)) groups
  if sorted.getLast?.any (·.rules.isEmpty) then sorted else sorted ++ [.empty]

/-- Groups and residual rules when some rules have been considered. -/
structure Progress where
  groups : List Draft
  residual : List Rule
  log : List Event

def Progress.add (settings : Settings) (p : Progress) (rule : Rule) : Except Refusal Progress := do
  match ← place? settings rule [] p.groups with
  | (some groups, log) => return ⟨arrange groups, p.residual, p.log ++ log⟩
  | (none, log) => return ⟨p.groups, p.residual ++ [rule], p.log ++ log⟩

/-- Considers all rules, in order. -/
def Progress.ofRules? (settings : Settings) (rules : List Rule) : Except Refusal Progress :=
  rules.foldlM (Progress.add settings) ⟨[.empty], [], []⟩

/-- Regexes meant for one deterministic automaton, with the number of states of their
nondeterministic automaton, and of the subsets of these that occur. -/
structure Group where
  regexes : List String
  states : Nat
  subsets : Nat

end Plan

/-- Groups by descending size of their automata; the regexes left to one nondeterministic automaton;
and the regexes left out. -/
structure Plan where
  groups : List Plan.Group
  residual : List String
  residualAutomaton : Automaton
  skipped : List String
  log : List Plan.Event

namespace Plan

/-- The log of the groups that are kept. -/
def groupLog (groups : List Draft) : List Event :=
  let each := groups.zipIdx.map fun (d, i) => Event.group i d.rules.length d.states d.subsets
  let sum (f : Draft → Nat) : Nat := groups.foldl (fun n d => n + f d) 0
  each ++ [.total groups.length (sum (·.rules.length)) (sum (·.states)) (sum (·.subsets))]

/-- The plan when all rules have been considered: the rules of groups beyond the number kept join
the residual ones. -/
def ofProgress (settings : Settings) (faults : List Fault) (p : Progress) : Plan :=
  let groups := p.groups.filter (!·.rules.isEmpty)
  let kept := groups.take settings.groupLimit
  let demoted := groups.drop settings.groupLimit
  let residual := Sorting.sort (fun a b => decide (a.index ≤ b.index))
    (p.residual ++ demoted.flatMap (·.rules))
  let stages := Stages.ofChains (residual.map (·.tree))
  { groups := kept.map fun d => ⟨d.rules.map (·.regex), d.states, d.subsets⟩
    residual := residual.map (·.regex)
    residualAutomaton := stages.renumbered
    skipped := faults.map (·.regex)
    log := faults.map (fun f => .skipped f.index f.regex f.cause) ++ p.log ++
      demoted.map (fun d => .demoted d.rules.length d.states d.subsets) ++
      groupLog kept ++ stages.log ++ [.residual stages.renumbered] }

/-- Plans for regexes. Only their set matters, not their order or number. -/
def ofRegexes? (settings : Settings) (regexes : List String) : Except Refusal Plan := do
  if let some misfit := settings.misfit? then throw (.misfit misfit)
  let sorted := distinct regexes
  let faults := faultsOf sorted
  if !settings.lenient then
    if let some fault := faults.head? then throw (.regex fault.index fault.regex fault.cause)
  return ofProgress settings faults (← Progress.ofRules? settings (rulesOf sorted))

end Plan

end PatternGroups
