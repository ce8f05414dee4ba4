import PatternGroups.Automaton

/-!
Splitting of states, so that an automaton becomes homogeneous. The edges into a state are grouped by
label; the first group keeps the state, and each other group leads to a copy of it instead.
-/

namespace PatternGroups.Automaton

/-- The copies of a state, by the label of the edges that lead to each: the state itself comes
first, and the others have the numbers from `unused` on. -/
def copies (m : Automaton) (unused s : State) : List (SymbolSet × State) :=
  let labels := ((m.incoming s).map Prod.snd).eraseDups
  labels.zip (s :: List.range' unused (labels.length - 1))

/-- Edges that leave a state, for its copies: a loop leads to the copy of its own label. -/
def copiedOutgoing (m : Automaton) (s : State) (copies : List (SymbolSet × State)) :
    List (State × SymbolSet) :=
  (m.outgoing s).map fun (target, label) =>
    if target = s then ((copies.lookup label).getD target, label) else (target, label)

/-- Leads an edge into a state to the copy of its label instead. -/
def redirect (s : State) (copies : List (SymbolSet × State)) (edges : Edges)
    (edge : State × SymbolSet) : Edges :=
  let copy := (copies.lookup edge.2).getD s
  if edge.1 ≠ s ∧ copy ≠ s then (edges.erase edge.1 s).join edge.1 copy edge.2 else edges

/-- Splits a state into given copies. Each has the outgoing edges and the marks of the state. -/
def splitInto (m : Automaton) (s : State) (copies : List (SymbolSet × State)) : Automaton :=
  let redirected := (m.incoming s).foldl (redirect s copies) (m.edges.erase s s)
  let outgoing := m.copiedOutgoing s copies
  { m with
    edges := redirected.joinAll (copies.flatMap fun (_, copy) => outgoing.map (copy, ·))
    accepts := (copies.filter (·.2 ≠ s)).foldl
      (fun marks (_, copy) => (m.ruleIds s).foldl (fun marks id => marks.mark copy id) marks)
      m.accepts }

/-- Splits a state if edges with different labels enter it; new states have the numbers from
`unused` on. -/
def split (m : Automaton) (unused s : State) : Automaton × State :=
  let copies := m.copies unused s
  if copies.length < 2 then (m, unused) else (m.splitInto s copies, unused + (copies.length - 1))

/-- Splits every state that needs it. A copy adds only edges with labels that its targets receive
already, so that one sweep over the states is enough. -/
def homogenize (m : Automaton) : Automaton :=
  (m.edges.columnKeys.foldl (fun (m, unused) s => m.split unused s) (m, m.firstUnused)).1

end PatternGroups.Automaton
