import PatternGroups.Automaton.Stages
import PatternGroups.Proofs.Elimination
import PatternGroups.Proofs.Homogeneity
import PatternGroups.Proofs.Matching
import PatternGroups.Proofs.Renumbering
import PatternGroups.Proofs.Simplification

/-!
# What the stages find

Elimination, splitting and renumbering change no run. Merging changes none either as long as state
0 takes over no other state; a state that becomes part of state 0 is active before the first symbol,
as it was not in the automaton with ε-edges.

* `run_eliminate_ofChains`: the automaton without ε-edges, and what trimming leaves of it;
* `finds_renumbered`: the last automaton is the first one, started in all parts of state 0 at once;
* `run_ofRegexes_eq_iff`: the texts on which the first and the last automaton agree.
-/

namespace PatternGroups

namespace EpsilonAutomaton

/-- Elimination keeps all runs; each state that is left, but for state 0, has a way in from state 0
and a way out to a mark. -/
theorem run_eliminate_ofChains (chains : List Chain) :
    (∀ codes, (ofChains chains).eliminate.run codes = (ofChains chains).run codes) ∧
      ∀ s ∈ (ofChains chains).eliminate.states, s ≠ 0 →
        (ofChains chains).eliminate.Accessible s ∧ (ofChains chains).eliminate.Coaccessible s :=
  ⟨run_eliminate (wellFormed_ofChains chains), fun _ => Automaton.accessible_of_mem_trim⟩

/-- A repetition of a repetition, whose ε-edges form cycles; one state of it is left. -/
theorem run_eliminate_nested :
    (∀ codes, (ofChains [[.group [[.leaf .full .star]] .star]]).eliminate.run codes =
        (ofChains [[.group [[.leaf .full .star]] .star]]).run codes) ∧
      3 ∈ (ofChains [[.group [[.leaf .full .star]] .star]]).eliminate.states ∧
      (ofChains [[.group [[.leaf .full .star]] .star]]).eliminate.Accessible 3 ∧
      (ofChains [[.group [[.leaf .full .star]] .star]]).eliminate.Coaccessible 3 := by
  have mem : 3 ∈ (ofChains [[.group [[.leaf .full .star]] .star]]).eliminate.states := by
    decide +kernel
  obtain ⟨runs, ways⟩ := run_eliminate_ofChains [[.group [[.leaf .full .star]] .star]]
  exact ⟨runs, mem, ways 3 mem (by decide)⟩

end EpsilonAutomaton

/-! ## State 0 and what becomes part of it -/

namespace Stages

open Automaton

/-- What becomes of states on the way: they are merged, each copy has an original, and copies and
originals are merged again. -/
structure Passage (stages : Stages) (f h g : State → State) : Prop where
  merged : Merges stages.built f stages.simplified
  covering : Covering stages.homogenized stages.simplified h
  start : h 0 = 0
  remerged : Merges stages.homogenized g stages.resimplified

/-- A state of the first automaton becomes part of state 0 of the last. -/
def JoinsStart (stages : Stages) (s : State) : Prop :=
  ∃ f h g, stages.Passage f h g ∧ ∃ r, g r = 0 ∧ h r = f s

theorem Passage.finds {stages : Stages} {f h g : State → State} (passage : stages.Passage f h g)
    {codes : List Nat} {id : RuleId} :
    stages.resimplified.Finds 0 codes id ↔
      ∃ s, (∃ r, g r = 0 ∧ h r = f s) ∧ stages.built.Finds s codes id := by
  simp only [passage.remerged.finds, passage.covering.finds, passage.merged.finds]
  constructor
  · rintro ⟨r, hr, s, hs, found⟩
    exact ⟨s, ⟨r, hr, hs.symm⟩, found⟩
  · rintro ⟨s, ⟨r, hr, hs⟩, found⟩
    exact ⟨r, hr, s, hs.symm, found⟩

variable (chains : List Chain)

theorem built_ofChains :
    (ofChains chains).built = (EpsilonAutomaton.ofChains chains).eliminate := by
  simp only [ofChains]

theorem simplified_ofChains :
    (ofChains chains).simplified = (ofChains chains).built.simplify := by
  simp only [ofChains]

theorem homogenized_ofChains :
    (ofChains chains).homogenized = (ofChains chains).simplified.homogenize := by
  simp only [ofChains]

theorem resimplified_ofChains :
    (ofChains chains).resimplified = (ofChains chains).homogenized.simplify := by
  simp only [ofChains]

theorem renumbered_ofChains :
    (ofChains chains).renumbered = (ofChains chains).resimplified.renumber := by
  simp only [ofChains]

theorem exists_passage : ∃ f h g, (ofChains chains).Passage f h g := by
  obtain ⟨f, merged⟩ := merges_simplify (ofChains chains).built
  obtain ⟨h, covering, start⟩ := covering_homogenize (ofChains chains).simplified
  obtain ⟨g, remerged⟩ := merges_simplify (ofChains chains).homogenized
  rw [← simplified_ofChains] at merged
  rw [← homogenized_ofChains] at covering
  rw [← resimplified_ofChains] at remerged
  exact ⟨f, h, g, merged, covering, start, remerged⟩

theorem joinsStart_zero : (ofChains chains).JoinsStart 0 := by
  obtain ⟨f, h, g, passage⟩ := exists_passage chains
  exact ⟨f, h, g, passage, 0, passage.remerged.start,
    passage.start.trans passage.merged.start.symm⟩

/-- The last automaton finds what the first one finds from state 0 and from the states that become
part of it. -/
theorem mem_run_renumbered {codes : List Nat} {id : RuleId} :
    id ∈ (ofChains chains).renumbered.run codes ↔
      ∃ s, (ofChains chains).JoinsStart s ∧ (ofChains chains).built.Finds s codes id := by
  rw [renumbered_ofChains, run_renumber, mem_run]
  constructor
  · intro found
    obtain ⟨f, h, g, passage⟩ := exists_passage chains
    obtain ⟨s, joins, before⟩ := passage.finds.1 found
    exact ⟨s, ⟨f, h, g, passage, joins⟩, before⟩
  · rintro ⟨s, ⟨f, h, g, passage, joins⟩, found⟩
    exact passage.finds.2 ⟨s, joins, found⟩

end Stages

namespace Automaton

/-- The last automaton finds all that the automaton with ε-edges finds. It finds nothing else in a
text exactly if the states that become part of state 0 find nothing else in it. -/
theorem run_ofRegexes_eq_iff {regexes : List String} {chains : List Chain}
    (h : Chain.ofRegexes? regexes = .ok chains) (codes : List Nat) :
    ∃ first last, EpsilonAutomaton.ofRegexes? regexes = .ok first ∧
      ofRegexes? regexes = .ok last ∧ first.run codes ⊆ last.run codes ∧
      (last.run codes = first.run codes ↔
        ∀ s, (Stages.ofChains chains).JoinsStart s →
          ∀ id, first.eliminate.Finds s codes id → id ∈ first.run codes) := by
  have parsed : EpsilonAutomaton.ofRegexes? regexes = .ok (.ofChains chains) := by
    rw [EpsilonAutomaton.ofRegexes?, h]
    rfl
  have compiled : ofRegexes? regexes = .ok (.ofChains chains) := by
    rw [ofRegexes?, h]
    rfl
  have found {id : RuleId} : id ∈ (EpsilonAutomaton.ofChains chains).run codes ↔
      (EpsilonAutomaton.ofChains chains).eliminate.Finds 0 codes id := by
    rw [← mem_run,
      EpsilonAutomaton.run_eliminate (EpsilonAutomaton.wellFormed_ofChains chains) codes]
  have joined {id : RuleId} : id ∈ (ofChains chains).run codes ↔
      ∃ s, (Stages.ofChains chains).JoinsStart s ∧
        (EpsilonAutomaton.ofChains chains).eliminate.Finds s codes id := by
    rw [ofChains, Stages.mem_run_renumbered, Stages.built_ofChains]
  have included : (EpsilonAutomaton.ofChains chains).run codes ⊆ (ofChains chains).run codes :=
    fun id hid => joined.2 ⟨0, Stages.joinsStart_zero chains, found.1 hid⟩
  refine ⟨_, _, parsed, compiled, included, ?_⟩
  constructor
  · intro same s joins id finds
    exact same ▸ joined.2 ⟨s, joins, finds⟩
  · intro only
    have equal {id : RuleId} : id ∈ (ofChains chains).run codes ↔
        id ∈ (EpsilonAutomaton.ofChains chains).run codes := by
      constructor
      · intro hid
        obtain ⟨s, joins, finds⟩ := joined.1 hid
        exact only s joins id finds
      · exact fun hid => included hid
    exact Ascending.ofList_congr fun id =>
      (Ascending.mem_ofList.symm.trans equal).trans Ascending.mem_ofList

/-- A regex for at least two symbols before an `a`, and the text of an `a` alone. -/
theorem run_ofRegexes_two_symbols :
    ∃ chains, Chain.ofRegexes? ["(^|.)(^|.)a"] = .ok chains ∧
      ∃ first last, EpsilonAutomaton.ofRegexes? ["(^|.)(^|.)a"] = .ok first ∧
        ofRegexes? ["(^|.)(^|.)a"] = .ok last ∧
        first.run [256, 97, 256] ⊆ last.run [256, 97, 256] ∧
        (last.run [256, 97, 256] = first.run [256, 97, 256] ↔
          ∀ s, (Stages.ofChains chains).JoinsStart s →
            ∀ id, first.eliminate.Finds s [256, 97, 256] id → id ∈ first.run [256, 97, 256]) := by
  have parsed : (Chain.ofRegexes? ["(^|.)(^|.)a"]).isOk = true := by decide +kernel
  cases h : Chain.ofRegexes? ["(^|.)(^|.)a"] with
  | error refusal => rw [h] at parsed; cases parsed
  | ok chains => exact ⟨chains, rfl, run_ofRegexes_eq_iff h [256, 97, 256]⟩

/-- The states after the first and the second of these symbols become part of state 0, so that the
last automaton finds the regex in a text that has one symbol before its `a`. -/
theorem run_ofRegexes_differs :
    (EpsilonAutomaton.ofRegexes? ["(^|.)(^|.)a"]).toOption.map (·.run [256, 97, 256]) = some [] ∧
      (ofRegexes? ["(^|.)(^|.)a"]).toOption.map (·.run [256, 97, 256]) = some [1] := by
  decide +kernel

end Automaton

end PatternGroups
