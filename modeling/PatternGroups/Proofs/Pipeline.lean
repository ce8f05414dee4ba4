import PatternGroups.Proofs.Formation
import PatternGroups.Proofs.Stages
import PatternGroups.Proofs.Tables

/-!
# Nothing is wrong on the way

The automaton of several trees is in order and connected from the start, and each stage keeps it so.
Homogeneity is established on the way and kept from there on, so that the last automaton has tables.

* `Stages.Sound`: what is kept throughout;
* `states_renumbered`, `not_mixed_renumbered`: the last automaton;
* `no_defect_ofRegexes`: what is known of the automata of regexes;
* `numbers_ofRegexes`: the ids of the last automaton are those of the regexes.
-/

namespace PatternGroups

namespace Stages

open Automaton

variable {chains : List Chain}

/-- What is kept throughout, together with the number of rules. -/
structure Sound (chains : List Chain) (m : Automaton) : Prop where
  rules : m.rules = chains.length
  order : m.InOrder
  connected : m.Connected

theorem Sound.kept {m n : Automaton} (h : Sound chains m) (keeps : Keeps m n) :
    Sound chains n := by
  obtain ⟨order, connected⟩ := keeps.order h.order h.connected
  exact ⟨keeps.rules.trans h.rules, order, connected⟩

variable (formed : ∀ chain ∈ chains, chain.Formed SymbolSet.Inhabited)

include formed

theorem sound_built : Sound chains (ofChains chains).built := by
  rw [built_ofChains]
  exact ⟨(EpsilonAutomaton.labelled_ofChains formed).count,
    EpsilonAutomaton.inOrder_eliminate formed, EpsilonAutomaton.connected_eliminate _⟩

theorem sound_simplified : Sound chains (ofChains chains).simplified := by
  rw [simplified_ofChains]
  exact (sound_built formed).kept (keeps_simplify _)

theorem sound_homogenized : Sound chains (ofChains chains).homogenized := by
  rw [homogenized_ofChains]
  exact (sound_simplified formed).kept (keeps_homogenize _)

theorem sound_resimplified : Sound chains (ofChains chains).resimplified := by
  rw [resimplified_ofChains]
  exact (sound_homogenized formed).kept (keeps_simplify _)

theorem sound_renumbered : Sound chains (ofChains chains).renumbered := by
  rw [renumbered_ofChains]
  exact (sound_resimplified formed).kept (keeps_renumber _)

omit formed

theorem states_renumbered : (ofChains chains).renumbered.states =
    List.range (ofChains chains).renumbered.stateCount := by
  rw [renumbered_ofChains]
  exact states_renumber _

/-- What was made homogeneous stays so. -/
theorem not_mixed_renumbered (t : State) : ¬(ofChains chains).renumbered.Mixed t := by
  have homogenized : ∀ t, ¬(ofChains chains).homogenized.Mixed t := by
    rw [homogenized_ofChains]
    exact not_mixed_homogenize _
  rw [renumbered_ofChains, resimplified_ofChains]
  exact ((keeps_simplify _).trans (keeps_renumber _)).homogeneous homogenized t

end Stages

namespace Automaton

/-- Nothing is wrong after any stage of the way from regexes to the last automaton. The last
automaton is homogeneous, its states are the numbers below their count, exactly the ids of the
regexes are present, and it has tables. -/
theorem no_defect_ofRegexes {regexes : List String} {chains : List Chain}
    (h : Chain.ofRegexes? regexes = .ok chains) :
    (∀ m ∈ [(Stages.ofChains chains).built, (Stages.ofChains chains).simplified,
        (Stages.ofChains chains).homogenized, (Stages.ofChains chains).resimplified,
        (Stages.ofChains chains).renumbered], m.defect? = none) ∧
      ∃ last, ofRegexes? regexes = .ok last ∧ last.isHomogeneous = true ∧
        last.states = List.range last.stateCount ∧
        (∀ id, (∃ s, id ∈ last.ruleIds s) ↔ 1 ≤ id ∧ id ≤ regexes.length) ∧
        ∃ tables, BitTables.ofAutomaton? last = .ok tables := by
  have formed := Chain.formed_ofRegexes h
  have compiled : ofRegexes? regexes = .ok (ofChains chains) := by
    rw [ofRegexes?, h]
    rfl
  have single : ∀ t, ¬(ofChains chains).Mixed t := Stages.not_mixed_renumbered
  have states : (ofChains chains).states = List.range (ofChains chains).stateCount :=
    Stages.states_renumbered
  have numbered := firstUnused_eq_stateCount_iff.2 states
  have last := Stages.sound_renumbered formed
  refine ⟨?_, _, compiled, isHomogeneous_iff.2 single, states, ?_, _,
    BitTables.ofAutomaton?_eq_ok_iff.2 ⟨single, numbered, rfl⟩⟩
  · simp only [List.forall_mem_cons, defect?_eq_none_iff, List.not_mem_nil, false_implies,
      implies_true, and_true]
    exact ⟨(Stages.sound_built formed).order, (Stages.sound_simplified formed).order,
      (Stages.sound_homogenized formed).order, (Stages.sound_resimplified formed).order,
      last.order⟩
  · intro id
    rw [(Chain.forall₂_ofRegexes h).length_eq, ← last.rules]
    exact last.order.ids

/-- A regex that matches the empty text, and one with a class and a repetition. -/
theorem no_defect_ofRegexes_two :
    ∃ chains, Chain.ofRegexes? ["a*", "[^b]c+|^d"] = .ok chains ∧
      (∀ m ∈ [(Stages.ofChains chains).built, (Stages.ofChains chains).simplified,
          (Stages.ofChains chains).homogenized, (Stages.ofChains chains).resimplified,
          (Stages.ofChains chains).renumbered], m.defect? = none) ∧
        ∃ last, ofRegexes? ["a*", "[^b]c+|^d"] = .ok last ∧ last.isHomogeneous = true ∧
          last.states = List.range last.stateCount ∧
          (∀ id, (∃ s, id ∈ last.ruleIds s) ↔ 1 ≤ id ∧ id ≤ 2) ∧
          ∃ tables, BitTables.ofAutomaton? last = .ok tables := by
  have parsed : (Chain.ofRegexes? ["a*", "[^b]c+|^d"]).isOk = true := by decide +kernel
  cases h : Chain.ofRegexes? ["a*", "[^b]c+|^d"] with
  | error refusal => rw [h] at parsed; cases parsed
  | ok chains => exact ⟨chains, rfl, no_defect_ofRegexes h⟩

end Automaton

/-! ## Ids and regexes -/

/-- A regex has a word that is a factor of a text. -/
def HasMatch (regex : String) (text : List Symbol) : Prop :=
  ∃ chain, Chain.ofRegex? regex = .ok chain ∧
    ∃ factor, factor <:+: text.map Fin.val ∧ factor ∈ chainLanguage chain

namespace Automaton

/-- The ids of an automaton number the regexes that it was made of, from 1 on: an id is found in
each text in which its regex has a match. Whatever is found is found from a state that is or became
part of state 0, and its regex has a match in the text that led to this state, continued. -/
structure Numbers (m : Automaton) (regexes : List String) : Prop where
  ids : ∀ id, (∃ s, id ∈ m.ruleIds s) ↔ 1 ≤ id ∧ id ≤ regexes.length
  found : ∀ text i (h : i < regexes.length), HasMatch regexes[i] text →
    i + 1 ∈ m.run (text.map Fin.val)
  only : ∀ text, ∀ id ∈ m.run (text.map Fin.val), ∃ i, ∃ h : i < regexes.length, id = i + 1 ∧
    ∃ chains, Chain.ofRegexes? regexes = .ok chains ∧
      ∃ s, (Stages.ofChains chains).JoinsStart s ∧
        (Stages.ofChains chains).built.Finds s (text.map Fin.val) id ∧
        ∀ before : List Symbol, (Stages.ofChains chains).built.Reads 0 (before.map Fin.val) s →
          HasMatch regexes[i] (before ++ text)

/-- What the first automaton finds from state 0. -/
theorem finds_built_iff {regexes : List String} {chains : List Chain}
    (h : Chain.ofRegexes? regexes = .ok chains) {text : List Symbol} {id : RuleId} :
    (Stages.ofChains chains).built.Finds 0 (text.map Fin.val) id ↔
      ∃ i, ∃ h : i < regexes.length, id = i + 1 ∧ HasMatch regexes[i] text := by
  have each := Chain.forall₂_ofRegexes h
  have wellFormed := EpsilonAutomaton.wellFormed_ofChains chains
  have tree {i : Nat} (hr : i < regexes.length) (hc : i < chains.length) :
      Chain.ofRegex? regexes[i] = .ok chains[i] := (List.forall₂_iff_get.1 each).2 i hr hc
  rw [Stages.built_ofChains, ← mem_run, EpsilonAutomaton.run_eliminate wellFormed,
    EpsilonAutomaton.mem_run wellFormed,
    EpsilonAutomaton.finds_ofChains_iff EpsilonAutomaton.code_lt_of_mem_text]
  constructor
  · rintro ⟨i, hc, rfl, word⟩
    have hr : i < regexes.length := each.length_eq ▸ hc
    exact ⟨i, hr, rfl, chains[i], tree hr hc, word⟩
  · rintro ⟨i, hr, rfl, chain, read, word⟩
    have hc : i < chains.length := each.length_eq ▸ hr
    obtain rfl : chains[i] = chain := Except.ok.inj ((tree hr hc).symm.trans read)
    exact ⟨i, hc, rfl, word⟩

theorem numbers_ofRegexes {regexes : List String} {chains : List Chain}
    (h : Chain.ofRegexes? regexes = .ok chains) : (ofChains chains).Numbers regexes := by
  have sound := Stages.sound_renumbered (Chain.formed_ofRegexes h)
  have ids (id : RuleId) : (∃ s, id ∈ (ofChains chains).ruleIds s) ↔
      1 ≤ id ∧ id ≤ regexes.length := by
    rw [(Chain.forall₂_ofRegexes h).length_eq, ← sound.rules]
    exact sound.order.ids
  constructor
  · exact ids
  · intro text i hi word
    exact (Stages.mem_run_renumbered chains).2
      ⟨0, Stages.joinsStart_zero chains, (finds_built_iff h).2 ⟨i, hi, rfl, word⟩⟩
  · intro text id hid
    obtain ⟨first, last⟩ := (ids id).1 (mem_run.1 hid).exists_mark
    have place : id - 1 + 1 = id := Nat.sub_add_cancel first
    obtain ⟨s, joins, finds⟩ := (Stages.mem_run_renumbered chains).1 hid
    refine ⟨id - 1, place.symm ▸ last, place.symm, chains, h, s, joins, finds, fun before way => ?_⟩
    -- The text that leads to the state and what follows are one text, read from state 0 on.
    have whole := way.finds finds
    rw [← List.map_append] at whole
    obtain ⟨i, hi, same, word⟩ := (finds_built_iff h).1 whole
    obtain rfl : id - 1 = i := Nat.succ.inj (place.trans same)
    exact word

end Automaton

end PatternGroups
