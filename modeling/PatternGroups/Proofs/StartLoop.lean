import PatternGroups.Proofs.Connectors
import PatternGroups.Proofs.Counting
import PatternGroups.Proofs.Pipeline

/-!
# The loop of state 0

State 0 reads any symbol and stays, and no other edge leads there. Trees are connected to accepting
states, no ε-edge leads back, a state with the future of state 0 would have an edge into it, and
state 0 is entered by one label and never split; so each stage leaves the edges into state 0 as they
were. A match may therefore begin anywhere, and no text loses one by what stands around it.

* `SparseTable.Rooted`: the edges into state 0, and what leaves them as they are;
* `rooted_ofChains`, `rooted_eliminate`: the automaton of several trees;
* `rooted_simplify`, `rooted_homogenize`, `rooted_renumber`: each stage;
* `Finds.append`, `run_subset`: longer texts;
* `contains_zero_of_active`: sets of states that are active together.
-/

namespace PatternGroups

/-! ## Edges into state 0 -/

namespace SparseTable

/-- State 0 reads any symbol and stays, and no other edge enters it. -/
structure Rooted (edges : Edges) : Prop where
  loop : edges.get? 0 0 = some .full
  only : ∀ {s label}, edges.get? s 0 = some label → s = 0

variable {edges : Edges}

theorem Rooted.label_eq (h : edges.Rooted) {s : State} {label : SymbolSet}
    (he : edges.get? s 0 = some label) : label = .full := by
  obtain rfl := h.only he
  exact Option.some.inj (he.symm.trans h.loop)

/-- Edges to other states may be added. -/
theorem Rooted.joinAll (h : edges.Rooted) {added : List (State × State × SymbolSet)}
    (elsewhere : ∀ e ∈ added, e.2.1 ≠ 0) : (edges.joinAll added).Rooted := by
  have same (s : State) : (edges.joinAll added).get? s 0 = edges.get? s 0 := by
    apply get?_joinAll_of_absent
    intro e he place
    exact elsewhere e he place.2.symm
  constructor
  · rw [same]
    exact h.loop
  · intro s label he
    rw [same] at he
    exact h.only he

theorem Rooted.join (h : edges.Rooted) (s : State) {t : State} (ht : t ≠ 0)
    (label : SymbolSet) : (edges.join s t label).Rooted := by
  have one : edges.join s t label = edges.joinAll [(s, t, label)] := rfl
  rw [one]
  apply h.joinAll
  simpa using ht

/-- Any edges but the loop may be removed. -/
theorem Rooted.keep (h : edges.Rooted) (p : State → State → Bool) (hp : p 0 0 = true) :
    (edges.keep p).Rooted := by
  constructor
  · rw [get?_keep, if_pos hp]
    exact h.loop
  · intro s label he
    rw [get?_keep] at he
    split at he
    · exact h.only he
    · cases he

end SparseTable

theorem Automaton.rooted_restrict {m : Automaton} (rooted : m.edges.Rooted)
    {alive : State → Bool} (h : alive 0 = true) : (m.restrict alive).edges.Rooted := by
  have both : (alive 0 && alive 0) = true := by rw [h, Bool.and_self]
  exact rooted.keep (fun s t => alive s && alive t) both

/-! ## The automaton of several trees -/

namespace EpsilonAutomaton

variable {m : EpsilonAutomaton}

/-- What holds throughout the construction: no ε-edge leads to state 0, and no other state does. -/
structure Rooted (m : EpsilonAutomaton) : Prop where
  edges : m.edges.Rooted
  jumps : ∀ {s}, ¬m.Jump s 0
  states : 0 < m.states

theorem stable_rooted : Stable Rooted (· ≠ 0) fun _ => True := by
  constructor
  · exact fun h => ⟨h.edges, h.jumps, Nat.succ_pos _⟩
  · exact fun h => Nat.ne_of_gt h.states
  · intro m s t h ht
    by_cases hne : s = t
    · rwa [EpsilonAutomaton.jump, if_pos hne]
    · have jumps {r : State} : ¬(m.jump s t).Jump r 0 := by
        rw [jump_jump hne]
        rintro (before | ⟨_, target⟩)
        · exact h.jumps before
        · exact ht target.symm
      rw [EpsilonAutomaton.jump, if_neg hne] at jumps ⊢
      exact ⟨h.edges, jumps, h.states⟩
  · exact fun h ht _ => ⟨h.edges.join _ ht _, h.jumps, h.states⟩

theorem rooted_ofRules (n : Nat) : (ofRules n).Rooted := by
  have edges {s t : State} : (ofRules n).edges.get? s t =
      if s = 0 ∧ t = 0 then some .full else none := SparseTable.get?_join _ _ _ _ _ _
  constructor
  · constructor
    · rw [edges]
      rfl
    · intro s label he
      rw [edges] at he
      by_contra other
      simp [other] at he
  · intro s jump
    cases jump
  · exact Nat.succ_pos n

theorem rooted_ofChains (chains : List Chain) : (ofChains chains).Rooted := by
  apply stable_rooted.ofChains _ (rooted_ofRules _) Nat.succ_ne_zero
  intro chain _ node _
  apply node.every_of_forall
  rintro (_ | _) <;> trivial

theorem rooted_eliminate (h : m.Rooted) (hm : m.WellFormed) : m.eliminate.edges.Rooted := by
  have elsewhere : ∀ e ∈ m.inheritedEdges, e.2.1 ≠ 0 := by
    intro e he
    simp only [inheritedEdges, List.mem_flatMap, List.mem_map, Prod.exists,
      SparseTable.mem_row] at he
    obtain ⟨s, r, bypass, t, label, edge, rfl⟩ := he
    rintro rfl
    -- State 0 would have to be reached without a symbol.
    obtain rfl := h.edges.only edge
    obtain ⟨hne, jumps⟩ := (mem_bypasses hm).1 bypass
    rcases jumps.cases_tail with same | ⟨r, _, jump⟩
    · exact hne same.symm
    · exact h.jumps jump
  exact Automaton.rooted_restrict (m := m.bypassed) (h.edges.joinAll elsewhere) rfl

end EpsilonAutomaton

namespace Automaton

variable {m n : Automaton}

/-! ## Merging -/

section OneMerge
variable {n₁ n₂ : State}

theorem rooted_removeState (rooted : m.edges.Rooted) {s : State} (hs : s ≠ 0) :
    (m.removeState s).edges.Rooted := by
  apply rooted_restrict rooted
  simpa using hs.symm

theorem rooted_mergeSameIncoming (order : n₁ < n₂) (h : m.mergeSameIncoming? n₁ n₂ = some n)
    (rooted : m.edges.Rooted) : n.edges.Rooted := by
  obtain ⟨_, _, rfl⟩ := mergeSameIncoming?_cases h
  have second : n₂ ≠ 0 := Nat.ne_of_gt (Nat.zero_lt_of_lt order)
  apply rooted_removeState _ second
  apply rooted.joinAll
  intro e he
  obtain ⟨⟨t, label⟩, taken, rfl⟩ := List.mem_map.1 he
  rintro rfl
  exact second (rooted.only (SparseTable.mem_row.1 taken))

/-- No state has the future of state 0, since the loop would be an edge from it. -/
theorem rooted_mergeSameOutgoing (order : n₁ < n₂) (h : m.mergeSameOutgoing? n₁ n₂ = some n)
    (rooted : m.edges.Rooted) : n.edges.Rooted := by
  obtain ⟨_, same, _, rfl⟩ := mergeSameOutgoing?_cases h
  have second : n₂ ≠ 0 := Nat.ne_of_gt (Nat.zero_lt_of_lt order)
  have first : n₁ ≠ 0 := by
    rintro rfl
    have edge := (sameOutgoing_iff.1 same).2 0
    rw [rooted.loop] at edge
    exact second (rooted.only edge.symm)
  apply rooted_removeState _ second
  apply rooted.joinAll
  intro e he
  obtain ⟨_, _, rfl⟩ := List.mem_map.1 he
  exact first

end OneMerge

theorem rooted_simplify (rooted : m.edges.Rooted) : m.simplify.edges.Rooted := by
  have lasting : Lasting fun m n => m.edges.Rooted → n.edges.Rooted :=
    ⟨fun _ => id, fun first second => second ∘ first⟩
  exact lasting.of_simplify rooted_mergeSameIncoming rooted_mergeSameOutgoing m rooted

/-! ## Splitting -/

/-- All copies of state 0 stand for the label of its loop, so that there are no others. -/
theorem OneForEach.eq_zero {copies : List (SymbolSet × State)} {unused count : State}
    (h : OneForEach m copies unused count 0) (rooted : m.edges.Rooted) {x : State}
    (copy : ∃ label, (label, x) ∈ copies) : x = 0 := by
  obtain ⟨label, hx⟩ := copy
  obtain ⟨start, h0⟩ := (h.places 0).2 (.inl rfl)
  have full {l : SymbolSet} {y : State} (hy : (l, y) ∈ copies) : l = .full := by
    obtain ⟨s, edge⟩ := h.labels.1 ⟨y, hy⟩
    exact rooted.label_eq edge
  have same : copyFor 0 copies .full = 0 := full h0 ▸ h.copyFor_eq h0
  exact (full hx ▸ h.copyFor_eq hx).symm.trans same

theorem rooted_splitInto {copies : List (SymbolSet × State)} {unused count s : State}
    (h : OneForEach m copies unused count s) (hm : m.Within unused) (hs : s < unused)
    (rooted : m.edges.Rooted) : (m.splitInto s copies).edges.Rooted := by
  have start : original unused count s 0 = 0 := original_of_lt (Nat.zero_lt_of_lt hs)
  -- Nothing but state 0 stands for state 0.
  have only {x : State} (hx : original unused count s x = 0) : x = 0 := by
    by_cases split : s = 0
    · subst split
      by_cases copy : ∃ label, (label, x) ∈ copies
      · exact h.eq_zero rooted copy
      · exact (original_of_not_copy h.places copy).2.symm.trans hx
    · have other : original unused count s x ≠ s := hx ▸ Ne.symm split
      exact (original_of_ne other).symm.trans hx
  have edge {a : State} {label : SymbolSet}
      (he : (m.splitInto s copies).edges.get? a 0 = some label) :
      a = 0 ∧ label = .full := by
    obtain ⟨before, _⟩ := get?_splitInto h.places hm hs he
    rw [start] at before
    exact ⟨only (rooted.only before), rooted.label_eq before⟩
  have loop : (m.splitInto s copies).Edge 0 0 := by
    have before : m.edges.Leads (original unused count s 0) Symbol.border 0 := by
      rw [start]
      exact ⟨.full, rooted.loop, EpsilonAutomaton.contains_full_border⟩
    obtain ⟨x, hx, move⟩ := (covering_splitInto h.places hm).lifts before
    obtain rfl := only hx
    exact edge_of_leads move
  obtain ⟨label, he⟩ := loop
  constructor
  · rw [he, (edge he).2]
  · exact fun he => (edge he).1

theorem rooted_homogenize (rooted : m.edges.Rooted) : m.homogenize.edges.Rooted :=
  homogenize_keeps (P := fun m => m.edges.Rooted) rooted_splitInto rooted

/-! ## Renumbering -/

theorem rooted_renumber (rooted : m.edges.Rooted) : m.renumber.edges.Rooted := by
  have h := m.renumbers_renumber
  constructor
  · exact (h.edges 0 0 .full).2 ⟨0, 0, .refl, .refl, h.start, h.start, rooted.loop⟩
  · intro i label he
    obtain ⟨s, t, _, ht, hi, h0, edge⟩ := (h.edges i 0 label).1 he
    obtain rfl : t = 0 := h.bijective.injOn ht .refl (h0.trans h.start.symm)
    obtain rfl := rooted.only edge
    exact hi.symm.trans h.start

/-! ## Longer texts -/

/-- What is found is still found if more is read. -/
theorem Finds.append {s : State} {codes : List Nat} {id : RuleId} (h : m.Finds s codes id)
    (more : List Nat) : m.Finds s (codes ++ more) id := by
  induction h with
  | here mark => exact .here mark
  | later move _ ih => exact .later move ih

theorem reads_loop (rooted : m.edges.Rooted) (text : List Symbol) :
    m.Reads 0 (text.map Fin.val) 0 := by
  induction text with
  | nil => exact .nil 0
  | cons symbol text ih =>
    apply Reads.cons _ ih
    refine ⟨.full, rooted.loop, ?_⟩
    rw [SymbolSet.contains_full]
    exact decide_eq_true symbol.isLt

theorem run_subset (rooted : m.edges.Rooted) (before text after : List Symbol) :
    m.run (text.map Fin.val) ⊆ m.run ((before ++ text ++ after).map Fin.val) := by
  intro id found
  rw [mem_run] at found ⊢
  rw [List.map_append, List.map_append]
  exact ((reads_loop rooted before).finds found).append _

end Automaton

/-! ## Active sets -/

namespace SubsetCount

open Automaton BitTables

variable {t : BitTables} {m : Automaton} {S : BitSet}

theorem size_pos (d : t.Describes m) (rooted : m.edges.Rooted) : 0 < t.size :=
  (d.within.edge ⟨_, rooted.loop⟩).1

theorem contains_zero_of_active (d : t.Describes m) (rooted : m.edges.Rooted) (h : Active t S) :
    S.contains 0 = true := by
  have size := size_pos d rooted
  induction h with
  | refl => exact BitSet.contains_singleton.2 rfl
  | tail active next ih =>
    obtain ⟨symbol, step⟩ := next
    obtain ⟨T, hT, holds⟩ := d.step? (lt_size_of_active d size active) symbol
    obtain rfl := Option.some.inj (step.symm.trans hT)
    apply (holds.mem 0).2
    refine ⟨0, ih, .full, rooted.loop, ?_⟩
    rw [SymbolSet.contains_full]
    exact decide_eq_true symbol.isLt

end SubsetCount

/-! ## All stages -/

namespace Stages

open Automaton

variable (chains : List Chain)

theorem rooted_ofChains : ∀ m ∈ [(ofChains chains).built, (ofChains chains).simplified,
    (ofChains chains).homogenized, (ofChains chains).resimplified, (ofChains chains).renumbered],
    m.edges.Rooted := by
  have built : (ofChains chains).built.edges.Rooted := by
    rw [built_ofChains]
    exact EpsilonAutomaton.rooted_eliminate (EpsilonAutomaton.rooted_ofChains chains)
      (EpsilonAutomaton.wellFormed_ofChains chains)
  have simplified : (ofChains chains).simplified.edges.Rooted := by
    rw [simplified_ofChains]
    exact rooted_simplify built
  have homogenized : (ofChains chains).homogenized.edges.Rooted := by
    rw [homogenized_ofChains]
    exact rooted_homogenize simplified
  have resimplified : (ofChains chains).resimplified.edges.Rooted := by
    rw [resimplified_ofChains]
    exact rooted_simplify homogenized
  have renumbered : (ofChains chains).renumbered.edges.Rooted := by
    rw [renumbered_ofChains]
    exact rooted_renumber resimplified
  simp only [List.forall_mem_cons, List.not_mem_nil, false_implies, implies_true, and_true]
  exact ⟨built, simplified, homogenized, resimplified, renumbered⟩

end Stages

namespace Automaton

variable {m : Automaton}

theorem rooted_ofChains (chains : List Chain) : (ofChains chains).edges.Rooted := by
  apply Stages.rooted_ofChains chains
  simp [ofChains]

theorem stateCount_pos (rooted : m.edges.Rooted) : 0 < m.stateCount :=
  List.length_pos_of_mem (mem_states.2 (.inl ⟨0, .full, rooted.loop⟩))

/-- After each stage of the way from regexes to the last automaton, the loop of state 0 over all
symbols is the only edge into state 0, so that whatever is found in a text is found in each text
that continues it to either side. Each set that steps of the last tables lead to from the initial
one holds state 0, and a next set for each symbol. -/
theorem startLoop_ofRegexes {regexes : List String} {chains : List Chain}
    (h : Chain.ofRegexes? regexes = .ok chains) :
    (∀ m ∈ [(Stages.ofChains chains).built, (Stages.ofChains chains).simplified,
        (Stages.ofChains chains).homogenized, (Stages.ofChains chains).resimplified,
        (Stages.ofChains chains).renumbered],
      (∀ s label, m.edges.get? s 0 = some label ↔ s = 0 ∧ label = .full) ∧
        ∀ before text after : List Symbol,
          m.run (text.map Fin.val) ⊆ m.run ((before ++ text ++ after).map Fin.val)) ∧
      ∃ last tables, ofRegexes? regexes = .ok last ∧ BitTables.ofAutomaton? last = .ok tables ∧
        ∀ S, SubsetCount.Active tables S → S.contains 0 = true ∧
          ∀ symbol : Symbol, ∃ T, tables.step? S symbol.val = some T := by
  have rooted := Stages.rooted_ofChains chains
  constructor
  · intro m hm
    have start := rooted m hm
    refine ⟨fun s label => ⟨fun he => ⟨start.only he, start.label_eq he⟩, ?_⟩, run_subset start⟩
    rintro ⟨rfl, rfl⟩
    exact start.loop
  · have compiled : ofRegexes? regexes = .ok (ofChains chains) := by
      rw [ofRegexes?, h]
      rfl
    have single : ∀ t, ¬(ofChains chains).Mixed t := Stages.not_mixed_renumbered
    have numbered : (ofChains chains).firstUnused = (ofChains chains).stateCount :=
      firstUnused_eq_stateCount_iff.2 Stages.states_renumbered
    have tabulated := BitTables.ofAutomaton?_eq_ok_iff.2 ⟨single, numbered, rfl⟩
    refine ⟨_, _, compiled, tabulated, fun S active => ?_⟩
    have d := BitTables.describes_ofAutomaton tabulated
    have last := rooted_ofChains chains
    have size := SubsetCount.size_pos d last
    refine ⟨SubsetCount.contains_zero_of_active d last active, fun symbol => ?_⟩
    obtain ⟨T, hT, _⟩ := d.step? (SubsetCount.lt_size_of_active d size active) symbol
    exact ⟨T, hT⟩

/-- A regex with an optional beginning, and one that matches the empty text. -/
theorem startLoop_ofRegexes_two : ∃ chains, Chain.ofRegexes? ["(^|a)b+", "c*"] = .ok chains ∧
    (∀ m ∈ [(Stages.ofChains chains).built, (Stages.ofChains chains).simplified,
        (Stages.ofChains chains).homogenized, (Stages.ofChains chains).resimplified,
        (Stages.ofChains chains).renumbered],
      (∀ s label, m.edges.get? s 0 = some label ↔ s = 0 ∧ label = .full) ∧
        ∀ before text after : List Symbol,
          m.run (text.map Fin.val) ⊆ m.run ((before ++ text ++ after).map Fin.val)) ∧
      ∃ last tables, ofRegexes? ["(^|a)b+", "c*"] = .ok last ∧
        BitTables.ofAutomaton? last = .ok tables ∧
        ∀ S, SubsetCount.Active tables S → S.contains 0 = true ∧
          ∀ symbol : Symbol, ∃ T, tables.step? S symbol.val = some T := by
  have parsed : (Chain.ofRegexes? ["(^|a)b+", "c*"]).isOk = true := by decide +kernel
  cases h : Chain.ofRegexes? ["(^|a)b+", "c*"] with
  | error refusal => rw [h] at parsed; cases parsed
  | ok chains => exact ⟨chains, rfl, startLoop_ofRegexes h⟩

end Automaton

end PatternGroups
