import PatternGroups.BitTables
import PatternGroups.Proofs.EpsilonRuns
import PatternGroups.Proofs.Runs
import PatternGroups.Proofs.Upkeep

/-!
# What bit tables say

The tables of an automaton forget the labels of single edges. All edges into a state have one label,
so that a state is entered from a set exactly if some edge from the set leads to it and the symbol
may enter it.

* `Describes`: what the tables hold, row by row;
* `describes_ofAutomaton`: tables hold what they are made of;
* `Describes.step?`: a step of the tables is a step along edges;
* `agrees_ofAutomaton`: steps and runs of the tables are those of the automaton.
-/

namespace PatternGroups

theorem BitSet.capacity_insertAll {S : BitSet} {states : List State}
    (h : ∀ s ∈ states, s < S.capacity) : (S.insertAll states).capacity = S.capacity := by
  induction states generalizing S with
  | nil => rfl
  | cons s rest ih =>
    rw [List.forall_mem_cons] at h
    have same : (S.insert s).capacity = S.capacity := Nat.max_eq_left h.1
    have step : S.insertAll (s :: rest) = (S.insert s).insertAll rest := rfl
    rw [step, ih (fun r hr => same ▸ h.2 r hr), same]

namespace BitTables

open Automaton

variable {m : Automaton} {t : BitTables} {S : BitSet}

/-- A row of a table holds the states with a property, and has the capacity of the table. -/
structure Holds (t : BitTables) (row : BitSet) (P : State → Prop) : Prop where
  capacity : row.capacity = t.size
  mem : ∀ s, row.contains s = true ↔ P s

/-- The tables of a homogeneous automaton hold its edges, the labels of its states and its marks. -/
structure Describes (t : BitTables) (m : Automaton) : Prop where
  single : ∀ s, ¬m.Mixed s
  within : m.Within t.size
  follow : ∀ {s}, s < t.size → ∃ row, t.follow[s]? = some row ∧ t.Holds row (m.Edge s)
  precede : ∀ {s}, s < t.size →
    ∃ row, t.precede[s]? = some row ∧ t.Holds row fun r => m.Edge r s
  symbols : t.symbolMasks.size = 257
  masks : ∀ {code}, code < 257 → ∃ mask, t.symbolMasks[code]? = some mask ∧
    t.Holds mask fun s => ∃ label, m.EnteredBy s label ∧ label.contains code = true
  accepts : ∀ {s}, s < t.size → t.accepts[s]? = some (m.ruleIds s)
  acceptMask : ∀ {s}, t.acceptMask.contains s = true ↔ ∃ id, id ∈ m.ruleIds s

/-! ## Tabulation -/

theorem ofAutomaton?_eq_ok_iff : ofAutomaton? m = .ok t ↔
    (∀ s, ¬m.Mixed s) ∧ m.firstUnused = m.stateCount ∧ t = tabulate m := by
  unfold ofAutomaton?
  rw [← mixedState?_eq_none_iff]
  cases mixed : m.mixedState? with
  | some s => simp
  | none =>
    by_cases numbered : m.firstUnused = m.stateCount
    · simp [numbered, eq_comm]
    · simp [numbered]

theorem getElem?_tabulated {α : Type} (f : Nat → α) {size i : Nat} (hi : i < size) :
    ((Array.range size).map f)[i]? = some (f i) := by
  simp [hi]

theorem holds_insertAll {states : List State} {P : State → Prop}
    (h : ∀ s, s ∈ states ↔ P s) (within : ∀ s, P s → s < t.size) :
    t.Holds ((BitSet.empty t.size).insertAll states) P := by
  constructor
  · exact BitSet.capacity_insertAll fun s hs => within s ((h s).1 hs)
  · intro s
    rw [BitSet.contains_insertAll, BitSet.contains_empty, h]
    simp

/-- The label of a state is that of any edge into it. -/
theorem contains_labelOf (single : ∀ s, ¬m.Mixed s) {s : State} {code : Nat} :
    (labelOf m s).contains code = true ↔
      ∃ label, m.EnteredBy s label ∧ label.contains code = true := by
  unfold labelOf
  cases entries : m.incoming s with
  | nil =>
    simp only [List.head?_nil, Option.map_none, Option.getD_none, SymbolSet.contains_empty,
      Bool.false_eq_true, false_iff, not_exists, not_and]
    rintro label ⟨r, he⟩
    have entry := mem_incoming.2 he
    rw [entries] at entry
    cases entry
  | cons first rest =>
    have entry : m.EnteredBy s first.2 :=
      ⟨first.1, mem_incoming.1 (entries ▸ List.mem_cons_self)⟩
    simp only [List.head?_cons, Option.map_some, Option.getD_some]
    constructor
    · exact fun hc => ⟨first.2, entry, hc⟩
    · rintro ⟨label, entered, hc⟩
      rwa [label_unique single entry entered]

theorem describes_ofAutomaton (h : ofAutomaton? m = .ok t) : t.Describes m := by
  obtain ⟨single, numbered, rfl⟩ := ofAutomaton?_eq_ok_iff.1 h
  have size : (tabulate m).size = m.stateCount := rfl
  have within : m.Within (tabulate m).size := by
    rw [size, ← numbered]
    exact m.within_firstUnused
  refine ⟨single, within, ?_, ?_, ?_, ?_, ?_, ?_⟩
  · intro s hs
    exact ⟨_, getElem?_tabulated _ hs, holds_insertAll (t := tabulate m) (fun x => mem_targets)
      fun x edge => (within.edge edge).2⟩
  · intro s hs
    exact ⟨_, getElem?_tabulated _ hs, holds_insertAll (t := tabulate m) (fun x => mem_sources)
      fun x edge => (within.edge edge).1⟩
  · simp [tabulate]
  · intro code hcode
    refine ⟨_, getElem?_tabulated _ hcode, holds_insertAll (t := tabulate m) ?_ ?_⟩
    · intro s
      rw [← contains_labelOf single, List.mem_filter, List.mem_range]
      constructor
      · rintro ⟨hs, hc⟩
        rwa [getElem?_tabulated _ hs] at hc
      · intro hc
        obtain ⟨label, ⟨r, he⟩, _⟩ := (contains_labelOf single).1 hc
        have hs : s < m.stateCount := (within.edge ⟨label, he⟩).2
        exact ⟨hs, by rwa [getElem?_tabulated _ hs]⟩
    · rintro s ⟨label, ⟨r, he⟩, _⟩
      exact (within.edge ⟨label, he⟩).2
  · intro s hs
    exact getElem?_tabulated _ hs
  · intro s
    have rows : (tabulate m).acceptMask.contains s = true ↔
        (BitSet.empty m.stateCount).contains s = true ∨ s ∈ m.accepts.rowKeys :=
      BitSet.contains_insertAll
    rw [rows, BitSet.contains_empty, mem_accepts_rowKeys]
    simp

/-! ## Steps -/

/-- A union is there if all of its rows are. -/
theorem exists_unionOf? {rows : Array BitSet} {P : State → State → Prop}
    (hrows : ∀ s, S.contains s = true → ∃ row, rows[s]? = some row ∧ t.Holds row (P s)) :
    ∃ T, t.unionOf? rows S = some T ∧ t.Holds T fun x => ∃ s, S.contains s = true ∧ P s x := by
  have folded (l : List State) (hl : ∀ s ∈ l, ∃ row, rows[s]? = some row ∧ t.Holds row (P s))
      {T : BitSet} {Q : State → Prop} (hT : t.Holds T Q) :
      ∃ U, l.foldlM (fun T s => (rows[s]?).map (T ∪ ·)) T = some U ∧
        t.Holds U fun x => Q x ∨ ∃ s ∈ l, P s x := by
    induction l generalizing T Q with
    | nil => exact ⟨T, rfl, hT.capacity, fun x => by simp [hT.mem]⟩
    | cons s rest ih =>
      rw [List.forall_mem_cons] at hl
      obtain ⟨⟨row, hrow, hcap, hmem⟩, others⟩ := hl
      have joined : t.Holds (T ∪ row) fun x => Q x ∨ P s x := by
        refine ⟨?_, fun x => ?_⟩
        · rw [BitSet.capacity_union, hT.capacity, hcap, Nat.max_self]
        · rw [BitSet.contains_union, Bool.or_eq_true, hT.mem, hmem]
      obtain ⟨U, hU, holds⟩ := ih others joined
      refine ⟨U, ?_, holds.capacity, fun x => ?_⟩
      · rw [List.foldlM_cons, hrow]
        exact hU
      · simp only [holds.mem, or_assoc, List.exists_mem_cons_iff]
  have nothing : t.Holds (.empty t.size) fun _ => False := ⟨rfl, by simp⟩
  obtain ⟨T, hT, holds⟩ := folded S.members (fun s hs => hrows s (BitSet.mem_members.1 hs)) nothing
  exact ⟨T, hT, holds.capacity, fun x => by simp [holds.mem]⟩

namespace Describes

theorem successors? (d : t.Describes m) (hS : ∀ s, S.contains s = true → s < t.size) :
    ∃ T, t.successors? S = some T ∧
      t.Holds T fun x => ∃ s, S.contains s = true ∧ m.Edge s x :=
  exists_unionOf? fun s hs => d.follow (hS s hs)

/-- A state that some edge enters, and that the symbol may enter, is entered by an edge with the
symbol. -/
theorem step? (d : t.Describes m) (hS : ∀ s, S.contains s = true → s < t.size) (symbol : Symbol) :
    ∃ T, t.step? S symbol.val = some T ∧
      t.Holds T fun x => ∃ s, S.contains s = true ∧ m.edges.Leads s symbol.val x := by
  obtain ⟨U, hU, hcap, hmem⟩ := d.successors? hS
  obtain ⟨mask, hmask, _, mayEnter⟩ := d.masks symbol.isLt
  refine ⟨U ∩ mask, ?_, by rw [BitSet.capacity_inter, hcap], fun x => ?_⟩
  · rw [BitTables.step?, hU, hmask]
    rfl
  · rw [BitSet.contains_inter, Bool.and_eq_true, hmem, mayEnter]
    constructor
    · rintro ⟨⟨s, hs, label, he⟩, other, entered, hc⟩
      obtain rfl := label_unique d.single ⟨s, he⟩ entered
      exact ⟨s, hs, label, he, hc⟩
    · rintro ⟨s, hs, label, he, hc⟩
      exact ⟨⟨s, hs, label, he⟩, label, ⟨s, he⟩, hc⟩

/-! ## Runs -/

theorem mem_idsOf (d : t.Describes m) (hS : ∀ s, S.contains s = true → s < t.size) {id : RuleId} :
    id ∈ t.idsOf S ↔ ∃ s, S.contains s = true ∧ id ∈ m.ruleIds s := by
  unfold idsOf
  rw [Ascending.mem_ofList, List.mem_flatMap]
  simp only [BitSet.mem_members, BitSet.contains_inter, Bool.and_eq_true, d.acceptMask]
  constructor
  · rintro ⟨s, ⟨hs, _⟩, mark⟩
    rw [d.accepts (hS s hs), Option.getD_some] at mark
    exact ⟨s, hs, mark⟩
  · rintro ⟨s, hs, mark⟩
    refine ⟨s, ⟨hs, id, mark⟩, ?_⟩
    rwa [d.accepts (hS s hs), Option.getD_some]

/-- The sets on the way find what the states of the first set find. -/
theorem trace? (d : t.Describes m) (text : List Symbol)
    (hS : ∀ s, S.contains s = true → s < t.size) :
    ∃ sets, t.trace? S (text.map Fin.val) = some sets ∧
      ∀ id, id ∈ (S :: sets).flatMap t.idsOf ↔
        ∃ s, S.contains s = true ∧ m.Finds s (text.map Fin.val) id := by
  induction text generalizing S with
  | nil => exact ⟨[], rfl, fun id => by simp [d.mem_idsOf hS, finds_nil]⟩
  | cons symbol rest ih =>
    obtain ⟨T, hT, hcap, hmem⟩ := d.step? hS symbol
    have hT' : ∀ s, T.contains s = true → s < t.size :=
      fun s hs => hcap ▸ BitSet.lt_capacity_of_contains hs
    obtain ⟨sets, hsets, finds⟩ := ih hT'
    refine ⟨T :: sets, ?_, fun id => ?_⟩
    · rw [List.map_cons, BitTables.trace?, hT]
      simp only [bind, Option.bind, hsets]
      rfl
    · rw [List.flatMap_cons, List.mem_append, finds, d.mem_idsOf hS]
      simp only [hmem, List.map_cons, finds_cons]
      constructor
      · rintro (⟨s, hs, mark⟩ | ⟨x, ⟨s, hs, move⟩, found⟩)
        · exact ⟨s, hs, .inl mark⟩
        · exact ⟨s, hs, .inr ⟨x, move, found⟩⟩
      · rintro ⟨s, hs, mark | ⟨x, move, found⟩⟩
        · exact .inl ⟨s, hs, mark⟩
        · exact .inr ⟨x, ⟨s, hs, move⟩, found⟩

theorem run? (d : t.Describes m) (some : 0 < t.size) (text : List Symbol) :
    t.run? (text.map Fin.val) = .some (m.run (text.map Fin.val)) := by
  have initial : ∀ s, t.initial.contains s = true → s < t.size := by
    intro s hs
    rwa [BitSet.contains_singleton.1 hs]
  obtain ⟨sets, hsets, finds⟩ := d.trace? text initial
  rw [BitTables.run?, hsets]
  refine congrArg Option.some (Ascending.ofList_congr fun id => ?_)
  rw [finds, mem_idsFound]
  simp only [BitTables.initial, BitSet.contains_singleton, List.mem_singleton]

end Describes

/-- Tables of an automaton with states agree with it. Its states are the numbers below the size of
the tables. For any set of them and any symbol there is a next set, and it holds exactly the targets
of the edges with the symbol that leave a state of the set. Every text is read to its end, with the
result of the automaton. -/
theorem agrees_ofAutomaton (h : ofAutomaton? m = .ok t) (some : m.states ≠ []) :
    m.states = List.range t.size ∧
      (∀ (S : BitSet) (symbol : Symbol), (∀ s, S.contains s = true → s < t.size) →
        ∃ T, t.step? S symbol.val = .some T ∧ T.capacity = t.size ∧
          ∀ x, T.contains x = true ↔
            ∃ s, S.contains s = true ∧ m.edges.Leads s symbol.val x) ∧
      ∀ text : List Symbol, t.run? (text.map Fin.val) = .some (m.run (text.map Fin.val)) := by
  have d := describes_ofAutomaton h
  obtain ⟨_, numbered, rfl⟩ := ofAutomaton?_eq_ok_iff.1 h
  refine ⟨firstUnused_eq_stateCount_iff.1 numbered, ?_, d.run? (List.length_pos_of_ne_nil some)⟩
  intro S symbol hS
  obtain ⟨T, hT, holds⟩ := d.step? hS symbol
  exact ⟨T, hT, holds.capacity, holds.mem⟩

/-- A loop at state 1 has the label of the edge that enters it. -/
theorem agrees_ofAutomaton_loop :
    ∃ m t, m = ⟨.ofCells [⟨0, 0, .full⟩, ⟨0, 1, .singleton 97⟩, ⟨1, 1, .singleton 97⟩],
        .ofCells [⟨1, 1, ()⟩], 1⟩ ∧
      ofAutomaton? m = .ok t ∧ m.states ≠ [] ∧
      t.run? [98, 97] = some (m.run [98, 97]) ∧
      ∃ T, t.step? (.singleton 1 2) 97 = some T ∧
        ∀ x, T.contains x = true ↔
          ∃ s, (BitSet.singleton 1 2).contains s = true ∧ m.edges.Leads s 97 x := by
  have made : (ofAutomaton? ⟨.ofCells [⟨0, 0, .full⟩, ⟨0, 1, .singleton 97⟩,
      ⟨1, 1, .singleton 97⟩], .ofCells [⟨1, 1, ()⟩], 1⟩).isOk = true := by decide +kernel
  cases h : ofAutomaton? ⟨.ofCells [⟨0, 0, .full⟩, ⟨0, 1, .singleton 97⟩,
      ⟨1, 1, .singleton 97⟩], .ofCells [⟨1, 1, ()⟩], 1⟩ with
  | error refusal => rw [h] at made; cases made
  | ok t =>
    obtain ⟨states, steps, runs⟩ := agrees_ofAutomaton h (by decide +kernel)
    have size : t.size = 2 := by
      have count := congrArg List.length states
      rw [List.length_range] at count
      rw [← count]
      decide +kernel
    have within : ∀ s, (BitSet.singleton 1 2).contains s = true → s < t.size := by
      intro s hs
      rw [BitSet.contains_singleton.1 hs, size]
      decide
    obtain ⟨T, hT, _, members⟩ := steps (.singleton 1 2) 97 within
    exact ⟨_, t, rfl, h, by decide +kernel, runs [98, 97], T, hT, members⟩

end BitTables

end PatternGroups
