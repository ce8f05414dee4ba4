import PatternGroups.Proofs.Accessibility
import PatternGroups.Proofs.Rows

/-!
# Trimming

Trimming removes the states that are not kept one after the other. What lies on a way from state 0
to a mark is kept as a whole, so that no way is cut.

* `foldl_removeState`: removals one after the other restrict an automaton once;
* `IsPart`: one automaton is the part of another on some of its states, listed in the same order;
* `mem_states_trim_iff`: the states that are left;
* `trim_trim`: a second time there is nothing to trim.
-/

namespace PatternGroups

namespace Automaton

variable {m : Automaton} {alive live : State → Bool}

/-! ## Restriction to some states -/

theorem restrict_eq_keep (m : Automaton) (alive : State → Bool) : m.restrict alive =
    ⟨m.edges.keep fun s t => alive s && alive t, m.accepts.keep fun s _ => alive s, m.rules⟩ := rfl

theorem ends_mem_states {e : SparseTable.Cell State State SymbolSet} (he : e ∈ m.edges.cells) :
    e.row ∈ m.states ∧ e.column ∈ m.states := by
  have edge : m.Edge e.row e.column := ⟨e.value, SparseTable.get?_eq_some_iff.2 he⟩
  exact ⟨mem_states.2 (.inl ⟨_, edge⟩), mem_states.2 (.inr (.inl ⟨_, edge⟩))⟩

theorem marked_mem_states {e : SparseTable.Cell State RuleId Unit} (he : e ∈ m.accepts.cells) :
    e.row ∈ m.states :=
  mem_states.2 (.inr (.inr ⟨e.column, SparseTable.mem_idsOf.2 (SparseTable.get?_eq_some_iff.2 he)⟩))

theorem restrict_congr (h : ∀ s ∈ m.states, alive s = live s) :
    m.restrict alive = m.restrict live := by
  rw [restrict_eq_keep, restrict_eq_keep]
  congr 1
  · refine SparseTable.keep_congr fun e he => ?_
    rw [h _ (ends_mem_states he).1, h _ (ends_mem_states he).2]
  · exact SparseTable.keep_congr fun e he => h _ (marked_mem_states he)

theorem restrict_eq_self (h : ∀ s ∈ m.states, alive s = true) : m.restrict alive = m := by
  rw [restrict_eq_keep]
  congr 1
  · refine SparseTable.keep_eq_self fun e he => ?_
    rw [h _ (ends_mem_states he).1, h _ (ends_mem_states he).2, Bool.and_self]
  · exact SparseTable.keep_eq_self fun e he => h _ (marked_mem_states he)

theorem restrict_restrict :
    (m.restrict alive).restrict live = m.restrict fun s => alive s && live s := by
  rw [restrict_eq_keep, restrict_eq_keep, restrict_eq_keep]
  congr 1
  · rw [SparseTable.keep_keep]
    refine SparseTable.keep_congr fun e _ => ?_
    simp only [Bool.and_assoc, Bool.and_left_comm]
  · exact SparseTable.keep_keep (fun s _ => alive s) fun s _ => live s

/-- States removed one after the other. -/
theorem foldl_removeState (dead : List State) :
    dead.foldl removeState m = m.restrict fun s => decide (s ∉ dead) := by
  induction dead generalizing m with
  | nil => exact (restrict_eq_self (by simp)).symm
  | cons a dead ih =>
    rw [List.foldl_cons, ih, removeState, restrict_restrict]
    refine restrict_congr fun s _ => ?_
    simp

/-- One automaton is the part of another on some states: it has the edges between them and their
marks, and no others. They are listed in the order of the other automaton. -/
structure IsPart (n m : Automaton) (kept : State → Prop) : Prop where
  edges : ∀ {s t label},
    n.edges.get? s t = some label ↔ (kept s ∧ kept t) ∧ m.edges.get? s t = some label
  marks : ∀ {s id}, id ∈ n.ruleIds s ↔ kept s ∧ id ∈ m.ruleIds s
  edgeOrder : n.edges.entries.Sublist m.edges.entries
  incomingOrder : ∀ t, (n.incoming t).Sublist (m.incoming t)
  markOrder : n.accepts.entries.Sublist m.accepts.entries
  rules : n.rules = m.rules

theorem isPart_restrict (m : Automaton) (alive : State → Bool) :
    IsPart (m.restrict alive) m (alive · = true) where
  edges := by
    intro s t label
    rw [restrict, SparseTable.get?_keep]
    split
    · rename_i h
      simp [Bool.and_eq_true_iff.1 h]
    · rename_i h
      rw [Bool.and_eq_true] at h
      simp [h]
  marks := mem_ruleIds_restrict
  edgeOrder := by
    rw [restrict, SparseTable.entries_keep]
    exact List.filter_sublist
  incomingOrder t := by
    rw [incoming, restrict, SparseTable.column_keep]
    exact List.filter_sublist
  markOrder := by
    rw [restrict, SparseTable.entries_keep]
    exact List.filter_sublist
  rules := rfl

/-! ## Trimming -/

/-- Trimming goes through the states and removes those that it does not keep. -/
theorem trim_eq_foldl (m : Automaton) :
    m.trim = (m.states.filter fun s => !m.isKept s).foldl removeState m := by
  rw [foldl_removeState, trim_eq]
  refine restrict_congr fun s hs => ?_
  simp [List.mem_filter, hs]

theorem isPart_trim (m : Automaton) : IsPart m.trim m m.Kept := by
  have part := isPart_restrict m m.isKept
  simp only [isKept_iff] at part
  exact part

theorem mem_states_trim_iff {s : State} (hs : s ≠ 0) :
    s ∈ m.trim.states ↔ m.Accessible s ∧ m.Coaccessible s := by
  constructor
  · intro h
    exact (kept_of_mem_trim h).resolve_left hs
  · rintro ⟨accessible, coaccessible⟩
    -- The last edge of the way to the state enters it.
    rcases (trim_accessible accessible coaccessible).cases_tail with rfl | ⟨r, _, edge⟩
    · exact absurd rfl hs
    · exact mem_states.2 (.inr (.inl ⟨r, edge⟩))

theorem trim_trim (m : Automaton) : m.trim.trim = m.trim := by
  rw [trim_eq]
  refine restrict_eq_self fun s hs => isKept_iff.2 ?_
  by_cases start : s = 0
  · exact .inl start
  · exact .inr (accessible_of_mem_trim hs start)

/-- Trimming removes states one after the other, and changes no run. Besides state 0, the states
that are left are those that are accessible and lead to a mark, and they still are and do. Edges and
marks among them are as before, in the same order. A second time nothing changes. -/
theorem trim_sound (m : Automaton) :
    m.trim = (m.states.filter fun s => !m.isKept s).foldl removeState m ∧
      (∀ codes, m.trim.run codes = m.run codes) ∧
      (∀ s, s ≠ 0 → (s ∈ m.trim.states ↔ m.Accessible s ∧ m.Coaccessible s)) ∧
      (∀ s ∈ m.trim.states, s ≠ 0 → m.trim.Accessible s ∧ m.trim.Coaccessible s) ∧
      IsPart m.trim m (fun s => s = 0 ∨ m.Accessible s ∧ m.Coaccessible s) ∧
      m.trim.trim = m.trim :=
  ⟨m.trim_eq_foldl, m.run_trim, fun _ => mem_states_trim_iff,
    fun _ hs => accessible_of_mem_trim hs, m.isPart_trim, m.trim_trim⟩

/-- No way leads on from state 5 but to itself, and none leads to state 6 or state 7. -/
theorem trim_sound_dead_end : ∃ m : Automaton,
    m = ⟨.ofCells [⟨0, 0, .full⟩, ⟨1, 5, .singleton 120⟩, ⟨5, 5, .singleton 120⟩,
          ⟨0, 1, .singleton 97⟩, ⟨6, 2, .singleton 98⟩, ⟨1, 2, .singleton 98⟩],
        .ofCells [⟨7, 1, ()⟩, ⟨2, 1, ()⟩], 1⟩ ∧
      m.states = [0, 1, 2, 5, 6, 7] ∧ m.trim.states = [0, 1, 2] ∧
      (m.Accessible 2 ∧ m.Coaccessible 2) ∧ ¬(m.Accessible 5 ∧ m.Coaccessible 5) ∧
      (m.trim.Accessible 2 ∧ m.trim.Coaccessible 2) ∧
      m.trim.run [97, 98] = m.run [97, 98] ∧ m.trim.trim = m.trim := by
  obtain ⟨_, runs, left, still, _, again⟩ := trim_sound
    ⟨.ofCells [⟨0, 0, .full⟩, ⟨1, 5, .singleton 120⟩, ⟨5, 5, .singleton 120⟩,
        ⟨0, 1, .singleton 97⟩, ⟨6, 2, .singleton 98⟩, ⟨1, 2, .singleton 98⟩],
      .ofCells [⟨7, 1, ()⟩, ⟨2, 1, ()⟩], 1⟩
  refine ⟨_, rfl, by decide +kernel, by decide +kernel, (left 2 (by decide)).1 (by decide +kernel),
    fun kept => ?_, still 2 (by decide +kernel) (by decide), runs _, again⟩
  exact absurd ((left 5 (by decide)).2 kept) (by decide +kernel)

end Automaton

end PatternGroups
