import PatternGroups.Automaton.Trim
import PatternGroups.Proofs.Reachability
import PatternGroups.Proofs.Runs

/-!
# Accessible and coaccessible states

A state is accessible if edges lead to it from state 0, and coaccessible if edges lead from it to a
mark. Trimming keeps these states, and state 0.

* `mem_states`, `edge_iff_carries`: states and edges as a table of edges has them;
* `finds_trim`: an accessible state finds the same rules after trimming;
* `trim_accessible`, `trim_coaccessible`: the states that are left keep their ways in and out.
-/

namespace PatternGroups.Automaton

open Relation

variable {m : Automaton}

/-- An edge, whatever its label. -/
def Edge (m : Automaton) (s t : State) : Prop := ∃ label, m.edges.get? s t = some label

def Accessible (m : Automaton) (s : State) : Prop := ReflTransGen m.Edge 0 s

def Coaccessible (m : Automaton) (s : State) : Prop :=
  ∃ t, ReflTransGen m.Edge s t ∧ ∃ id, id ∈ m.ruleIds t

theorem edge_of_leads {s t : State} {code : Nat} (h : m.edges.Leads s code t) : m.Edge s t := by
  obtain ⟨label, he, _⟩ := h
  exact ⟨label, he⟩

theorem edge_iff_carries {s t : State} :
    m.Edge s t ↔ m.edges.Carries (fun _ => True) s t := by
  simp only [Edge, SparseTable.Carries, and_true]

theorem mem_targets {s t : State} : t ∈ m.targets s ↔ m.Edge s t :=
  SparseTable.mem_map_row

theorem mem_sources {s t : State} : s ∈ m.sources t ↔ m.Edge s t :=
  SparseTable.mem_map_column

theorem mem_accepts_rowKeys {s : State} : s ∈ m.accepts.rowKeys ↔ ∃ id, id ∈ m.ruleIds s := by
  simp only [SparseTable.mem_rowKeys_iff, ruleIds, SparseTable.mem_idsOf]
  constructor
  · rintro ⟨id, _, h⟩
    exact ⟨id, h⟩
  · rintro ⟨id, h⟩
    exact ⟨id, (), h⟩

theorem mem_states {s : State} :
    s ∈ m.states ↔ (∃ t, m.Edge s t) ∨ (∃ r, m.Edge r s) ∨ ∃ id, id ∈ m.ruleIds s := by
  rw [states, Ascending.mem_ofList, List.mem_append, List.mem_append, mem_accepts_rowKeys,
    SparseTable.mem_rowKeys_iff, SparseTable.mem_columnKeys_iff, or_assoc]
  rfl

theorem hasColumn_iff {s : State} : m.edges.hasColumn s = true ↔ ∃ r, m.Edge r s := by
  rw [SparseTable.hasColumn, List.contains_iff_mem, SparseTable.mem_columnKeys_iff]
  rfl

/-! ## Searches along edges -/

theorem mem_reach {next : State → List State} {seeds : List State} {t : State}
    (hn : ∀ s, ∀ r ∈ next s, r ∈ m.states) :
    t ∈ m.reach next seeds ↔ ∃ s ∈ seeds, ReflTransGen (Search.Move next) s t :=
  Search.mem_reach hn (Nat.le_refl _)

theorem mem_accessible {s : State} : s ∈ m.accessible ↔ m.Accessible s := by
  unfold accessible Accessible
  rw [mem_reach fun r t ht => mem_states.2 (.inr (.inl ⟨r, mem_targets.1 ht⟩))]
  have same : Search.Move m.targets = m.Edge := by
    funext r t
    exact propext mem_targets
  simp [same]

theorem mem_coaccessible {s : State} : s ∈ m.coaccessible ↔ m.Coaccessible s := by
  unfold coaccessible Coaccessible
  rw [mem_reach fun t r hr => mem_states.2 (.inl ⟨t, mem_sources.1 hr⟩)]
  have same : Search.Move m.sources = Function.swap m.Edge := by
    funext t r
    exact propext mem_sources
  simp only [same, mem_accepts_rowKeys, reflTransGen_swap, and_comm]

/-! ## Restriction to some states -/

theorem carries_restrict {alive : State → Bool} {p : SymbolSet → Prop} {s t : State} :
    (m.restrict alive).edges.Carries p s t ↔
      (alive s = true ∧ alive t = true) ∧ m.edges.Carries p s t := by
  rw [restrict, SparseTable.carries_keep, Bool.and_eq_true]

theorem edge_restrict {alive : State → Bool} {s t : State} :
    (m.restrict alive).Edge s t ↔ (alive s = true ∧ alive t = true) ∧ m.Edge s t := by
  rw [edge_iff_carries, edge_iff_carries, carries_restrict]

theorem leads_restrict {alive : State → Bool} {s t : State} {code : Nat} :
    (m.restrict alive).edges.Leads s code t ↔
      (alive s = true ∧ alive t = true) ∧ m.edges.Leads s code t :=
  carries_restrict

theorem mem_ruleIds_restrict {alive : State → Bool} {s : State} {id : RuleId} :
    id ∈ (m.restrict alive).ruleIds s ↔ alive s = true ∧ id ∈ m.ruleIds s :=
  SparseTable.mem_idsOf_keep

theorem carries_removeState {p : SymbolSet → Prop} {a s t : State} :
    (m.removeState a).edges.Carries p s t ↔ (s ≠ a ∧ t ≠ a) ∧ m.edges.Carries p s t := by
  simp [removeState, carries_restrict]

theorem mem_ruleIds_removeState {a s : State} {id : RuleId} :
    id ∈ (m.removeState a).ruleIds s ↔ s ≠ a ∧ id ∈ m.ruleIds s := by
  simp [removeState, mem_ruleIds_restrict]

/-! ## Trimming -/

/-- What trimming keeps. -/
def Kept (m : Automaton) (s : State) : Prop := s = 0 ∨ (m.Accessible s ∧ m.Coaccessible s)

/-- Whether trimming keeps a state. -/
def isKept (m : Automaton) (s : State) : Bool :=
  s = 0 || m.accessible.contains s && m.coaccessible.contains s

theorem isKept_iff {s : State} : m.isKept s = true ↔ m.Kept s := by
  simp [isKept, Kept, mem_accessible, mem_coaccessible]

theorem trim_eq (m : Automaton) : m.trim = m.restrict m.isKept := rfl

theorem edge_trim {s t : State} : m.trim.Edge s t ↔ (m.Kept s ∧ m.Kept t) ∧ m.Edge s t := by
  rw [trim_eq, edge_restrict, isKept_iff, isKept_iff]

theorem leads_trim {s t : State} {code : Nat} :
    m.trim.edges.Leads s code t ↔ (m.Kept s ∧ m.Kept t) ∧ m.edges.Leads s code t := by
  rw [trim_eq, leads_restrict, isKept_iff, isKept_iff]

theorem mem_ruleIds_trim {s : State} {id : RuleId} :
    id ∈ m.trim.ruleIds s ↔ m.Kept s ∧ id ∈ m.ruleIds s := by
  rw [trim_eq, mem_ruleIds_restrict, isKept_iff]

/-- A state that finds a rule leads to a mark. -/
theorem Finds.coaccessible {s : State} {codes : List Nat} {id : RuleId}
    (h : m.Finds s codes id) : m.Coaccessible s := by
  induction h with
  | here mark => exact ⟨_, .refl, _, mark⟩
  | later move _ ih =>
    obtain ⟨t, path, marked⟩ := ih
    exact ⟨t, path.head (edge_of_leads move), marked⟩

theorem finds_trim {s : State} {codes : List Nat} {id : RuleId} (hs : m.Accessible s) :
    m.trim.Finds s codes id ↔ m.Finds s codes id := by
  constructor
  · refine Simulation.finds (R := Eq) ⟨?_, ?_⟩ rfl
    · rintro s _ id rfl mark
      exact (mem_ruleIds_trim.1 mark).2
    · rintro s _ code t rfl move
      exact ⟨t, rfl, (leads_trim.1 move).2⟩
  · intro found
    induction found with
    | here mark => exact .here (mem_ruleIds_trim.2 ⟨.inr ⟨hs, _, .refl, _, mark⟩, mark⟩)
    | @later s t code codes id move found ih =>
      have ht : m.Accessible t := hs.tail (edge_of_leads move)
      have coaccessible : m.Coaccessible s := (Finds.later move found).coaccessible
      refine .later (leads_trim.2 ⟨⟨.inr ⟨hs, coaccessible⟩, .inr ⟨ht, found.coaccessible⟩⟩, move⟩)
        (ih ht)

theorem run_trim (m : Automaton) (codes : List Nat) : m.trim.run codes = m.run codes :=
  run_congr fun _ => finds_trim .refl

theorem kept_of_mem_trim {s : State} (h : s ∈ m.trim.states) : m.Kept s := by
  rcases mem_states.1 h with ⟨t, he⟩ | ⟨r, he⟩ | ⟨id, mark⟩
  · exact (edge_trim.1 he).1.1
  · exact (edge_trim.1 he).1.2
  · exact (mem_ruleIds_trim.1 mark).1

/-- On the way to a coaccessible state all states are coaccessible, so that trimming keeps the way
to it. -/
theorem trim_accessible {s : State} (hs : m.Accessible s) (hc : m.Coaccessible s) :
    m.trim.Accessible s := by
  have key : ∀ {s}, ReflTransGen m.Edge 0 s → m.Coaccessible s → ReflTransGen m.trim.Edge 0 s := by
    intro s path
    induction path with
    | refl => exact fun _ => .refl
    | @tail r t path edge ih =>
      rintro ⟨u, rest, marked⟩
      have hr : m.Coaccessible r := ⟨u, rest.head edge, marked⟩
      exact (ih hr).tail
        (edge_trim.2 ⟨⟨.inr ⟨path, hr⟩, .inr ⟨path.tail edge, u, rest, marked⟩⟩, edge⟩)
  exact key hs hc

theorem trim_coaccessible {s : State} (hs : m.Accessible s) (hc : m.Coaccessible s) :
    m.trim.Coaccessible s := by
  obtain ⟨t, path, id, mark⟩ := hc
  refine ⟨t, ?_, id, mem_ruleIds_trim.2 ⟨.inr ⟨hs.trans path, t, .refl, id, mark⟩, mark⟩⟩
  induction path using ReflTransGen.head_induction_on with
  | refl => exact .refl
  | @head s r edge path ih =>
    have hr : m.Accessible r := hs.tail edge
    refine (ih hr).head (edge_trim.2 ⟨⟨.inr ⟨hs, t, path.head edge, id, mark⟩, ?_⟩, edge⟩)
    exact .inr ⟨hr, t, path, id, mark⟩

/-- After trimming every state but state 0 has a way in from state 0 and a way out to a mark. -/
theorem accessible_of_mem_trim {s : State} (h : s ∈ m.trim.states) (h0 : s ≠ 0) :
    m.trim.Accessible s ∧ m.trim.Coaccessible s := by
  rcases kept_of_mem_trim h with rfl | ⟨hs, hc⟩
  · exact absurd rfl h0
  · exact ⟨trim_accessible hs hc, trim_coaccessible hs hc⟩

end PatternGroups.Automaton
