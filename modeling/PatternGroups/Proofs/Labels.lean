import PatternGroups.Proofs.Accessibility

/-!
# What is known of labels

A rule says which labels an edge may have. Tables are changed by unions of labels, so that a rule
lasts if it admits the union of two labels that it admits for one edge: a rule for labels with
members does, and a rule that admits one label for each edge.

* `Obeys.join`, `Obeys.joinAll`, `Obeys.keep`: rules last;
* `sameLabel_append_iff`: whether two states are entered by one label together;
* `isHomogeneous_iff`: in a homogeneous automaton no state is entered by two labels;
* `not_mixed_of_obeys`: a rule may leave no other choice.
-/

namespace PatternGroups

namespace SymbolSet

theorem union_self (s : SymbolSet) : s ∪ s = s :=
  ext_contains fun code _ => by rw [contains_union, Bool.or_self]

/-- A symbol is a member. -/
def Inhabited (s : SymbolSet) : Prop := ∃ code, s.contains code = true

theorem Inhabited.union {s : SymbolSet} (h : s.Inhabited) (t : SymbolSet) : (s ∪ t).Inhabited := by
  obtain ⟨code, hc⟩ := h
  exact ⟨code, by rw [contains_union, hc, Bool.true_or]⟩

theorem isEmpty_eq_false_iff {s : SymbolSet} : s.isEmpty = false ↔ s.Inhabited := by
  rw [isEmpty, beq_eq_false_iff_ne]
  constructor
  · intro h
    by_contra none
    refine h (ext_contains fun code _ => ?_)
    rw [contains_empty, Bool.eq_false_iff]
    exact fun hc => none ⟨code, hc⟩
  · rintro ⟨code, hc⟩ rfl
    rw [contains_empty] at hc
    cases hc

end SymbolSet

/-! ## Rules for labels -/

namespace SparseTable

variable {edges : Edges} {rule : State → State → SymbolSet → Prop}

/-- Every edge has a label that a rule admits. -/
def Obeys (edges : Edges) (rule : State → State → SymbolSet → Prop) : Prop :=
  ∀ ⦃s t label⦄, edges.get? s t = some label → rule s t label

/-- Two labels that a rule admits for one edge have a union that it admits. -/
def ClosedUnderUnion (rule : State → State → SymbolSet → Prop) : Prop :=
  ∀ ⦃s t label other⦄, rule s t label → rule s t other → rule s t (label ∪ other)

theorem closedUnderUnion_of_unique
    (unique : ∀ {s t label other}, rule s t label → rule s t other → label = other) :
    ClosedUnderUnion rule := by
  intro s t label other h h'
  obtain rfl := unique h h'
  rwa [SymbolSet.union_self]

theorem closedUnderUnion_inhabited : ClosedUnderUnion fun _ _ label => label.Inhabited :=
  fun _ _ _ other h _ => h.union other

theorem Obeys.join (h : edges.Obeys rule) (union : ClosedUnderUnion rule) {a b : State}
    {added : SymbolSet} (hadded : rule a b added) : (edges.join a b added).Obeys rule := by
  intro s t label he
  rw [get?_join] at he
  split at he
  · rename_i place
    obtain ⟨rfl, rfl⟩ := place
    cases old : edges.get? s t with
    | none =>
      rw [old, Option.elim_none] at he
      exact Option.some.inj he ▸ hadded
    | some first =>
      rw [old, Option.elim_some] at he
      exact Option.some.inj he ▸ union (h old) hadded
  · exact h he

theorem Obeys.joinAll (h : edges.Obeys rule) (union : ClosedUnderUnion rule)
    {added : List (State × State × SymbolSet)} (hadded : ∀ e ∈ added, rule e.1 e.2.1 e.2.2) :
    (edges.joinAll added).Obeys rule := by
  induction added generalizing edges with
  | nil => exact h
  | cons e rest ih =>
    have first := h.join union (hadded e List.mem_cons_self)
    exact ih first fun f hf => hadded f (List.mem_cons_of_mem e hf)

theorem Obeys.keep (h : edges.Obeys rule) (p : State → State → Bool) :
    (edges.keep p).Obeys rule := by
  intro s t label he
  rw [get?_keep] at he
  split at he
  · exact h he
  · cases he

end SparseTable

/-! ## Labels that enter a state -/

namespace Automaton

variable {m : Automaton}

def EnteredBy (m : Automaton) (t : State) (label : SymbolSet) : Prop :=
  ∃ s, m.edges.get? s t = some label

/-- Edges with different labels enter a state. -/
def Mixed (m : Automaton) (t : State) : Prop :=
  ∃ label other, m.EnteredBy t label ∧ m.EnteredBy t other ∧ label ≠ other

theorem mem_incoming {s t : State} {label : SymbolSet} :
    (s, label) ∈ m.incoming t ↔ m.edges.get? s t = some label :=
  SparseTable.mem_column

theorem mem_map_incoming {t : State} {label : SymbolSet} :
    label ∈ (m.incoming t).map Prod.snd ↔ m.EnteredBy t label := by
  rw [List.mem_map]
  constructor
  · rintro ⟨⟨s, _⟩, he, rfl⟩
    exact ⟨s, mem_incoming.1 he⟩
  · rintro ⟨s, he⟩
    exact ⟨(s, label), mem_incoming.2 he, rfl⟩

theorem sameLabel_iff {l : List (State × SymbolSet)} :
    sameLabel l = true ↔ ∀ e ∈ l, ∀ f ∈ l, e.2 = f.2 := by
  cases l with
  | nil => simp [sameLabel]
  | cons first rest =>
    obtain ⟨s, label⟩ := first
    simp only [sameLabel, List.all_eq_true, beq_iff_eq]
    constructor
    · intro h
      have same : ∀ e ∈ (s, label) :: rest, e.2 = label := List.forall_mem_cons.2 ⟨rfl, h⟩
      exact fun e he f hf => (same e he).trans (same f hf).symm
    · intro h e he
      exact h e (List.mem_cons_of_mem _ he) _ List.mem_cons_self

theorem sameLabel_incoming_iff {t : State} :
    sameLabel (m.incoming t) = true ↔ ¬m.Mixed t := by
  rw [sameLabel_iff]
  constructor
  · rintro h ⟨label, other, ⟨r, hr⟩, ⟨s, hs⟩, differ⟩
    exact differ (h _ (mem_incoming.2 hr) _ (mem_incoming.2 hs))
  · intro h e he f hf
    by_contra differ
    exact h ⟨e.2, f.2, ⟨e.1, mem_incoming.1 he⟩, ⟨f.1, mem_incoming.1 hf⟩, differ⟩

/-- All edges into either of two states have one label. -/
theorem sameLabel_append_iff {t t' : State} :
    sameLabel (m.incoming t ++ m.incoming t') = true ↔
      ∀ label other, (m.EnteredBy t label ∨ m.EnteredBy t' label) →
        (m.EnteredBy t other ∨ m.EnteredBy t' other) → label = other := by
  have entering {label : SymbolSet} : label ∈ (m.incoming t ++ m.incoming t').map Prod.snd ↔
      m.EnteredBy t label ∨ m.EnteredBy t' label := by
    rw [List.map_append, List.mem_append, mem_map_incoming, mem_map_incoming]
  simp only [← entering, sameLabel_iff, List.mem_map]
  constructor
  · rintro h _ _ ⟨e, he, rfl⟩ ⟨f, hf, rfl⟩
    exact h e he f hf
  · intro h e he f hf
    exact h e.2 f.2 ⟨e, he, rfl⟩ ⟨f, hf, rfl⟩

theorem mixedState?_eq_none_iff : m.mixedState? = none ↔ ∀ t, ¬m.Mixed t := by
  simp only [mixedState?, List.find?_eq_none, Bool.not_eq_true', Bool.not_eq_false,
    sameLabel_incoming_iff]
  constructor
  · rintro h t ⟨label, other, ⟨s, he⟩, rest⟩
    exact h t (SparseTable.mem_columnKeys_iff.2 ⟨s, label, he⟩) ⟨label, other, ⟨s, he⟩, rest⟩
  · exact fun h t _ => h t

theorem isHomogeneous_iff : m.isHomogeneous = true ↔ ∀ t, ¬m.Mixed t := by
  rw [isHomogeneous, Option.isNone_iff_eq_none, mixedState?_eq_none_iff]

/-- A rule that admits one label for each state leaves no state mixed. -/
theorem not_mixed_of_obeys {rule : State → SymbolSet → Prop}
    (h : m.edges.Obeys fun _ t label => rule t label)
    (unique : ∀ {t label other}, rule t label → rule t other → label = other) (t : State) :
    ¬m.Mixed t := by
  rintro ⟨label, other, ⟨r, hr⟩, ⟨s, hs⟩, differ⟩
  exact differ (unique (h hr) (h hs))

theorem label_unique (h : ∀ t, ¬m.Mixed t) {t : State} {label other : SymbolSet}
    (hl : m.EnteredBy t label) (ho : m.EnteredBy t other) : label = other := by
  by_contra differ
  exact h t ⟨label, other, hl, ho, differ⟩

end Automaton

end PatternGroups
