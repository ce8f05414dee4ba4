import PatternGroups.Automaton.Merge
import PatternGroups.Proofs.Accessibility

/-!
# Merging of states

A merge makes one state of two, and each remaining state does what the states that became part of
it did together. States that were entered together stay so from the second symbol on, whatever they
lead to; but if state 0 takes over another state, that state is active from the start.

* `IsImage.finds_of_futures`, `IsImage.finds_of_pasts`: the two reasons for a merge;
* `sameIncoming_iff`, `sameOutgoing_iff`, `mergeSameIncoming?_isSome_iff`,
  `mergeSameOutgoing?_isSome_iff`: what can be merged;
* `carries_mergeSameIncoming`, `carries_mergeSameOutgoing`: the edges after one merge;
* `isImage_mergeSameIncoming`, `isImage_mergeSameOutgoing`: what one merge does;
* `finds_mergeSameIncoming`, `finds_mergeSameOutgoing`: what is found after one merge.
-/

namespace PatternGroups.Automaton

variable {m n : Automaton} {f : State → State}

/-- The second automaton has the moves and marks of the first, its states renamed. -/
structure IsImage (m n : Automaton) (f : State → State) : Prop where
  marks : ∀ {t id}, id ∈ n.ruleIds t ↔ ∃ s, f s = t ∧ id ∈ m.ruleIds s
  moves : ∀ {t code t'}, n.edges.Leads t code t' ↔
    ∃ s s', f s = t ∧ f s' = t' ∧ m.edges.Leads s code s'

theorem IsImage.simulation (h : IsImage m n f) : Simulation m n (fun s t => f s = t) := by
  constructor
  · rintro s _ id rfl mark
    exact h.marks.2 ⟨s, rfl, mark⟩
  · rintro s _ code s' rfl move
    exact ⟨f s', rfl, h.moves.2 ⟨s, s', rfl, rfl, move⟩⟩

/-- States of one name have the same futures. -/
theorem IsImage.finds_of_futures (h : IsImage m n f)
    (futures : Simulation m m (fun r s => f r = f s)) {t : State} {codes : List Nat}
    {id : RuleId} : n.Finds t codes id ↔ ∃ s, f s = t ∧ m.Finds s codes id := by
  constructor
  · intro found
    induction found with
    | here mark =>
      obtain ⟨s, hs, mark⟩ := h.marks.1 mark
      exact ⟨s, hs, .here mark⟩
    | later move _ ih =>
      obtain ⟨s, s', hs, hs', move⟩ := h.moves.1 move
      obtain ⟨r, hr, found⟩ := ih
      exact ⟨s, hs, .later move (futures.finds (hr.trans hs'.symm) found)⟩
  · rintro ⟨s, hs, found⟩
    exact h.simulation.finds hs found

/-- States of one name are entered by moves from states of one name. -/
theorem IsImage.finds_of_pasts (h : IsImage m n f)
    (pasts : ∀ {s code s' r'}, m.edges.Leads s code s' → f s' = f r' →
      ∃ r, f r = f s ∧ m.edges.Leads r code r')
    {t : State} {codes : List Nat} {id : RuleId} :
    n.Finds t codes id ↔ ∃ s, f s = t ∧ m.Finds s codes id := by
  constructor
  · intro found
    induction found with
    | here mark =>
      obtain ⟨s, hs, mark⟩ := h.marks.1 mark
      exact ⟨s, hs, .here mark⟩
    | later move _ ih =>
      obtain ⟨s, s', hs, hs', move⟩ := h.moves.1 move
      obtain ⟨r', hr', found⟩ := ih
      obtain ⟨r, hr, move'⟩ := pasts move (hs'.trans hr'.symm)
      exact ⟨r, hr.trans hs, .later move' found⟩
  · rintro ⟨s, hs, found⟩
    exact h.simulation.finds hs found

/-! ## One merge -/

/-- The state that a state becomes when the second of two is merged into the first. -/
def fold (n₁ n₂ s : State) : State := if s = n₂ then n₁ else s

variable {n₁ n₂ : State}

theorem fold_second : fold n₁ n₂ n₂ = n₁ := if_pos rfl

theorem fold_of_ne {s : State} (h : s ≠ n₂) : fold n₁ n₂ s = s := if_neg h

theorem fold_eq_iff (hne : n₁ ≠ n₂) {s t : State} :
    fold n₁ n₂ s = t ↔ (s = t ∧ t ≠ n₂) ∨ (s = n₂ ∧ t = n₁) := by
  by_cases h : s = n₂
  · subst h
    rw [fold_second]
    constructor
    · rintro rfl
      exact .inr ⟨rfl, rfl⟩
    · rintro (⟨rfl, hs⟩ | ⟨_, rfl⟩)
      · exact absurd rfl hs
      · rfl
  · rw [fold_of_ne h]
    constructor
    · rintro rfl
      exact .inl ⟨rfl, h⟩
    · rintro (⟨rfl, _⟩ | ⟨rfl, _⟩)
      · rfl
      · exact absurd rfl h

theorem exists_fold_eq (hne : n₁ ≠ n₂) {t : State} {P : State → Prop} :
    (∃ s, fold n₁ n₂ s = t ∧ P s) ↔ t ≠ n₂ ∧ (P t ∨ (t = n₁ ∧ P n₂)) := by
  simp only [fold_eq_iff hne]
  constructor
  · rintro ⟨s, ⟨rfl, h⟩ | ⟨rfl, rfl⟩, hs⟩
    · exact ⟨h, .inl hs⟩
    · exact ⟨hne, .inr ⟨rfl, hs⟩⟩
  · rintro ⟨h, hs | ⟨rfl, hs⟩⟩
    · exact ⟨t, .inl ⟨rfl, h⟩, hs⟩
    · exact ⟨n₂, .inr ⟨rfl, rfl⟩, hs⟩

theorem fold_eq_fold {s r : State} (h : fold n₁ n₂ s = fold n₁ n₂ r) :
    s = r ∨ (s = n₁ ∧ r = n₂) ∨ (s = n₂ ∧ r = n₁) := by
  by_cases hs : s = n₂
  · by_cases hr : r = n₂
    · exact .inl (hs.trans hr.symm)
    · rw [hs, fold_second, fold_of_ne hr] at h
      exact .inr (.inr ⟨hs, h.symm⟩)
  · by_cases hr : r = n₂
    · rw [hr, fold_second, fold_of_ne hs] at h
      exact .inr (.inl ⟨h, hr⟩)
    · rw [fold_of_ne hs, fold_of_ne hr] at h
      exact .inl h

theorem sameEntries_iff {κ ν : Type} [DecidableEq κ] [DecidableEq ν] {l k : List (κ × ν)} :
    sameEntries l k = true ↔ ∀ e, e ∈ l ↔ e ∈ k := by
  simp only [sameEntries, Bool.and_eq_true, List.all_eq_true, List.contains_iff_mem]
  constructor
  · rintro ⟨hl, hk⟩ e
    exact ⟨hl e, hk e⟩
  · intro h
    exact ⟨fun e => (h e).1, fun e => (h e).2⟩

/-! ## States entered together -/

/-- No source occurs twice. -/
def OneEach (l : List (State × SymbolSet)) : Prop :=
  ∀ s label other, (s, label) ∈ l → (s, other) ∈ l → label = other

theorem OneEach.lookup_eq_some_iff {l : List (State × SymbolSet)} (h : OneEach l) {s : State}
    {label : SymbolSet} : l.lookup s = some label ↔ (s, label) ∈ l := by
  have listed {label : SymbolSet} (hl : l.lookup s = some label) : (s, label) ∈ l := by
    obtain ⟨before, after, rfl, _⟩ := List.lookup_eq_some_iff.1 hl
    exact List.mem_append_right before List.mem_cons_self
  refine ⟨listed, fun he => ?_⟩
  cases hl : l.lookup s with
  | none =>
    have differs := List.lookup_eq_none_iff.1 hl _ he
    simp at differs
  | some other => rw [h s label other he (listed hl)]

theorem oneEach_incoming (t : State) : OneEach (m.incoming t) :=
  fun _ _ _ => SparseTable.column_unique

theorem OneEach.filter {l : List (State × SymbolSet)} (h : OneEach l)
    (p : State × SymbolSet → Bool) : OneEach (l.filter p) := fun s label other hs ho =>
  h s label other (List.mem_filter.1 hs).1 (List.mem_filter.1 ho).1

theorem lookup_incoming {s t : State} : (m.incoming t).lookup s = m.edges.get? s t := by
  apply Option.ext
  intro label
  rw [(oneEach_incoming t).lookup_eq_some_iff]
  exact SparseTable.mem_column

/-- The label of the edge from one state to another, with an edge from the second of two states
counted as one from the first. -/
def foldedLabel (m : Automaton) (n₁ n₂ s t : State) : Option SymbolSet :=
  if s = n₁ then (m.edges.get? n₁ t).merge (· ∪ ·) (m.edges.get? n₂ t)
  else if s = n₂ then none
  else m.edges.get? s t

theorem mem_foldSource (hne : n₁ ≠ n₂) {s t : State} {label : SymbolSet} :
    (s, label) ∈ foldSource n₁ n₂ (m.incoming t) ↔ m.foldedLabel n₁ n₂ s t = some label := by
  have incoming {s : State} {label : SymbolSet} :
      (s, label) ∈ m.incoming t ↔ m.edges.get? s t = some label := SparseTable.mem_column
  unfold foldSource foldedLabel
  rw [lookup_incoming]
  cases second : m.edges.get? n₂ t with
  | none =>
    simp only [incoming, Option.merge_none_right]
    by_cases first : s = n₁
    · rw [if_pos first, first]
    · by_cases hs : s = n₂
      · simp [hs, hne.symm, second]
      · simp [first, hs]
  | some label₂ =>
    have others : ((m.incoming t).filter (·.1 ≠ n₂)).lookup n₁ = m.edges.get? n₁ t := by
      apply Option.ext
      intro label
      rw [((oneEach_incoming t).filter _).lookup_eq_some_iff, List.mem_filter, incoming]
      simp [hne]
    simp only [others, List.mem_cons, Prod.mk.injEq, List.mem_filter, decide_eq_true_eq, incoming]
    by_cases first : s = n₁
    · cases m.edges.get? n₁ t <;> simp [first, eq_comm]
    · by_cases hs : s = n₂
      · simp [hs, hne.symm]
      · simp [first, hs]

/-- States are entered by the same edges if every edge into one has its counterpart into the
other. -/
theorem sameIncoming_iff (hne : n₁ ≠ n₂) : m.sameIncoming n₁ n₂ = true ↔
    ∀ s, m.foldedLabel n₁ n₂ s n₁ = m.foldedLabel n₁ n₂ s n₂ := by
  simp only [sameIncoming, sameEntries_iff, Prod.forall, mem_foldSource hne]
  exact forall_congr' fun s => Option.ext_iff.symm

theorem carries_folded {p : SymbolSet → Prop} (hp : SparseTable.Additive p) (hne : n₁ ≠ n₂)
    {r t : State} : (∃ s, fold n₁ n₂ s = r ∧ m.edges.Carries p s t) ↔
      ∃ label, m.foldedLabel n₁ n₂ r t = some label ∧ p label := by
  rw [exists_fold_eq hne, foldedLabel]
  unfold SparseTable.Carries
  by_cases first : r = n₁
  · subst first
    cases m.edges.get? r t <;> cases m.edges.get? n₂ t <;> simp [hne, hp _ _]
  · by_cases second : r = n₂
    · simp [second, hne.symm]
    · simp [first, second]

/-- Whatever enters one of two states entered by the same edges, or a state that counts as it,
enters the other, by a label of the same property. -/
theorem carries_of_sameIncoming {p : SymbolSet → Prop} (hp : SparseTable.Additive p)
    (hne : n₁ ≠ n₂) (h : m.sameIncoming n₁ n₂ = true) {r : State} :
    (∃ s, fold n₁ n₂ s = r ∧ m.edges.Carries p s n₁) ↔
      ∃ s, fold n₁ n₂ s = r ∧ m.edges.Carries p s n₂ := by
  rw [carries_folded hp hne, carries_folded hp hne, (sameIncoming_iff hne).1 h r]

theorem leads_of_sameIncoming (hne : n₁ ≠ n₂) (h : m.sameIncoming n₁ n₂ = true) {r : State}
    {code : Nat} :
    (∃ s, fold n₁ n₂ s = r ∧ m.edges.Leads s code n₁) ↔
      ∃ s, fold n₁ n₂ s = r ∧ m.edges.Leads s code n₂ :=
  carries_of_sameIncoming (SparseTable.additive_contains code) hne h

theorem mergeable_iff :
    m.mergeable n₁ n₂ = true ↔ n₁ ≠ n₂ ∧ (∃ r, m.Edge r n₁) ∧ ∃ r, m.Edge r n₂ := by
  rw [mergeable, Bool.and_eq_true, Bool.and_eq_true, hasColumn_iff, hasColumn_iff,
    decide_eq_true_eq, and_assoc]

/-- Edges from a state to a state that counts as another. -/
theorem exists_fold_fold (hne : n₁ ≠ n₂) {p : SymbolSet → Prop} {t t' : State} :
    (∃ s s', fold n₁ n₂ s = t ∧ fold n₁ n₂ s' = t' ∧ m.edges.Carries p s s') ↔
      (t ≠ n₂ ∧ t' ≠ n₂) ∧ ∃ s, fold n₁ n₂ s = t ∧
        (m.edges.Carries p s t' ∨ (t' = n₁ ∧ m.edges.Carries p s n₂)) := by
  simp only [exists_and_left, exists_fold_eq hne]
  tauto

theorem pasts_of_sameIncoming (hne : n₁ ≠ n₂) (h : m.sameIncoming n₁ n₂ = true)
    {s s' r' : State} {code : Nat} (move : m.edges.Leads s code s')
    (same : fold n₁ n₂ s' = fold n₁ n₂ r') :
    ∃ r, fold n₁ n₂ r = fold n₁ n₂ s ∧ m.edges.Leads r code r' := by
  have together : (∃ r, fold n₁ n₂ r = fold n₁ n₂ s ∧ m.edges.Leads r code n₁) ↔
      ∃ r, fold n₁ n₂ r = fold n₁ n₂ s ∧ m.edges.Leads r code n₂ :=
    leads_of_sameIncoming hne h
  rcases fold_eq_fold same with rfl | ⟨rfl, rfl⟩ | ⟨rfl, rfl⟩
  · exact ⟨s, rfl, move⟩
  · exact together.1 ⟨s, rfl, move⟩
  · exact together.2 ⟨s, rfl, move⟩

/-- Edges after a state has taken over those that leave another. -/
theorem carries_takeOver {p : SymbolSet → Prop} (hp : SparseTable.Additive p) {s t : State} :
    (m.edges.joinAll ((m.outgoing n₂).map (n₁, ·))).Carries p s t ↔
      m.edges.Carries p s t ∨ (s = n₁ ∧ m.edges.Carries p n₂ t) := by
  rw [SparseTable.carries_joinAll hp]
  apply or_congr_right
  simp only [List.mem_map, outgoing, Prod.mk.injEq, Prod.exists, SparseTable.mem_row]
  constructor
  · rintro ⟨_, ⟨_, label, he, rfl, rfl, rfl⟩, hl⟩
    exact ⟨rfl, label, he, hl⟩
  · rintro ⟨rfl, label, he, hl⟩
    exact ⟨label, ⟨t, label, he, rfl, rfl, rfl⟩, hl⟩

theorem mergeSameIncoming?_isSome_iff : (m.mergeSameIncoming? n₁ n₂).isSome = true ↔
    m.mergeable n₁ n₂ = true ∧ m.sameIncoming n₁ n₂ = true := by
  rw [← Bool.and_eq_true, mergeSameIncoming?]
  split <;> simp_all

/-- What a merge of states entered by the same edges does. -/
theorem mergeSameIncoming?_cases (h : m.mergeSameIncoming? n₁ n₂ = some n) :
    n₁ ≠ n₂ ∧ m.sameIncoming n₁ n₂ = true ∧
      n = (({ m with edges := m.edges.joinAll ((m.outgoing n₂).map (n₁, ·)) }).markAll n₁
        (m.ruleIds n₂)).removeState n₂ := by
  obtain ⟨mergeable, same⟩ := mergeSameIncoming?_isSome_iff.1 (Option.isSome_of_eq_some h)
  rw [mergeSameIncoming?, mergeable, same] at h
  exact ⟨(mergeable_iff.1 mergeable).1, same, (Option.some.inj h).symm⟩

/-- After a merge there is an edge with a property where there was one between states that became
its ends. -/
theorem carries_mergeSameIncoming (h : m.mergeSameIncoming? n₁ n₂ = some n)
    {p : SymbolSet → Prop} (hp : SparseTable.Additive p) {t t' : State} :
    n.edges.Carries p t t' ↔
      ∃ s s', fold n₁ n₂ s = t ∧ fold n₁ n₂ s' = t' ∧ m.edges.Carries p s s' := by
  obtain ⟨hne, same, rfl⟩ := mergeSameIncoming?_cases h
  rw [carries_removeState, exists_fold_fold hne]
  refine and_congr_right fun ⟨ht, _⟩ => (carries_takeOver hp).trans ?_
  constructor
  · rintro (edge | ⟨rfl, edge⟩)
    · exact ⟨t, fold_of_ne ht, .inl edge⟩
    · exact ⟨n₂, fold_second, .inl edge⟩
  · rintro ⟨s, hs, edge⟩
    -- Whatever leads to the second state leads to the first, from a state that counts as `s`.
    obtain ⟨r, hr, entry⟩ : ∃ r, fold n₁ n₂ r = t ∧ m.edges.Carries p r t' := by
      rcases edge with edge | ⟨rfl, edge⟩
      · exact ⟨s, hs, edge⟩
      · exact (carries_of_sameIncoming hp hne same).2 ⟨s, hs, edge⟩
    rcases (fold_eq_iff hne).1 hr with ⟨rfl, _⟩ | ⟨rfl, rfl⟩
    · exact .inl entry
    · exact .inr ⟨rfl, entry⟩

theorem isImage_mergeSameIncoming (h : m.mergeSameIncoming? n₁ n₂ = some n) :
    IsImage m n (fold n₁ n₂) := by
  refine ⟨?_, carries_mergeSameIncoming h (SparseTable.additive_contains _)⟩
  intro t id
  obtain ⟨hne, _, rfl⟩ := mergeSameIncoming?_cases h
  rw [mem_ruleIds_removeState, exists_fold_eq hne]
  exact and_congr_right fun _ => SparseTable.mem_idsOf_markAll

theorem finds_mergeSameIncoming (h : m.mergeSameIncoming? n₁ n₂ = some n) {t : State}
    {codes : List Nat} {id : RuleId} :
    n.Finds t codes id ↔ ∃ s, fold n₁ n₂ s = t ∧ m.Finds s codes id := by
  obtain ⟨hne, same, _⟩ := mergeSameIncoming?_cases h
  exact (isImage_mergeSameIncoming h).finds_of_pasts (pasts_of_sameIncoming hne same)

/-! ## States with the same future -/

theorem sameOutgoing_iff : m.sameOutgoing n₁ n₂ = true ↔
    (∀ id, id ∈ m.ruleIds n₁ ↔ id ∈ m.ruleIds n₂) ∧
      ∀ t, m.edges.get? n₁ t = m.edges.get? n₂ t := by
  have marks : (∀ e, e ∈ (m.ruleIds n₁).map (·, ()) ↔ e ∈ (m.ruleIds n₂).map (·, ())) ↔
      ∀ id, id ∈ m.ruleIds n₁ ↔ id ∈ m.ruleIds n₂ := by
    simp
  have labels : (∀ e, e ∈ m.outgoing n₁ ↔ e ∈ m.outgoing n₂) ↔
      ∀ t, m.edges.get? n₁ t = m.edges.get? n₂ t := by
    simp only [Prod.forall, outgoing, SparseTable.mem_row]
    exact forall_congr' fun t => Option.ext_iff.symm
  rw [sameOutgoing, Bool.and_eq_true, sameEntries_iff, sameEntries_iff, marks, labels]

theorem carries_of_sameOutgoing (h : m.sameOutgoing n₁ n₂ = true) {p : SymbolSet → Prop}
    {t : State} : m.edges.Carries p n₁ t ↔ m.edges.Carries p n₂ t := by
  rw [SparseTable.Carries, (sameOutgoing_iff.1 h).2, SparseTable.Carries]

theorem futures_of_sameOutgoing (h : m.sameOutgoing n₁ n₂ = true) :
    Simulation m m (fun s r => fold n₁ n₂ s = fold n₁ n₂ r) := by
  constructor
  · intro s r id same mark
    rcases fold_eq_fold same with rfl | ⟨rfl, rfl⟩ | ⟨rfl, rfl⟩
    · exact mark
    · exact ((sameOutgoing_iff.1 h).1 id).1 mark
    · exact ((sameOutgoing_iff.1 h).1 id).2 mark
  · intro s r code s' same move
    refine ⟨s', rfl, ?_⟩
    rcases fold_eq_fold same with rfl | ⟨rfl, rfl⟩ | ⟨rfl, rfl⟩
    · exact move
    · exact (carries_of_sameOutgoing h).1 move
    · exact (carries_of_sameOutgoing h).2 move

/-- Edges after those into a state have been led to another as well. -/
theorem carries_leadOver {p : SymbolSet → Prop} (hp : SparseTable.Additive p) {s t : State} :
    (m.edges.joinAll ((m.incoming n₂).map fun (source, label) => (source, n₁, label))).Carries
        p s t ↔
      m.edges.Carries p s t ∨ (t = n₁ ∧ m.edges.Carries p s n₂) := by
  rw [SparseTable.carries_joinAll hp]
  apply or_congr_right
  simp only [List.mem_map, incoming, Prod.mk.injEq, Prod.exists, SparseTable.mem_column]
  constructor
  · rintro ⟨_, ⟨_, label, he, rfl, rfl, rfl⟩, hl⟩
    exact ⟨rfl, label, he, hl⟩
  · rintro ⟨rfl, label, he, hl⟩
    exact ⟨label, ⟨s, label, he, rfl, rfl, rfl⟩, hl⟩

theorem mergeSameOutgoing?_isSome_iff : (m.mergeSameOutgoing? n₁ n₂).isSome = true ↔
    m.mergeable n₁ n₂ = true ∧ m.sameOutgoing n₁ n₂ = true ∧
      sameLabel (m.incoming n₁ ++ m.incoming n₂) = true := by
  rw [← Bool.and_eq_true, ← Bool.and_eq_true, ← Bool.and_assoc, mergeSameOutgoing?]
  split <;> simp_all

/-- What a merge of states with the same future does. -/
theorem mergeSameOutgoing?_cases (h : m.mergeSameOutgoing? n₁ n₂ = some n) :
    n₁ ≠ n₂ ∧ m.sameOutgoing n₁ n₂ = true ∧
      sameLabel (m.incoming n₁ ++ m.incoming n₂) = true ∧
      n = { m with
        edges := m.edges.joinAll
          ((m.incoming n₂).map fun (source, label) => (source, n₁, label)) }.removeState n₂ := by
  obtain ⟨mergeable, same, labels⟩ :=
    mergeSameOutgoing?_isSome_iff.1 (Option.isSome_of_eq_some h)
  rw [mergeSameOutgoing?, mergeable, same, labels] at h
  exact ⟨(mergeable_iff.1 mergeable).1, same, labels, (Option.some.inj h).symm⟩

theorem carries_mergeSameOutgoing (h : m.mergeSameOutgoing? n₁ n₂ = some n)
    {p : SymbolSet → Prop} (hp : SparseTable.Additive p) {t t' : State} :
    n.edges.Carries p t t' ↔
      ∃ s s', fold n₁ n₂ s = t ∧ fold n₁ n₂ s' = t' ∧ m.edges.Carries p s s' := by
  obtain ⟨hne, same, _, rfl⟩ := mergeSameOutgoing?_cases h
  rw [carries_removeState, exists_fold_fold hne]
  refine and_congr_right fun ⟨ht, _⟩ => (carries_leadOver hp).trans ?_
  constructor
  · intro edge
    exact ⟨t, fold_of_ne ht, edge⟩
  · rintro ⟨s, hs, edge⟩
    rcases (fold_eq_iff hne).1 hs with ⟨rfl, _⟩ | ⟨rfl, rfl⟩
    · exact edge
    · simpa only [carries_of_sameOutgoing same] using edge

theorem isImage_mergeSameOutgoing (h : m.mergeSameOutgoing? n₁ n₂ = some n) :
    IsImage m n (fold n₁ n₂) := by
  refine ⟨?_, carries_mergeSameOutgoing h (SparseTable.additive_contains _)⟩
  intro t id
  obtain ⟨hne, same, _, rfl⟩ := mergeSameOutgoing?_cases h
  rw [mem_ruleIds_removeState, exists_fold_eq hne]
  refine and_congr_right fun _ => ?_
  constructor
  · exact .inl
  · rintro (mark | ⟨rfl, mark⟩)
    · exact mark
    · exact ((sameOutgoing_iff.1 same).1 id).2 mark

theorem finds_mergeSameOutgoing (h : m.mergeSameOutgoing? n₁ n₂ = some n) {t : State}
    {codes : List Nat} {id : RuleId} :
    n.Finds t codes id ↔ ∃ s, fold n₁ n₂ s = t ∧ m.Finds s codes id := by
  obtain ⟨_, same, _⟩ := mergeSameOutgoing?_cases h
  exact (isImage_mergeSameOutgoing h).finds_of_futures (futures_of_sameOutgoing same)

end PatternGroups.Automaton
