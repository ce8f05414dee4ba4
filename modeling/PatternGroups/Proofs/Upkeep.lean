import PatternGroups.Proofs.Homogenization
import PatternGroups.Proofs.Renumbering
import PatternGroups.Proofs.Simplification

/-!
# What all stages keep

Merging and renumbering make images of automata, and an image has whatever ways in and ways on its
states had before. Merged states are entered by one label, so that what was homogeneous stays so.

* `Keeps`: order with connectedness, and homogeneity;
* `IsImage.inOrder`, `IsImage.connected`: the images of automata in order;
* `keeps_simplify`, `keeps_homogenize`, `keeps_renumber`: each stage;
* `firstUnused_eq_stateCount_iff`: whether a number is left out.
-/

namespace PatternGroups.Automaton

variable {m n k : Automaton} {f : State → State}

/-- What stages keep of an automaton. -/
structure Keeps (m n : Automaton) : Prop where
  rules : n.rules = m.rules
  order : m.InOrder → m.Connected → n.InOrder ∧ n.Connected
  homogeneous : (∀ t, ¬m.Mixed t) → ∀ t, ¬n.Mixed t

theorem Keeps.refl (m : Automaton) : Keeps m m :=
  ⟨rfl, fun h connected => ⟨h, connected⟩, id⟩

theorem Keeps.trans (h : Keeps m n) (h' : Keeps n k) : Keeps m k := by
  refine ⟨h'.rules.trans h.rules, fun hm connected => ?_,
    fun hm => h'.homogeneous (h.homogeneous hm)⟩
  obtain ⟨hn, connected'⟩ := h.order hm connected
  exact h'.order hn connected'

theorem keeps_homogenize (m : Automaton) : Keeps m m.homogenize :=
  ⟨rules_homogenize m,
    fun h connected => (inOrder_homogenize h).imp_right fun kept => kept connected,
    fun _ => not_mixed_homogenize m⟩

/-! ## Images -/

namespace IsImage

theorem mem_states_iff (h : IsImage m n f) (hm : m.InOrder)
    (labels : n.edges.Obeys fun _ _ label => label.Inhabited) {t : State} :
    t ∈ n.states ↔ ∃ s ∈ m.states, f s = t := by
  constructor
  · intro ht
    rcases mem_states.1 ht with ⟨t', label, he⟩ | ⟨r, label, he⟩ | ⟨id, mark⟩
    · obtain ⟨code, hc⟩ := labels he
      obtain ⟨s, s', rfl, -, move⟩ := h.moves.1 ⟨label, he, hc⟩
      exact ⟨s, mem_states.2 (.inl ⟨s', edge_of_leads move⟩), rfl⟩
    · obtain ⟨code, hc⟩ := labels he
      obtain ⟨s, s', -, rfl, move⟩ := h.moves.1 ⟨label, he, hc⟩
      exact ⟨s', mem_states.2 (.inr (.inl ⟨s, edge_of_leads move⟩)), rfl⟩
    · obtain ⟨s, rfl, before⟩ := h.marks.1 mark
      exact ⟨s, mem_states.2 (.inr (.inr ⟨id, before⟩)), rfl⟩
  · rintro ⟨s, hs, rfl⟩
    obtain ⟨r, entry⟩ := hm.entered s hs
    obtain ⟨code, move⟩ := hm.edge_iff.1 entry
    have image : n.edges.Leads (f r) code (f s) := h.moves.2 ⟨r, s, rfl, rfl, move⟩
    exact mem_states.2 (.inr (.inl ⟨f r, edge_of_leads image⟩))

theorem edge (h : IsImage m n f) (hm : m.InOrder) {s t : State} (he : m.Edge s t) :
    n.Edge (f s) (f t) := by
  obtain ⟨code, move⟩ := hm.edge_iff.1 he
  exact edge_of_leads (h.moves.2 ⟨s, t, rfl, rfl, move⟩)

theorem inOrder (h : IsImage m n f) (hm : m.InOrder) (rules : n.rules = m.rules)
    (labels : n.edges.Obeys fun _ _ label => label.Inhabited) : n.InOrder := by
  constructor
  · intro id
    rw [rules, ← hm.ids]
    constructor
    · rintro ⟨t, mark⟩
      obtain ⟨s, _, mark⟩ := h.marks.1 mark
      exact ⟨s, mark⟩
    · rintro ⟨s, mark⟩
      exact ⟨f s, h.marks.2 ⟨s, rfl, mark⟩⟩
  · exact labels
  · intro t ht
    obtain ⟨s, hs, rfl⟩ := (h.mem_states_iff hm labels).1 ht
    rcases hm.leadsOn s hs with ⟨s', he⟩ | ⟨id, mark⟩
    · exact .inl ⟨f s', h.edge hm he⟩
    · exact .inr ⟨id, h.marks.2 ⟨s, rfl, mark⟩⟩
  · intro t ht
    obtain ⟨s, hs, rfl⟩ := (h.mem_states_iff hm labels).1 ht
    obtain ⟨r, he⟩ := hm.entered s hs
    exact ⟨f r, h.edge hm he⟩

theorem connected (h : IsImage m n f) (hm : m.InOrder)
    (labels : n.edges.Obeys fun _ _ label => label.Inhabited) (start : f 0 = 0)
    (connected : m.Connected) : n.Connected := by
  have image {s : State} (way : m.Accessible s) : n.Accessible (f s) := by
    induction way with
    | refl =>
      rw [start]
      exact .refl
    | tail _ he ih => exact ih.tail (h.edge hm he)
  intro t ht
  obtain ⟨s, hs, rfl⟩ := (h.mem_states_iff hm labels).1 ht
  exact image (connected s hs)

end IsImage

/-! ## Merging -/

section OneMerge
variable {n₁ n₂ : State} {rule : State → State → SymbolSet → Prop}

theorem obeys_mergeSameIncoming (h : m.mergeSameIncoming? n₁ n₂ = some n)
    (union : SparseTable.ClosedUnderUnion rule) (hm : m.edges.Obeys rule)
    (taken : ∀ {t label}, m.edges.get? n₂ t = some label → rule n₁ t label) :
    n.edges.Obeys rule := by
  obtain ⟨_, _, rfl⟩ := mergeSameIncoming?_cases h
  refine SparseTable.Obeys.keep (hm.joinAll union ?_) _
  intro e he
  obtain ⟨⟨t, label⟩, hout, rfl⟩ := List.mem_map.1 he
  exact taken (SparseTable.mem_row.1 hout)

theorem obeys_mergeSameOutgoing (h : m.mergeSameOutgoing? n₁ n₂ = some n)
    (union : SparseTable.ClosedUnderUnion rule) (hm : m.edges.Obeys rule)
    (redirected : ∀ {s label}, m.edges.get? s n₂ = some label → rule s n₁ label) :
    n.edges.Obeys rule := by
  obtain ⟨_, _, _, rfl⟩ := mergeSameOutgoing?_cases h
  refine SparseTable.Obeys.keep (hm.joinAll union ?_) _
  intro e he
  obtain ⟨⟨s, label⟩, hin, rfl⟩ := List.mem_map.1 he
  exact redirected (mem_incoming.1 hin)

theorem rules_mergeSameIncoming (h : m.mergeSameIncoming? n₁ n₂ = some n) :
    n.rules = m.rules := by
  obtain ⟨_, _, rfl⟩ := mergeSameIncoming?_cases h
  rfl

theorem rules_mergeSameOutgoing (h : m.mergeSameOutgoing? n₁ n₂ = some n) :
    n.rules = m.rules := by
  obtain ⟨_, _, _, rfl⟩ := mergeSameOutgoing?_cases h
  rfl

theorem inhabited_mergeSameIncoming (h : m.mergeSameIncoming? n₁ n₂ = some n) (hm : m.InOrder) :
    n.edges.Obeys fun _ _ label => label.Inhabited :=
  obeys_mergeSameIncoming h SparseTable.closedUnderUnion_inhabited hm.labels
    fun he => hm.labels he

theorem inhabited_mergeSameOutgoing (h : m.mergeSameOutgoing? n₁ n₂ = some n) (hm : m.InOrder) :
    n.edges.Obeys fun _ _ label => label.Inhabited :=
  obeys_mergeSameOutgoing h SparseTable.closedUnderUnion_inhabited hm.labels
    fun he => hm.labels he

theorem inOrder_mergeSameIncoming (h : m.mergeSameIncoming? n₁ n₂ = some n) (hm : m.InOrder) :
    n.InOrder :=
  (isImage_mergeSameIncoming h).inOrder hm (rules_mergeSameIncoming h)
    (inhabited_mergeSameIncoming h hm)

theorem inOrder_mergeSameOutgoing (h : m.mergeSameOutgoing? n₁ n₂ = some n) (hm : m.InOrder) :
    n.InOrder :=
  (isImage_mergeSameOutgoing h).inOrder hm (rules_mergeSameOutgoing h)
    (inhabited_mergeSameOutgoing h hm)

theorem keeps_mergeSameIncoming (h : m.mergeSameIncoming? n₁ n₂ = some n) (start : 0 ≠ n₂) :
    Keeps m n := by
  refine ⟨rules_mergeSameIncoming h, fun hm connected => ?_, fun hm => ?_⟩
  · exact ⟨inOrder_mergeSameIncoming h hm, (isImage_mergeSameIncoming h).connected hm
      (inhabited_mergeSameIncoming h hm) (fold_of_ne start) connected⟩
  · have entered : n.edges.Obeys fun _ t label => m.EnteredBy t label :=
      obeys_mergeSameIncoming h (SparseTable.closedUnderUnion_of_unique (label_unique hm))
        (fun s _ _ he => ⟨s, he⟩) fun he => ⟨n₂, he⟩
    exact not_mixed_of_obeys entered (label_unique hm)

theorem keeps_mergeSameOutgoing (h : m.mergeSameOutgoing? n₁ n₂ = some n) (start : 0 ≠ n₂) :
    Keeps m n := by
  refine ⟨rules_mergeSameOutgoing h, fun hm connected => ?_, fun hm => ?_⟩
  · exact ⟨inOrder_mergeSameOutgoing h hm, (isImage_mergeSameOutgoing h).connected hm
      (inhabited_mergeSameOutgoing h hm) (fold_of_ne start) connected⟩
  · obtain ⟨_, _, same, _⟩ := mergeSameOutgoing?_cases h
    -- An edge into the first state comes from either state, and these have one label together.
    have joint {label other : SymbolSet} (hl : m.EnteredBy n₁ label) (ho : m.EnteredBy n₂ other) :
        label = other := sameLabel_append_iff.1 same label other (.inl hl) (.inr ho)
    have unique {t : State} {label other : SymbolSet}
        (hl : m.EnteredBy t label ∨ (t = n₁ ∧ m.EnteredBy n₂ label))
        (ho : m.EnteredBy t other ∨ (t = n₁ ∧ m.EnteredBy n₂ other)) : label = other := by
      rcases hl with hl | ⟨rfl, hl⟩
      · rcases ho with ho | ⟨rfl, ho⟩
        · exact label_unique hm hl ho
        · exact joint hl ho
      · rcases ho with ho | ⟨_, ho⟩
        · exact (joint ho hl).symm
        · exact label_unique hm hl ho
    have entered : n.edges.Obeys fun _ t label =>
        m.EnteredBy t label ∨ (t = n₁ ∧ m.EnteredBy n₂ label) :=
      obeys_mergeSameOutgoing h (SparseTable.closedUnderUnion_of_unique unique)
        (fun s _ _ he => .inl ⟨s, he⟩) fun he => .inr ⟨rfl, _, he⟩
    exact not_mixed_of_obeys entered unique

end OneMerge

theorem Merges.keeps (h : Merges m f n) : Keeps m n := by
  induction h with
  | refl => exact .refl m
  | coEntered _ hlt merged ih =>
    exact ih.trans (keeps_mergeSameIncoming merged (Nat.ne_of_lt (Nat.zero_lt_of_lt hlt)))
  | coLeading _ hlt merged ih =>
    exact ih.trans (keeps_mergeSameOutgoing merged (Nat.ne_of_lt (Nat.zero_lt_of_lt hlt)))

theorem keeps_simplify (m : Automaton) : Keeps m m.simplify := by
  obtain ⟨_, merges⟩ := merges_simplify m
  exact merges.keeps

/-! ## Renumbering -/

theorem isImage_renumber (connected : m.Connected) : IsImage m m.renumber m.position := by
  have h := m.renumbers_renumber
  constructor
  · intro i id
    rw [h.marks]
    refine exists_congr fun s => and_iff_right_of_imp ?_
    exact fun ⟨_, mark⟩ => connected s (mem_states.2 (.inr (.inr ⟨id, mark⟩)))
  · intro i code j
    rw [h.leads_iff]
    refine exists_congr fun s => exists_congr fun t => and_iff_right_of_imp ?_
    exact fun ⟨_, _, move⟩ => connected s (mem_states.2 (.inl ⟨t, edge_of_leads move⟩))

theorem obeys_renumber (h : m.InOrder) :
    m.renumber.edges.Obeys fun _ _ label => label.Inhabited := by
  intro i j label he
  obtain ⟨s, t, _, _, _, _, he⟩ := (m.renumbers_renumber.edges i j label).1 he
  exact h.labels he

theorem keeps_renumber (m : Automaton) : Keeps m m.renumber := by
  have renumbers := m.renumbers_renumber
  refine ⟨rfl, ?_, ?_⟩
  · intro h connected
    have image := isImage_renumber connected
    exact ⟨image.inOrder h rfl (obeys_renumber h),
      image.connected h (obeys_renumber h) m.position_start connected⟩
  · rintro h j ⟨label, other, ⟨i, hi⟩, ⟨i', hi'⟩, differ⟩
    obtain ⟨s, t, _, ht, _, hj, he⟩ := (renumbers.edges i j label).1 hi
    obtain ⟨s', t', _, ht', _, hj', he'⟩ := (renumbers.edges i' j other).1 hi'
    obtain rfl := renumbers.bijective.injOn ht ht' (hj.trans hj'.symm)
    exact differ (label_unique h ⟨s, he⟩ ⟨s', he'⟩)

/-- As many numbers as there are below a bound are all of these numbers. -/
theorem firstUnused_eq_stateCount_iff :
    m.firstUnused = m.stateCount ↔ m.states = List.range m.stateCount := by
  constructor
  · intro h
    have ascending : m.states.Pairwise (· < ·) := Ascending.pairwise_ofList _
    have nodup : m.states.Nodup := ascending.imp fun hlt => Nat.ne_of_lt hlt
    have within : m.states ⊆ List.range m.stateCount := by
      intro s hs
      rw [List.mem_range, ← h]
      exact lt_firstUnused hs
    have all : m.states.Perm (List.range m.stateCount) :=
      (List.subperm_of_subset nodup within).perm_of_length_le (Nat.le_of_eq List.length_range)
    exact Ascending.eq_of_mem_iff ascending List.pairwise_lt_range fun s => all.mem_iff
  · intro h
    have above (count : Nat) :
        (List.range count).foldl (fun bound s => max bound (s + 1)) 0 = count := by
      induction count with
      | zero => rfl
      | succ count ih =>
        rw [List.range_succ, List.foldl_append, ih, List.foldl_cons, List.foldl_nil]
        exact Nat.max_eq_right (Nat.le_succ count)
    rw [firstUnused, h, above]

end PatternGroups.Automaton
