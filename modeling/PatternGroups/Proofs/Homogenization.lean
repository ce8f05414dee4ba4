import PatternGroups.Proofs.Homogeneity
import PatternGroups.Proofs.Order

/-!
# Order is kept by splitting

A copy of a state stands for a label that entered the state, so that some edge with this label leads
to the copy. All else that a copy needs it has from its original.

* `inOrder_splitInto`, `connected_splitInto`: one split;
* `inOrder_homogenize`: the sweep;
* `homogenize_sound`: what homogenization establishes, and what it keeps.
-/

namespace PatternGroups.Automaton

variable {m n : Automaton} {copies : List (SymbolSet × State)} {unused count s : State}

/-- Some edge into the original of a state has the label for which the state stands. -/
theorem exists_entry (each : OneForEach m copies unused count s) (hm : m.Within unused)
    (hs : s < unused) (h : m.InOrder) {x : State} (hx : x ∈ (m.splitInto s copies).states) :
    ∃ r label, m.edges.get? r (original unused count s x) = some label ∧
      (original unused count s x = s → x = copyFor s copies label) := by
  by_cases copy : ∃ l, (l, x) ∈ copies
  · rw [original_of_copy ((each.places x).1 copy)]
    obtain ⟨label, hl⟩ := copy
    obtain ⟨r, he⟩ := each.labels.1 ⟨x, hl⟩
    exact ⟨r, label, he, fun _ => (each.copyFor_eq hl).symm⟩
  · obtain ⟨hne, same⟩ := original_of_not_copy each.places copy
    obtain ⟨r, label, he⟩ := h.entered _ (mem_states_splitInto each.places hm hs hx)
    exact ⟨r, label, he, fun loop => absurd (same.symm.trans loop) hne⟩

theorem inOrder_splitInto (each : OneForEach m copies unused count s) (hm : m.Within unused)
    (hs : s < unused) (h : m.InOrder) : (m.splitInto s copies).InOrder := by
  have covering := covering_splitInto each.places hm
  constructor
  · intro id
    have rules : (m.splitInto s copies).rules = m.rules := rfl
    rw [rules, ← h.ids]
    constructor
    · rintro ⟨x, mark⟩
      exact ⟨_, covering.marks.1 mark⟩
    · rintro ⟨r, mark⟩
      refine ⟨r, covering.marks.2 ?_⟩
      rwa [original_of_lt (hm.marked mark)]
  · intro a b label he
    exact h.labels (get?_splitInto each.places hm hs he).1
  · intro x hx
    rcases h.leadsOn _ (mem_states_splitInto each.places hm hs hx) with ⟨t, edge⟩ | ⟨id, mark⟩
    · obtain ⟨code, move⟩ := h.edge_iff.1 edge
      obtain ⟨y, _, lifted⟩ := covering.lifts move
      exact .inl ⟨y, edge_of_leads lifted⟩
    · exact .inr ⟨id, covering.marks.2 mark⟩
  · intro x hx
    obtain ⟨r, label, he, hcopy⟩ := exists_entry each hm hs h hx
    obtain ⟨code, hl⟩ := h.labels he
    have same : original unused count s r = r := original_of_lt (hm.edge ⟨label, he⟩).1
    rw [← same] at he
    exact ⟨r, edge_of_leads (leads_copied each.places he hcopy hl)⟩

/-- A way to a state has a copy that leads to some copy of the state. -/
theorem accessible_lift {g : State → State} (covering : Covering m n g) (start : g 0 = 0)
    (h : n.InOrder) {t : State} (path : n.Accessible t) : ∃ x, g x = t ∧ m.Accessible x := by
  induction path with
  | refl => exact ⟨0, start, .refl⟩
  | tail _ edge ih =>
    obtain ⟨x, rfl, before⟩ := ih
    obtain ⟨code, move⟩ := h.edge_iff.1 edge
    obtain ⟨y, rfl, lifted⟩ := covering.lifts move
    exact ⟨y, rfl, before.tail (edge_of_leads lifted)⟩

theorem connected_splitInto (each : OneForEach m copies unused count s) (hm : m.Within unused)
    (hs : s < unused) (h : m.InOrder) (connected : m.Connected) :
    (m.splitInto s copies).Connected := by
  intro x hx
  have covering := covering_splitInto each.places hm
  have zero : original unused count s 0 = 0 :=
    original_of_lt (Nat.lt_of_le_of_lt (Nat.zero_le s) hs)
  obtain ⟨r, label, he, hcopy⟩ := exists_entry each hm hs h hx
  obtain ⟨code, hl⟩ := h.labels he
  have way : m.Accessible r := connected r (mem_states.2 (.inl ⟨_, label, he⟩))
  obtain ⟨a, rfl, before⟩ := accessible_lift covering zero h way
  exact before.tail (edge_of_leads (leads_copied each.places he hcopy hl))

/-! ## The sweep -/

theorem inOrder_homogenize (h : m.InOrder) :
    m.homogenize.InOrder ∧ (m.Connected → m.homogenize.Connected) := by
  refine homogenize_keeps (P := fun n => n.InOrder ∧ (m.Connected → n.Connected)) ?_ ⟨h, id⟩
  intro n copies unused count s each hn hs kept
  obtain ⟨before, connected⟩ := kept
  exact ⟨inOrder_splitInto each hn hs before,
    fun hm => connected_splitInto each hn hs before (connected hm)⟩

theorem rules_homogenize (m : Automaton) : m.homogenize.rules = m.rules :=
  homogenize_keeps (P := fun n => n.rules = m.rules) (fun _ _ _ same => same) rfl

theorem run_homogenize (m : Automaton) (codes : List Nat) :
    m.homogenize.run codes = m.run codes := by
  obtain ⟨h, covering, start⟩ := covering_homogenize m
  refine run_congr fun id => ?_
  rw [covering.finds, start]

/-- Whatever its states, edges and marks, one sweep makes an automaton homogeneous, and changes no
run. An automaton in which nothing is wrong stays so. -/
theorem homogenize_sound (m : Automaton) :
    m.homogenize.isHomogeneous = true ∧
      (∀ codes, m.homogenize.run codes = m.run codes) ∧
      (m.defect? = none → m.homogenize.defect? = none) := by
  refine ⟨isHomogeneous_iff.2 (not_mixed_homogenize m), run_homogenize m, ?_⟩
  rw [defect?_eq_none_iff, defect?_eq_none_iff]
  exact fun h => (inOrder_homogenize h).1

/-- State 1 is entered by `a`, and by a loop with `b`; the split leads the loop to the copy. -/
theorem homogenize_sound_loop :
    ∃ m : Automaton,
      m = ⟨.ofCells [⟨0, 0, .full⟩, ⟨0, 1, .singleton 97⟩, ⟨1, 1, .singleton 98⟩],
        .ofCells [⟨1, 1, ()⟩], 1⟩ ∧
      m.isHomogeneous = false ∧ m.defect? = none ∧ m.homogenize.isHomogeneous = true ∧
      m.homogenize.run [97, 98] = m.run [97, 98] ∧ m.homogenize.defect? = none := by
  refine ⟨_, rfl, by decide +kernel, by decide +kernel, ?_⟩
  obtain ⟨homogeneous, runs, keeps⟩ := homogenize_sound
    ⟨.ofCells [⟨0, 0, .full⟩, ⟨0, 1, .singleton 97⟩, ⟨1, 1, .singleton 98⟩],
      .ofCells [⟨1, 1, ()⟩], 1⟩
  exact ⟨homogeneous, runs [97, 98], keeps (by decide +kernel)⟩

end PatternGroups.Automaton
