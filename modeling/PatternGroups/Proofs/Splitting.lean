import PatternGroups.Automaton.Split
import PatternGroups.Proofs.Accessibility

/-!
# Splitting of states

Copies of a state have the future of the state that they are copies of, so that no run changes.

* `leads_splitInto`, `mem_ruleIds_splitInto`: what becomes of edges and marks;
* `covering_splitInto`: each copy answers for its original, and its original for it;
* `lt_firstUnused`: new states have numbers of their own.
-/

namespace PatternGroups.Automaton

variable {m n k : Automaton} {g h : State → State}

/-- Each state of the first automaton has the marks and the moves of one state of the second. -/
structure Covering (m n : Automaton) (h : State → State) : Prop where
  marks : ∀ {s id}, id ∈ m.ruleIds s ↔ id ∈ n.ruleIds (h s)
  moves : ∀ {s code s'}, m.edges.Leads s code s' → n.edges.Leads (h s) code (h s')
  lifts : ∀ {s code t}, n.edges.Leads (h s) code t → ∃ s', h s' = t ∧ m.edges.Leads s code s'

namespace Covering

theorem finds (hc : Covering m n h) {s : State} {codes : List Nat} {id : RuleId} :
    m.Finds s codes id ↔ n.Finds (h s) codes id := by
  constructor
  · refine Simulation.finds (R := fun s t => h s = t) ⟨?_, ?_⟩ rfl
    · rintro s _ id rfl mark
      exact hc.marks.1 mark
    · rintro s _ code s' rfl move
      exact ⟨h s', rfl, hc.moves move⟩
  · refine Simulation.finds (R := fun t s => h s = t) ⟨?_, ?_⟩ rfl
    · rintro _ s id rfl mark
      exact hc.marks.2 mark
    · rintro _ s code t rfl move
      exact hc.lifts move

theorem refl (m : Automaton) : Covering m m id :=
  ⟨Iff.rfl, fun move => move, fun move => ⟨_, rfl, move⟩⟩

theorem trans (hc : Covering m n h) (hd : Covering n k g) : Covering m k (g ∘ h) := by
  constructor
  · exact hc.marks.trans hd.marks
  · exact fun move => hd.moves (hc.moves move)
  · intro s code t move
    obtain ⟨r, rfl, lifted⟩ := hd.lifts move
    obtain ⟨s', rfl, lifted'⟩ := hc.lifts lifted
    exact ⟨s', rfl, lifted'⟩

end Covering

/-! ## Redirected edges -/

/-- The copy that edges of one label lead to. -/
def copyFor (s : State) (copies : List (SymbolSet × State)) (label : SymbolSet) : State :=
  (copies.lookup label).getD s

variable {s : State} {copies : List (SymbolSet × State)} {edges : Edges}

/-- An edge into the state is moved to a copy: it is not a loop, and its label has another copy. -/
def Moved (s : State) (copies : List (SymbolSet × State)) (edge : State × SymbolSet) : Prop :=
  edge.1 ≠ s ∧ copyFor s copies edge.2 ≠ s

theorem leads_erase {r t x y : State} {code : Nat} :
    (edges.erase r t).Leads x code y ↔ edges.Leads x code y ∧ ¬(x = r ∧ y = t) := by
  rw [SparseTable.erase, SparseTable.leads_keep, and_comm]
  simp only [Bool.not_eq_true', Bool.and_eq_false_iff, decide_eq_false_iff_not, not_and_or]

theorem leads_redirect {edge : State × SymbolSet} {x y : State} {code : Nat} :
    (redirect s copies edges edge).Leads x code y ↔
      (edges.Leads x code y ∧ ¬(y = s ∧ x = edge.1 ∧ Moved s copies edge)) ∨
        (x = edge.1 ∧ Moved s copies edge ∧ y = copyFor s copies edge.2 ∧
          edge.2.contains code = true) := by
  by_cases moved : Moved s copies edge
  · have eq : redirect s copies edges edge =
        (edges.erase edge.1 s).join edge.1 (copyFor s copies edge.2) edge.2 := if_pos moved
    simp only [eq, SparseTable.leads_join, leads_erase, moved, true_and,
      @and_comm (x = edge.1)]
  · have eq : redirect s copies edges edge = edges := if_neg moved
    simp [eq, moved]

theorem leads_foldl_redirect {l : List (State × SymbolSet)} {x y : State} {code : Nat} :
    (l.foldl (redirect s copies) edges).Leads x code y ↔
      (edges.Leads x code y ∧ ¬(y = s ∧ ∃ label, (x, label) ∈ l ∧ Moved s copies (x, label))) ∨
        ∃ label, (x, label) ∈ l ∧ Moved s copies (x, label) ∧ y = copyFor s copies label ∧
          label.contains code = true := by
  induction l generalizing edges with
  | nil => simp
  | cons edge l ih =>
    obtain ⟨r, first⟩ := edge
    rw [List.foldl_cons, ih, leads_redirect]
    simp only [List.mem_cons, Prod.mk.injEq]
    constructor
    · rintro (⟨⟨move, kept⟩ | ⟨rfl, moved, rfl, hc⟩, others⟩ | ⟨label, he, moved, rfl, hc⟩)
      · refine .inl ⟨move, ?_⟩
        rintro ⟨rfl, label, ⟨rfl, rfl⟩ | he, moved⟩
        · exact kept ⟨rfl, rfl, moved⟩
        · exact others ⟨rfl, label, he, moved⟩
      · exact .inr ⟨first, .inl ⟨rfl, rfl⟩, moved, rfl, hc⟩
      · exact .inr ⟨label, .inr he, moved, rfl, hc⟩
    · rintro (⟨move, kept⟩ | ⟨label, ⟨rfl, rfl⟩ | he, moved, rfl, hc⟩)
      · refine .inl ⟨.inl ⟨move, ?_⟩, ?_⟩
        · rintro ⟨rfl, rfl, moved⟩
          exact kept ⟨rfl, first, .inl ⟨rfl, rfl⟩, moved⟩
        · rintro ⟨rfl, label, he, moved⟩
          exact kept ⟨rfl, label, .inr he, moved⟩
      · exact .inl ⟨.inr ⟨rfl, moved, rfl, hc⟩, fun ⟨stays, _⟩ => moved.2 stays⟩
      · exact .inr ⟨label, he, moved, rfl, hc⟩

/-- Where a move to some state leads after the split. -/
def target (s : State) (copies : List (SymbolSet × State)) (t : State) (label : SymbolSet) :
    State :=
  if t = s then copyFor s copies label else t

theorem copiedOutgoing_eq : m.copiedOutgoing s copies =
    (m.outgoing s).map fun e => (target s copies e.1 e.2, e.2) := by
  refine List.map_congr_left ?_
  rintro ⟨t, label⟩ _
  by_cases h : t = s
  · simp [target, copyFor, h]
  · simp [target, h]

/-- The moves of the split automaton: those into the state by edges that are not moved, those by
edges that are, and those of the copies. -/
theorem leads_splitInto {x y : State} {code : Nat} :
    (m.splitInto s copies).edges.Leads x code y ↔
      ((m.edges.Leads x code y ∧ ¬(x = s ∧ y = s)) ∧
          ¬(y = s ∧ ∃ label, m.edges.get? x s = some label ∧ Moved s copies (x, label))) ∨
        (∃ label, m.edges.get? x s = some label ∧ Moved s copies (x, label) ∧
          y = copyFor s copies label ∧ label.contains code = true) ∨
        ((∃ label, (label, x) ∈ copies) ∧ ∃ t label, m.edges.get? s t = some label ∧
          y = target s copies t label ∧ label.contains code = true) := by
  unfold splitInto
  simp only [SparseTable.leads_joinAll, leads_foldl_redirect, leads_erase, or_assoc,
    copiedOutgoing_eq, incoming, outgoing, SparseTable.mem_column]
  apply or_congr_right
  apply or_congr_right
  simp only [List.mem_flatMap, List.mem_map, Prod.mk.injEq, Prod.exists, SparseTable.mem_row]
  constructor
  · rintro ⟨_, ⟨label, copy, hcopy, _, _, ⟨t, l, he, rfl, rfl⟩, rfl, rfl, rfl⟩, hc⟩
    exact ⟨⟨label, hcopy⟩, t, l, he, rfl, hc⟩
  · rintro ⟨⟨label, hcopy⟩, t, l, he, rfl, hc⟩
    exact ⟨l, ⟨label, x, hcopy, _, _, ⟨t, l, he, rfl, rfl⟩, rfl, rfl, rfl⟩, hc⟩

theorem mem_ruleIds_splitInto {x : State} {id : RuleId} :
    id ∈ (m.splitInto s copies).ruleIds x ↔
      id ∈ m.ruleIds x ∨ (x ≠ s ∧ (∃ label, (label, x) ∈ copies) ∧ id ∈ m.ruleIds s) := by
  have marks (l : List (SymbolSet × State)) (marks : Marks) :
      id ∈ (l.foldl (fun marks e =>
          (m.ruleIds s).foldl (fun marks id => marks.mark e.2 id) marks) marks).idsOf x ↔
        id ∈ marks.idsOf x ∨ ((∃ label, (label, x) ∈ l) ∧ id ∈ m.ruleIds s) := by
    induction l generalizing marks with
    | nil => simp
    | cons e l ih =>
      rw [List.foldl_cons, ih, SparseTable.mem_idsOf_markAll, or_assoc, ← or_and_right]
      simp only [List.mem_cons, exists_or, Prod.ext_iff, exists_and_right, exists_eq,
        true_and]
  refine (marks (copies.filter (·.2 ≠ s)) m.accepts).trans ?_
  simp only [List.mem_filter, decide_eq_true_eq, exists_and_right, and_assoc, and_left_comm]
  rfl

/-! ## One split -/

/-- All states have numbers below a bound. -/
def Within (m : Automaton) (bound : State) : Prop := ∀ s ∈ m.states, s < bound

theorem Within.edge {bound : State} (hm : m.Within bound) {a b : State} (he : m.Edge a b) :
    a < bound ∧ b < bound :=
  ⟨hm a (mem_states.2 (.inl ⟨b, he⟩)), hm b (mem_states.2 (.inr (.inl ⟨a, he⟩)))⟩

theorem Within.move {bound : State} (hm : m.Within bound) {a b : State} {code : Nat}
    (move : m.edges.Leads a code b) : a < bound ∧ b < bound :=
  hm.edge (edge_of_leads move)

theorem Within.marked {bound : State} (hm : m.Within bound) {a : State} {id : RuleId}
    (mark : id ∈ m.ruleIds a) : a < bound :=
  hm a (mem_states.2 (.inr (.inr ⟨id, mark⟩)))

/-- The state of which a state is a copy, if `count` copies have numbers from `unused` on. -/
def original (unused count s x : State) : State :=
  if unused ≤ x ∧ x < unused + count then s else x

variable {unused count : State}

theorem original_of_lt {x : State} (h : x < unused) : original unused count s x = x :=
  if_neg fun ⟨hx, _⟩ => Nat.not_lt.2 hx h

theorem original_of_copy {x : State} (h : x = s ∨ (unused ≤ x ∧ x < unused + count)) :
    original unused count s x = s := by
  unfold original
  by_cases hx : unused ≤ x ∧ x < unused + count
  · exact if_pos hx
  · rw [if_neg hx]
    exact h.resolve_right hx

theorem original_of_ne {x : State} (h : original unused count s x ≠ s) :
    original unused count s x = x := by
  unfold original at h ⊢
  by_cases hx : unused ≤ x ∧ x < unused + count
  · rw [if_pos hx] at h
    exact absurd rfl h
  · exact if_neg hx

theorem lt_of_original_lt {x : State} (h : original unused count s x < unused) :
    x < unused + count := by
  unfold original at h
  by_cases hx : unused ≤ x ∧ x < unused + count
  · exact hx.2
  · rw [if_neg hx] at h
    exact Nat.lt_add_right count h

/-- The copies are the state itself and the new states. -/
def CopiesOf (copies : List (SymbolSet × State)) (unused count s : State) : Prop :=
  ∀ x, (∃ label, (label, x) ∈ copies) ↔ x = s ∨ (unused ≤ x ∧ x < unused + count)

theorem copiesOf_copies (h : ¬(m.copies unused s).length < 2) :
    CopiesOf (m.copies unused s) unused ((m.copies unused s).length - 1) s := by
  have length (labels : List SymbolSet) :
      (labels.zip (s :: List.range' unused (labels.length - 1))).length = labels.length := by
    rw [List.length_zip, List.length_cons, List.length_range']
    omega
  rw [copies, length] at h ⊢
  generalize ((m.incoming s).map Prod.snd).eraseDups = labels at h ⊢
  have snd : (labels.zip (s :: List.range' unused (labels.length - 1))).map Prod.snd =
      s :: List.range' unused (labels.length - 1) := by
    apply List.map_snd_zip
    rw [List.length_cons, List.length_range']
    omega
  intro x
  rw [← List.mem_range'_1, ← List.mem_cons]
  refine Iff.trans ?_ (iff_of_eq (congrArg (x ∈ ·) snd))
  rw [List.mem_map]
  constructor
  · rintro ⟨label, hx⟩
    exact ⟨_, hx, rfl⟩
  · rintro ⟨⟨label, _⟩, hx, rfl⟩
    exact ⟨label, hx⟩

theorem original_copyFor (hc : CopiesOf copies unused count s) (label : SymbolSet) :
    original unused count s (copyFor s copies label) = s := by
  refine original_of_copy ?_
  unfold copyFor
  cases hl : copies.lookup label with
  | none => exact .inl rfl
  | some copy =>
    obtain ⟨before, after, rfl, _⟩ := List.lookup_eq_some_iff.1 hl
    exact (hc copy).1 ⟨label, List.mem_append_right before List.mem_cons_self⟩

/-- A state that is no copy is the state that it was. -/
theorem original_of_not_copy (hc : CopiesOf copies unused count s) {x : State}
    (hx : ¬∃ label, (label, x) ∈ copies) : x ≠ s ∧ original unused count s x = x := by
  rw [hc, not_or] at hx
  exact ⟨hx.1, if_neg hx.2⟩

theorem original_target (hc : CopiesOf copies unused count s) {t : State} (ht : t < unused)
    (label : SymbolSet) : original unused count s (target s copies t label) = t := by
  unfold target
  by_cases h : t = s
  · rw [if_pos h, original_copyFor hc, h]
  · rw [if_neg h, original_of_lt ht]

/-- An edge has a copy between any copies of its ends, as long as it leads to the copy for its own
label. -/
theorem leads_copied (hc : CopiesOf copies unused count s) {a b : State} {label : SymbolSet}
    {code : Nat}
    (he : m.edges.get? (original unused count s a) (original unused count s b) = some label)
    (hb : original unused count s b = s → b = copyFor s copies label)
    (hl : label.contains code = true) : (m.splitInto s copies).edges.Leads a code b := by
  have hb' : b = target s copies (original unused count s b) label := by
    unfold target
    split
    · rename_i h
      exact hb h
    · rename_i h
      exact (original_of_ne h).symm
  by_cases copy : ∃ l, (l, a) ∈ copies
  · rw [original_of_copy ((hc a).1 copy)] at he
    exact leads_splitInto.2 (.inr (.inr ⟨copy, _, label, he, hb', hl⟩))
  · obtain ⟨ha, same⟩ := original_of_not_copy hc copy
    rw [same] at he
    by_cases moved : original unused count s b = s ∧ Moved s copies (a, label)
    · obtain ⟨hbs, moved⟩ := moved
      rw [hbs] at he
      exact leads_splitInto.2 (.inr (.inl ⟨label, he, moved, hb hbs, hl⟩))
    · have stays : original unused count s b = b := by
        by_cases hbs : original unused count s b = s
        · have unmoved : copyFor s copies label = s := by
            by_contra other
            exact moved ⟨hbs, ha, other⟩
          rw [hbs, hb hbs, unmoved]
        · exact original_of_ne hbs
      rw [stays] at he moved
      refine leads_splitInto.2 (.inl ⟨⟨⟨label, he, hl⟩, fun loop => ha loop.1⟩, ?_⟩)
      rintro ⟨rfl, other, he', moved'⟩
      obtain rfl := Option.some.inj (he.symm.trans he')
      exact moved ⟨rfl, moved'⟩

theorem covering_splitInto (hc : CopiesOf copies unused count s) (hm : m.Within unused) :
    Covering (m.splitInto s copies) m (original unused count s) := by
  constructor
  · intro x id
    rw [mem_ruleIds_splitInto]
    by_cases copy : ∃ label, (label, x) ∈ copies
    · rw [original_of_copy ((hc x).1 copy)]
      constructor
      · rintro (mark | ⟨_, _, mark⟩)
        · have hx := original_of_copy (s := s) ((hc x).1 copy)
          rw [original_of_lt (hm.marked mark)] at hx
          exact hx ▸ mark
        · exact mark
      · intro mark
        by_cases hx : x = s
        · exact .inl (hx ▸ mark)
        · exact .inr ⟨hx, copy, mark⟩
    · simp [copy, original_of_not_copy hc copy]
  · intro x code y move
    rcases leads_splitInto.1 move with
      ⟨⟨before, _⟩, _⟩ | ⟨label, he, _, rfl, hl⟩ | ⟨copy, t, label, he, rfl, hl⟩
    · rwa [original_of_lt ((hm.move before).1), original_of_lt ((hm.move before).2)]
    · have before : m.edges.Leads x code s := ⟨label, he, hl⟩
      rwa [original_of_lt ((hm.move before).1), original_copyFor hc]
    · have before : m.edges.Leads s code t := ⟨label, he, hl⟩
      rwa [original_of_copy ((hc x).1 copy), original_target hc ((hm.move before).2)]
  · rintro x code t ⟨label, he, hl⟩
    have ht : original unused count s (target s copies t label) = t :=
      original_target hc (hm.edge ⟨label, he⟩).2 label
    have before : m.edges.get? (original unused count s x)
        (original unused count s (target s copies t label)) = some label := by rwa [ht]
    refine ⟨target s copies t label, ht, leads_copied hc before ?_ hl⟩
    rw [ht]
    exact fun loop => if_pos loop

/-! ## Numbers of new states -/

theorem lt_firstUnused {s : State} (hs : s ∈ m.states) : s < m.firstUnused := by
  have bounds (l : List State) (b : State) :
      b ≤ l.foldl (fun bound s => max bound (s + 1)) b ∧
        ∀ s ∈ l, s < l.foldl (fun bound s => max bound (s + 1)) b := by
    induction l generalizing b with
    | nil => simp
    | cons r l ih =>
      obtain ⟨start, rest⟩ := ih (max b (r + 1))
      have first : r + 1 ≤ max b (r + 1) := Nat.le_max_right b (r + 1)
      rw [List.foldl_cons]
      exact ⟨Nat.le_trans (Nat.le_max_left b (r + 1)) start,
        List.forall_mem_cons.2 ⟨Nat.le_trans first start, rest⟩⟩
  exact (bounds m.states 0).2 s hs

theorem columnKeys_lt_firstUnused (m : Automaton) :
    ∀ s ∈ m.edges.columnKeys, s < m.firstUnused := by
  intro s hs
  obtain ⟨r, label, he⟩ := SparseTable.mem_columnKeys_iff.1 hs
  exact lt_firstUnused (mem_states.2 (.inr (.inl ⟨r, label, he⟩)))

end PatternGroups.Automaton
