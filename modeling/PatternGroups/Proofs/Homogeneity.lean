import Mathlib.Data.List.Nodup
import PatternGroups.Proofs.Labels
import PatternGroups.Proofs.Splitting

/-!
# Splitting makes automata homogeneous

After a split each edge is the copy of an edge with the same label, and an edge into a copy has the
label that the copy stands for. So a split mixes the labels of no state that had one label before,
whatever edges lead between the copies and the other states, and one sweep is enough.

* `OneForEach`: the copies of a state correspond to the labels of the edges that enter it;
* `get?_splitInto`: the edges after a split;
* `mixed_split`: what one split does to mixed states;
* `homogenize_sweeps`, `homogenize_keeps`: what each split keeps lasts through the sweep;
* `covering_homogenize`: copies and originals answer for each other after the sweep;
* `not_mixed_homogenize`: no state is mixed after the sweep.
-/

namespace PatternGroups.Automaton

variable {m : Automaton} {copies : List (SymbolSet × State)} {unused count s : State}

/-! ## Copies and labels -/

theorem nodup_eraseDups {α : Type} [BEq α] [LawfulBEq α] (l : List α) : l.eraseDups.Nodup := by
  induction hl : l.length using Nat.strongRecOn generalizing l with
  | _ n ih =>
    cases l with
    | nil => exact List.nodup_nil
    | cons a rest =>
      have shorter : (rest.filter fun b => !b == a).length < n := by
        have filtered := List.length_filter_le (fun b => !b == a) rest
        rw [List.length_cons] at hl
        omega
      rw [List.eraseDups_cons, List.nodup_cons]
      refine ⟨?_, ih _ shorter _ rfl⟩
      simp

/-- Each label that enters a state has a copy, and no two labels have the same. -/
structure OneForEach (m : Automaton) (copies : List (SymbolSet × State))
    (unused count s : State) : Prop where
  places : CopiesOf copies unused count s
  labels : ∀ {label}, (∃ x, (label, x) ∈ copies) ↔ m.EnteredBy s label
  copyFor_eq : ∀ {label x}, (label, x) ∈ copies → copyFor s copies label = x
  label_eq : ∀ {label other x}, (label, x) ∈ copies → (other, x) ∈ copies → label = other

theorem OneForEach.mem_copies (h : OneForEach m copies unused count s) {label : SymbolSet}
    (hl : m.EnteredBy s label) : (label, copyFor s copies label) ∈ copies := by
  obtain ⟨x, hx⟩ := h.labels.2 hl
  rwa [h.copyFor_eq hx]

theorem copies_length : (m.copies unused s).length =
    ((m.incoming s).map Prod.snd).eraseDups.length := by
  rw [copies, List.length_zip, List.length_cons, List.length_range']
  omega

theorem oneForEach_copies (h : ¬(m.copies unused s).length < 2) (hs : s < unused) :
    OneForEach m (m.copies unused s) unused ((m.copies unused s).length - 1) s := by
  have places := copiesOf_copies h
  rw [copies_length] at h
  have long : ((m.incoming s).map Prod.snd).eraseDups.length =
      (s :: List.range' unused (((m.incoming s).map Prod.snd).eraseDups.length - 1)).length := by
    rw [List.length_cons, List.length_range']
    omega
  have fst : (m.copies unused s).map Prod.fst = ((m.incoming s).map Prod.snd).eraseDups :=
    List.map_fst_zip (Nat.le_of_eq long)
  have snd : (m.copies unused s).map Prod.snd =
      s :: List.range' unused (((m.incoming s).map Prod.snd).eraseDups.length - 1) :=
    List.map_snd_zip (Nat.le_of_eq long.symm)
  have labelsNodup : ((m.copies unused s).map Prod.fst).Nodup := fst ▸ nodup_eraseDups _
  have statesNodup : ((m.copies unused s).map Prod.snd).Nodup := by
    rw [snd, List.nodup_cons, List.mem_range'_1]
    exact ⟨fun hle => Nat.not_lt.2 hle.1 hs, List.nodup_range'⟩
  refine ⟨places, ?_, ?_, ?_⟩
  · intro label
    rw [← mem_map_incoming, ← List.mem_eraseDups, ← fst, List.mem_map]
    constructor
    · rintro ⟨x, hx⟩
      exact ⟨_, hx, rfl⟩
    · rintro ⟨⟨_, x⟩, hx, rfl⟩
      exact ⟨x, hx⟩
  · intro label x hx
    cases found : (m.copies unused s).lookup label with
    | none => simpa using List.lookup_eq_none_iff.1 found _ hx
    | some y =>
      obtain ⟨before, after, split, _⟩ := List.lookup_eq_some_iff.1 found
      have hy : (label, y) ∈ m.copies unused s := by
        rw [split]
        exact List.mem_append_right before List.mem_cons_self
      rw [copyFor, found, Option.getD_some]
      exact congrArg Prod.snd (List.inj_on_of_nodup_map labelsNodup hy hx rfl)
  · intro label other x hx hy
    exact congrArg Prod.fst (List.inj_on_of_nodup_map statesNodup hx hy rfl)

/-- A state that needs no split is entered by one label, at most. -/
theorem not_mixed_of_copies (h : (m.copies unused s).length < 2) : ¬m.Mixed s := by
  rw [copies_length] at h
  rintro ⟨label, other, hl, ho, differ⟩
  rw [← mem_map_incoming, ← List.mem_eraseDups] at hl ho
  generalize ((m.incoming s).map Prod.snd).eraseDups = labels at h hl ho
  match labels with
  | [] => cases hl
  | [only] => exact differ ((List.mem_singleton.1 hl).trans (List.mem_singleton.1 ho).symm)
  | _ :: _ :: _ => simp only [List.length_cons] at h; omega

/-! ## Edges after a split -/

theorem within_firstUnused (m : Automaton) : m.Within m.firstUnused := fun _ => lt_firstUnused

/-- An edge of a split automaton, while the edges in `rest` are still to be redirected: it is the
copy of an edge with the same label, and leads to the copy for that label unless it waits. -/
def CopiedEdge (m : Automaton) (copies : List (SymbolSet × State)) (unused count s : State)
    (rest : List (State × SymbolSet)) (a b : State) (label : SymbolSet) : Prop :=
  m.edges.get? (original unused count s a) (original unused count s b) = some label ∧
    (original unused count s b = s →
      b = copyFor s copies label ∨ (b = s ∧ a ≠ s ∧ (a, label) ∈ rest))

theorem closedUnderUnion_copiedEdge (rest : List (State × SymbolSet)) :
    SparseTable.ClosedUnderUnion (CopiedEdge m copies unused count s rest) :=
  SparseTable.closedUnderUnion_of_unique fun h h' => Option.some.inj (h.1.symm.trans h'.1)

theorem leads_to_copy {rest : List (State × SymbolSet)} {a b : State} {label : SymbolSet}
    (he : m.edges.get? (original unused count s a) (original unused count s b) = some label)
    (hb : original unused count s b = s → b = copyFor s copies label) :
    CopiedEdge m copies unused count s rest a b label :=
  ⟨he, fun h => .inl (hb h)⟩

/-- The edges into the state are redirected one by one. -/
theorem obeys_foldl_redirect (hc : CopiesOf copies unused count s) (hm : m.Within unused)
    {edges : Edges} {rest : List (State × SymbolSet)}
    (hrest : ∀ e ∈ rest, m.edges.get? e.1 s = some e.2)
    (h : edges.Obeys (CopiedEdge m copies unused count s rest)) :
    (rest.foldl (redirect s copies) edges).Obeys (CopiedEdge m copies unused count s []) := by
  induction rest generalizing edges with
  | nil => exact h
  | cons e rest ih =>
    obtain ⟨r, first⟩ := e
    have hfirst : m.edges.get? r s = some first := hrest _ List.mem_cons_self
    have hr : r < unused := (hm.edge ⟨first, hfirst⟩).1
    refine ih (fun e he => hrest e (List.mem_cons_of_mem _ he)) ?_
    by_cases moved : Moved s copies (r, first)
    · have eq : redirect s copies edges (r, first) =
          (edges.erase r s).join r (copyFor s copies first) first := if_pos moved
      rw [eq]
      refine SparseTable.Obeys.join ?_ (closedUnderUnion_copiedEdge rest) ?_
      · intro a b label he
        rw [SparseTable.erase, SparseTable.get?_keep] at he
        split at he
        · rename_i apart
          obtain ⟨copied, leads⟩ := h he
          refine ⟨copied, fun hb => (leads hb).imp_right ?_⟩
          rintro ⟨rfl, ha, hmem⟩
          refine ⟨rfl, ha, (List.mem_cons.1 hmem).resolve_left ?_⟩
          rintro same
          cases same
          simp at apart
        · cases he
      · refine leads_to_copy ?_ fun _ => rfl
        rwa [original_of_lt hr, original_copyFor hc]
    · have eq : redirect s copies edges (r, first) = edges := if_neg moved
      rw [eq]
      intro a b label he
      obtain ⟨copied, leads⟩ := h he
      refine ⟨copied, fun hb => ?_⟩
      rcases leads hb with leads | ⟨rfl, ha, hmem⟩
      · exact .inl leads
      · rcases List.mem_cons.1 hmem with same | hmem
        · cases same
          have stays : copyFor b copies first = b := by
            by_contra other
            exact moved ⟨ha, other⟩
          exact .inl stays.symm
        · exact .inr ⟨rfl, ha, hmem⟩

/-- Every edge of the split automaton is the copy of an edge with the same label; if it leads to a
copy of the split state, then to the copy for that label. -/
theorem get?_splitInto (hc : CopiesOf copies unused count s) (hm : m.Within unused)
    (hs : s < unused) {a b : State} {label : SymbolSet}
    (he : (m.splitInto s copies).edges.get? a b = some label) :
    m.edges.get? (original unused count s a) (original unused count s b) = some label ∧
      (original unused count s b = s → b = copyFor s copies label) := by
  have start : (m.edges.erase s s).Obeys (CopiedEdge m copies unused count s (m.incoming s)) := by
    intro x y label edge
    rw [SparseTable.erase, SparseTable.get?_keep] at edge
    split at edge
    · rename_i apart
      obtain ⟨hx, hy⟩ := hm.edge ⟨label, edge⟩
      refine ⟨by rwa [original_of_lt hx, original_of_lt hy], fun hys => ?_⟩
      obtain rfl : y = s := (original_of_lt hy).symm.trans hys
      refine .inr ⟨rfl, ?_, mem_incoming.2 edge⟩
      rintro rfl
      simp at apart
    · cases edge
  have redirected := obeys_foldl_redirect hc hm (fun e => mem_incoming.1) start
  have all : (m.splitInto s copies).edges.Obeys (CopiedEdge m copies unused count s []) := by
    refine redirected.joinAll (closedUnderUnion_copiedEdge []) ?_
    intro e added
    simp only [copiedOutgoing_eq, outgoing, List.mem_flatMap, List.mem_map, Prod.exists,
      Prod.mk.injEq, SparseTable.mem_row] at added
    obtain ⟨l, copy, hcopy, _, _, ⟨t, label, edge, rfl, rfl⟩, rfl⟩ := added
    have ht := (hm.edge ⟨label, edge⟩).2
    refine leads_to_copy ?_ ?_
    · rwa [original_of_copy ((hc copy).1 ⟨l, hcopy⟩), original_target hc ht]
    · rw [original_target hc ht]
      exact fun loop => if_pos loop
  obtain ⟨copied, leads⟩ := all he
  exact ⟨copied, fun hb => (leads hb).resolve_right fun moved => List.not_mem_nil moved.2.2⟩

theorem enteredBy_splitInto (hc : CopiesOf copies unused count s) (hm : m.Within unused)
    (hs : s < unused) {y : State} {label : SymbolSet}
    (h : (m.splitInto s copies).EnteredBy y label) :
    m.EnteredBy (original unused count s y) label ∧
      (original unused count s y = s → y = copyFor s copies label) := by
  obtain ⟨x, he⟩ := h
  obtain ⟨copied, leads⟩ := get?_splitInto hc hm hs he
  exact ⟨⟨_, copied⟩, leads⟩

theorem mixed_splitInto (h : OneForEach m copies unused count s) (hm : m.Within unused)
    (hs : s < unused) {y : State} (mixed : (m.splitInto s copies).Mixed y) :
    m.Mixed y ∧ y ≠ s := by
  obtain ⟨label, other, entered, entered', differ⟩ := mixed
  obtain ⟨before, leads⟩ := enteredBy_splitInto h.places hm hs entered
  obtain ⟨before', leads'⟩ := enteredBy_splitInto h.places hm hs entered'
  by_cases copy : ∃ l, (l, y) ∈ copies
  · -- A copy stands for one label, so that edges into it have this one.
    have place : original unused count s y = s := original_of_copy ((h.places y).1 copy)
    rw [place] at before before'
    have first := h.mem_copies before
    have second := h.mem_copies before'
    rw [← leads place] at first
    rw [← leads' place] at second
    exact absurd (h.label_eq first second) differ
  · obtain ⟨hne, same⟩ := original_of_not_copy h.places copy
    rw [same] at before before'
    exact ⟨⟨label, other, before, before', differ⟩, hne⟩

/-! ## The sweep -/

/-- What becomes of an automaton when a state is split: nothing if one label enters the state, at
most. -/
theorem split_cases (m : Automaton) (hs : s < unused) :
    (¬m.Mixed s ∧ m.split unused s = (m, unused)) ∨
      ∃ copies count, OneForEach m copies unused count s ∧
        m.split unused s = (m.splitInto s copies, unused + count) := by
  by_cases few : (m.copies unused s).length < 2
  · exact .inl ⟨not_mixed_of_copies few, if_pos few⟩
  · exact .inr ⟨_, _, oneForEach_copies few hs, if_neg few⟩

theorem mixed_split (hm : m.Within unused) (hs : s < unused) {y : State}
    (mixed : (m.split unused s).1.Mixed y) : m.Mixed y ∧ y ≠ s := by
  rcases split_cases m hs with ⟨single, eq⟩ | ⟨copies, count, each, eq⟩
  · rw [eq] at mixed
    refine ⟨mixed, ?_⟩
    rintro rfl
    exact single mixed
  · rw [eq] at mixed
    exact mixed_splitInto each hm hs mixed

theorem mem_states_splitInto (hc : CopiesOf copies unused count s) (hm : m.Within unused)
    (hs : s < unused) {x : State} (hx : x ∈ (m.splitInto s copies).states) :
    original unused count s x ∈ m.states := by
  have covering := covering_splitInto hc hm
  rcases mem_states.1 hx with ⟨y, label, he⟩ | ⟨r, label, he⟩ | ⟨id, mark⟩
  · exact mem_states.2 (.inl ⟨_, label, (get?_splitInto hc hm hs he).1⟩)
  · exact mem_states.2 (.inr (.inl ⟨_, label, (get?_splitInto hc hm hs he).1⟩))
  · exact mem_states.2 (.inr (.inr ⟨id, covering.marks.1 mark⟩))

theorem within_split (hm : m.Within unused) (hs : s < unused) :
    (m.split unused s).1.Within (m.split unused s).2 ∧ unused ≤ (m.split unused s).2 := by
  rcases split_cases m hs with ⟨_, eq⟩ | ⟨copies, count, each, eq⟩
  · rw [eq]
    exact ⟨hm, Nat.le_refl unused⟩
  · rw [eq]
    refine ⟨fun x hx => ?_, Nat.le_add_right unused count⟩
    exact lt_of_original_lt (hm _ (mem_states_splitInto each.places hm hs hx))

/-- What holds of an automaton and the states still to be split holds throughout the sweep, if each
split keeps it. -/
theorem sweep_keeps {P : List State → Automaton → Prop}
    (step : ∀ {m unused s l}, m.Within unused → s < unused → P (s :: l) m →
      P l (m.split unused s).1)
    {l : List State} (hm : m.Within unused) (hl : ∀ s ∈ l, s < unused) (h : P l m) :
    P [] (l.foldl (fun (m, unused) s => m.split unused s) (m, unused)).1 := by
  induction l generalizing m unused with
  | nil => exact h
  | cons s l ih =>
    have hs : s < unused := hl s List.mem_cons_self
    obtain ⟨within, grows⟩ := within_split hm hs
    have hl' : ∀ r ∈ l, r < (m.split unused s).2 := fun r hr =>
      Nat.lt_of_lt_of_le (hl r (List.mem_cons_of_mem s hr)) grows
    exact ih within hl' (step hm hs h)

theorem homogenize_sweeps {P : List State → Automaton → Prop}
    (step : ∀ {m unused s l}, m.Within unused → s < unused → P (s :: l) m →
      P l (m.split unused s).1)
    (h : P m.edges.columnKeys m) : P [] m.homogenize :=
  sweep_keeps step m.within_firstUnused m.columnKeys_lt_firstUnused h

/-- What holds of an automaton lasts if splitting a state into copies for its labels keeps it. -/
theorem homogenize_keeps {P : Automaton → Prop}
    (step : ∀ {m copies unused count s}, OneForEach m copies unused count s → m.Within unused →
      s < unused → P m → P (m.splitInto s copies))
    (h : P m) : P m.homogenize := by
  refine homogenize_sweeps (P := fun _ n => P n) ?_ h
  intro n unused s _ hn hs before
  rcases split_cases n hs with ⟨_, eq⟩ | ⟨copies, count, each, eq⟩
  · rwa [eq]
  · rw [eq]
    exact step each hn hs before

/-- Each state of the homogeneous automaton answers for one state of the automaton as it was. -/
theorem covering_homogenize (m : Automaton) : ∃ h, Covering m.homogenize m h ∧ h 0 = 0 := by
  refine homogenize_keeps (P := fun n => ∃ h, Covering n m h ∧ h 0 = 0) ?_ ⟨id, .refl m, rfl⟩
  intro n copies unused count s each hn hs before
  obtain ⟨h, covering, start⟩ := before
  have first := covering_splitInto each.places hn
  have zero : 0 < unused := Nat.lt_of_le_of_lt (Nat.zero_le s) hs
  exact ⟨_, first.trans covering, by rw [Function.comp_apply, original_of_lt zero, start]⟩

/-- The invariant of the sweep: a mixed state is one of those still to be split. -/
theorem not_mixed_homogenize (m : Automaton) (y : State) : ¬m.homogenize.Mixed y := by
  have waiting : ∀ y, m.homogenize.Mixed y → y ∈ ([] : List State) := by
    refine homogenize_sweeps (P := fun rest n => ∀ y, n.Mixed y → y ∈ rest) ?_ ?_
    · intro n unused s rest hn hs h y mixed
      obtain ⟨before, ne⟩ := mixed_split hn hs mixed
      exact (List.mem_cons.1 (h y before)).resolve_left ne
    · rintro y ⟨label, _, ⟨x, he⟩, _⟩
      exact SparseTable.mem_columnKeys_iff.2 ⟨x, label, he⟩
  exact fun mixed => List.not_mem_nil (waiting y mixed)

end PatternGroups.Automaton
