import Mathlib.Tactic.Abel
import PatternGroups.EpsilonAutomaton.Construction
import PatternGroups.Proofs.EpsilonRuns
import PatternGroups.Proofs.Languages
import PatternGroups.Proofs.Walks

/-!
# Automata of syntax trees

A connector adds paths for a language if what it adds is as good as one link for that language
between its end points, whatever other links there are between the states that were there before.
Fresh states are bypassed one by one, so that end points may be shared and may be the same state.

* `connects_repeated`: copies between the same end points;
* `connects_node`, `connects_chain`, `connects_alternatives`: every tree adds its language;
* `finds_iff_walk`: what is found is a mark at the end of a walk.
-/

namespace PatternGroups.EpsilonAutomaton

open Computability

variable {m m' : EpsilonAutomaton}

/-- Edges read one symbol, and ε-edges read nothing. -/
def links (m : EpsilonAutomaton) : Links :=
  fun s t => {w | (∃ code, w = [code] ∧ m.edges.Leads s code t) ∨ (w = [] ∧ m.Jump s t)}

theorem mem_links {s t : State} {w : List Nat} :
    w ∈ m.links s t ↔ (∃ code, w = [code] ∧ m.edges.Leads s code t) ∨ (w = [] ∧ m.Jump s t) :=
  Iff.rfl

theorem WellFormed.below (hm : m.WellFormed) : m.links.Below m.states := by
  rintro s t w (⟨code, _, label, he, _⟩ | ⟨_, jump⟩)
  · exact hm.edges he
  · exact hm.jumps jump

theorem WellFormed.join (hm : m.WellFormed) {s t : State} {label : SymbolSet} (hs : s < m.states)
    (ht : t < m.states) : (m.join s t label).WellFormed := by
  constructor
  · intro a b l he
    rw [EpsilonAutomaton.join, SparseTable.get?_join] at he
    split at he
    · rename_i h
      obtain ⟨rfl, rfl⟩ := h
      exact ⟨hs, ht⟩
    · exact hm.edges he
  · exact hm.jumps

theorem links_join {s t : State} {label : SymbolSet} :
    (m.join s t label).links = m.links + link s t label.words := by
  funext a b
  ext w
  rw [mem_add_links, mem_link, mem_links, mem_links]
  simp only [EpsilonAutomaton.join, SparseTable.leads_join]
  constructor
  · rintro (⟨code, rfl, h | ⟨rfl, rfl, hc⟩⟩ | h)
    · exact .inl (.inl ⟨code, rfl, h⟩)
    · exact .inr ⟨⟨rfl, rfl⟩, code, rfl, hc⟩
    · exact .inl (.inr h)
  · rintro ((⟨code, rfl, h⟩ | h) | ⟨⟨rfl, rfl⟩, code, rfl, hc⟩)
    · exact .inl ⟨code, rfl, .inl h⟩
    · exact .inr h
    · exact .inl ⟨code, rfl, .inr ⟨rfl, rfl, hc⟩⟩

theorem jump_jump {s t a b : State} (hne : s ≠ t) :
    (m.jump s t).Jump a b ↔ m.Jump a b ∨ (a = s ∧ b = t) := by
  unfold Jump
  rw [jump, if_neg hne, SparseTable.get?_insert]
  split
  · rename_i h
    simp [h]
  · rename_i h
    simp [h]

theorem WellFormed.jump (hm : m.WellFormed) {s t : State} (hs : s < m.states)
    (ht : t < m.states) : (m.jump s t).WellFormed := by
  by_cases hne : s = t
  · rwa [EpsilonAutomaton.jump, if_pos hne]
  · have states : (m.jump s t).states = m.states := by rw [EpsilonAutomaton.jump, if_neg hne]
    constructor
    · rw [EpsilonAutomaton.jump, if_neg hne]
      exact hm.edges
    · intro a b h
      rw [states]
      rcases (jump_jump hne).1 h with h | ⟨rfl, rfl⟩
      · exact hm.jumps h
      · exact ⟨hs, ht⟩

theorem links_jump {s t : State} (hne : s ≠ t) : (m.jump s t).links = m.links + link s t 1 := by
  funext a b
  ext w
  have edges : (m.jump s t).edges = m.edges := by rw [jump, if_neg hne]
  rw [mem_add_links, mem_link, mem_links, mem_links, edges, jump_jump hne, Language.mem_one]
  constructor
  · rintro (h | ⟨rfl, h | h⟩)
    · exact .inl (.inl h)
    · exact .inl (.inr ⟨rfl, h⟩)
    · exact .inr ⟨h, rfl⟩
  · rintro ((h | ⟨rfl, h⟩) | ⟨h, rfl⟩)
    · exact .inl h
    · exact .inr ⟨rfl, .inl h⟩
    · exact .inr ⟨rfl, .inr h⟩

theorem WellFormed.fresh (hm : m.WellFormed) : m.fresh.2.WellFormed :=
  ⟨fun he => ⟨Nat.lt_succ_of_lt (hm.edges he).1, Nat.lt_succ_of_lt (hm.edges he).2⟩,
    fun h => ⟨Nat.lt_succ_of_lt (hm.jumps h).1, Nat.lt_succ_of_lt (hm.jumps h).2⟩⟩

/-! ## Adding links -/

/-- As far as the states of `m` go, `m'` is `m` with further links. -/
structure Adds (m m' : EpsilonAutomaton) (F : Links) : Prop where
  wellFormed : m'.WellFormed
  grows : m.states ≤ m'.states
  accepts : m'.accepts = m.accepts
  agree : ∀ X : Links, X.Below m.states → Agree m.states (m'.links + X) (m.links + (F + X))

theorem Adds.walk {F : Links} (h : Adds m m' F) {s t : State} {w : List Nat} (hs : s < m.states)
    (ht : t < m.states) : Walk m'.links s w t ↔ Walk (m.links + F) s w t := by
  have agree := h.agree 0 (fun _ _ _ hw => hw.elim) s t w hs ht
  rwa [add_zero, add_zero] at agree

theorem Adds.refl (hm : m.WellFormed) : Adds m m 0 := by
  refine ⟨hm, Nat.le_refl _, rfl, fun X _ => ?_⟩
  rw [zero_add]
  exact .refl _ _

theorem Adds.trans {m₁ m₂ : EpsilonAutomaton} {F G : Links} (h₁ : Adds m m₁ F)
    (h₂ : Adds m₁ m₂ G) (hG : G.Below m.states) : Adds m m₂ (F + G) := by
  refine ⟨h₂.wellFormed, Nat.le_trans h₁.grows h₂.grows, h₂.accepts.trans h₁.accepts, ?_⟩
  intro X hX
  rw [add_assoc F G X]
  exact ((h₂.agree X (hX.mono h₁.grows)).mono h₁.grows).trans (h₁.agree (G + X) (hG.add hX))

/-- A fresh state is bypassed once its links are there. -/
theorem Adds.bypass {F : Links} {A B C : Language Nat} {s t : State} (hm : m.WellFormed)
    (hs : s < m.states) (ht : t < m.states) (h : Adds m.fresh.2 m' F)
    (hF : F = through s m.states t A B C) : Adds m m' (link s t (A * (B∗ * C))) := by
  subst hF
  refine ⟨h.wellFormed, Nat.le_of_succ_le h.grows, h.accepts, ?_⟩
  intro X hX
  have fresh : Agree m.states (m'.links + X) (m.links + X + through s m.states t A B C) := by
    rw [add_assoc, add_comm X]
    exact (h.agree X (hX.mono (Nat.le_succ _))).mono (Nat.le_succ _)
  rw [add_comm (link s t _) X, ← add_assoc]
  exact fresh.trans (agree_bypass (hm.below.add hX) hs ht (Nat.le_refl _))

/-! ## Connectors -/

/-- A connector adds paths for the words of a language, and for nothing else. -/
def Connects (K : Connector) (L : Language Nat) : Prop :=
  ∀ (m : EpsilonAutomaton) (s t : State), m.WellFormed → s < m.states → t < m.states →
    Adds m (K s t m) (link s t L)

theorem connects_join (label : SymbolSet) :
    Connects (fun s t m => m.join s t label) label.words := by
  intro m s t hm hs ht
  refine ⟨hm.join hs ht, Nat.le_refl _, rfl, fun X _ => ?_⟩
  rw [links_join, add_assoc]
  exact .refl _ _

theorem connects_jump : Connects jump 1 := by
  intro m s t hm hs ht
  by_cases hne : s = t
  · subst hne
    rw [jump, if_pos rfl]
    refine ⟨hm, Nat.le_refl _, rfl, fun X _ => ?_⟩
    rw [add_comm (link s s 1) X, ← add_assoc]
    exact (agree_loop m.states _ s).symm
  · refine ⟨hm.jump hs ht, ?_, ?_, fun X _ => ?_⟩
    · rw [jump, if_neg hne]
    · rw [jump, if_neg hne]
    · rw [links_jump hne, add_assoc]
      exact .refl _ _

/-- A connector between states that were there from the start. -/
theorem Adds.connect {F : Links} {K : Connector} {L : Language Nat} {s t : State}
    (h : Adds m m' F) (hK : Connects K L) (hs : s < m.states) (ht : t < m.states) :
    Adds m (K s t m') (F + link s t L) :=
  h.trans (hK m' s t h.wellFormed (Nat.lt_of_lt_of_le hs h.grows) (Nat.lt_of_lt_of_le ht h.grows))
    (below_link hs ht)

section Copies

variable {once last : Connector} {L K : Language Nat}

/-- Two connectors in a row, over a fresh state; the second is there first. -/
theorem Adds.inRow (hK : Connects last K) (hL : Connects once L) {s t : State}
    (hm : m.WellFormed) (hs : s < m.states) (ht : t < m.states) :
    Adds m (last s m.states (once m.states t m.fresh.2)) (link s t (K * L)) := by
  have hq : m.states < m.fresh.2.states := Nat.lt_succ_self _
  have hs' : s < m.fresh.2.states := Nat.lt_succ_of_lt hs
  have ht' : t < m.fresh.2.states := Nat.lt_succ_of_lt ht
  have both := ((Adds.refl hm.fresh).connect hL hq ht').connect hK hs' hq
  have h := both.bypass (A := K) (B := 0) (C := L) hm hs ht
    (by rw [through, link_zero]; abel)
  rwa [kstar_zero, one_mul] at h

theorem connects_leading (hK : Connects last K) (hL : Connects once L) (n : Nat) :
    Connects (once.leading last n) (K * L ^ n) := by
  induction n with
  | zero =>
    rw [pow_zero, mul_one]
    exact hK
  | succ n ih =>
    intro m s t hm hs ht
    rw [pow_succ, ← mul_assoc]
    exact Adds.inRow ih hL hm hs ht

theorem connects_upTo (hL : Connects once L) (n : Nat) :
    Connects (once.upTo n) (Bounds.copies ⟨1, some (n + 1)⟩ L) := by
  induction n with
  | zero =>
    rw [Bounds.copies_upTo_zero]
    exact hL
  | succ n ih =>
    intro m s t hm hs ht
    have one := hL m s t hm hs ht
    have more := Adds.inRow ih hL one.wellFormed (Nat.lt_of_lt_of_le hs one.grows)
      (Nat.lt_of_lt_of_le ht one.grows)
    rw [Bounds.copies_upTo_succ, ← link_add]
    exact one.trans more (below_link hs ht)

/-! The three unbounded repetitions loop at a fresh state, and differ in what leads there and
back. -/

theorem connects_star (hL : Connects once L) : Connects once.star L∗ := by
  intro m s t hm hs ht
  have hq : m.states < m.fresh.2.states := Nat.lt_succ_self _
  have added := (((Adds.refl hm.fresh).connect connects_jump (Nat.lt_succ_of_lt hs) hq).connect
    connects_jump hq (Nat.lt_succ_of_lt ht)).connect hL hq hq
  have h := added.bypass (A := 1) (B := L) (C := 1) hm hs ht (by rw [through]; abel)
  rwa [one_mul, mul_one] at h

theorem connects_plus (hL : Connects once L) : Connects once.plus (L∗ * L) := by
  intro m s t hm hs ht
  have hq : m.states < m.fresh.2.states := Nat.lt_succ_self _
  have added := (((Adds.refl hm.fresh).connect connects_jump (Nat.lt_succ_of_lt hs) hq).connect
    hL hq hq).connect hL hq (Nat.lt_succ_of_lt ht)
  have h := added.bypass (A := 1) (B := L) (C := L) hm hs ht (by rw [through]; abel)
  rwa [one_mul] at h

theorem connects_twoOrMore (hL : Connects once L) : Connects once.twoOrMore (L∗ * L ^ 2) := by
  intro m s t hm hs ht
  have hq : m.states < m.fresh.2.states := Nat.lt_succ_self _
  have added := (((Adds.refl hm.fresh).connect hL hq hq).connect hL hq
    (Nat.lt_succ_of_lt ht)).connect hL (Nat.lt_succ_of_lt hs) hq
  have h := added.bypass (A := L) (B := L) (C := L) hm hs ht (by rw [through]; abel)
  rwa [← mul_assoc, ← Language.mul_self_kstar_comm, mul_assoc, ← pow_two] at h

theorem connects_repeated (hL : Connects once L) (b : Bounds) :
    Connects (once.repeated b) (b.copies L) := by
  obtain ⟨n, _ | u⟩ := b
  · rw [Bounds.copies_none]
    match n with
    | 0 =>
      rw [pow_zero, mul_one]
      exact connects_star hL
    | 1 =>
      rw [pow_one]
      exact connects_plus hL
    | n + 2 =>
      have h := connects_leading (connects_twoOrMore hL) hL n
      rwa [mul_assoc, ← pow_add, add_comm 2 n] at h
  · match n with
    | 0 =>
      intro m s t hm hs ht
      have skip := connects_jump m s t hm hs ht
      rw [Bounds.copies_zero, ← link_add]
      exact skip.connect (connects_upTo hL _) hs ht
    | n + 1 =>
      rw [Bounds.copies_succ]
      exact connects_leading (connects_upTo hL _) hL n

end Copies

/-! ## Trees -/

mutual

theorem connects_node (node : Node) : Connects node.connect node.language := by
  cases node with
  | leaf symbols bounds =>
    rw [Node.connect, Node.language]
    exact connects_repeated (connects_join symbols) bounds
  | group alternatives bounds =>
    rw [Node.connect, Node.language]
    exact connects_repeated (connects_alternatives alternatives) bounds

theorem connects_chain (chain : List Node) :
    Connects (connectChain chain) (chainLanguage chain) := by
  match chain with
  | [] =>
    rw [connectChain, chainLanguage]
    exact connects_jump
  | [node] =>
    rw [connectChain, chainLanguage_singleton]
    exact connects_node node
  | node :: next :: rest =>
    intro m s t hm hs ht
    have hq : m.states < m.fresh.2.states := Nat.lt_succ_self _
    have added := ((Adds.refl hm.fresh).connect (connects_node node) (Nat.lt_succ_of_lt hs)
      hq).connect (connects_chain (next :: rest)) hq (Nat.lt_succ_of_lt ht)
    have h := added.bypass (A := node.language) (B := 0) (C := chainLanguage (next :: rest)) hm hs
      ht (by rw [through, link_zero]; abel)
    rwa [kstar_zero, one_mul] at h

theorem connects_alternatives (alternatives : List (List Node)) :
    Connects (connectAlternatives alternatives) (alternativesLanguage alternatives) := by
  match alternatives with
  | [] =>
    intro m s t hm _ _
    rw [alternativesLanguage, link_zero]
    exact .refl hm
  | chain :: rest =>
    intro m s t hm hs ht
    have others := connects_alternatives rest m s t hm hs ht
    rw [alternativesLanguage, add_comm, ← link_add]
    exact others.connect (connects_chain chain) hs ht

end

end PatternGroups.EpsilonAutomaton
