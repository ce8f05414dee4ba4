import PatternGroups.Proofs.Construction

/-!
# What the automaton of several trees finds

The automaton starts with a state that reads any symbol and stays, and an accepting state for each
rule; each tree then adds its language between the two.

* `adds_ofChains`: the whole construction, seen from state 0 and the accepting states;
* `walk_rules`: a walk to an accepting state reads any symbols, and then a word of the tree;
* `finds_ofChains_iff`: what state 0 finds in codes of symbols;
* `mem_run_ofChains_iff`: a run finds a rule exactly if a factor of the text is in its language.
-/

namespace PatternGroups

theorem SymbolSet.contains_full (code : Nat) : full.contains code = decide (code < 257) := by
  rw [full, contains_range]
  simp [Symbol.border]
  omega

namespace EpsilonAutomaton

variable {m : EpsilonAutomaton}

/-- A rule is found exactly if some walk along the beginning of the text leads to its mark. -/
theorem finds_iff_walk {s : State} {codes : List Nat} {id : RuleId} :
    m.Finds s codes id ↔
      ∃ u t, u <+: codes ∧ Walk m.links s u t ∧ id ∈ m.accepts.idsOf t := by
  constructor
  · intro h
    induction h with
    | @here s codes id mark => exact ⟨[], s, List.nil_prefix, .nil s, mark⟩
    | jump jump _ ih =>
      obtain ⟨u, r, hu, walk, mark⟩ := ih
      exact ⟨u, r, hu, .cons (.inr ⟨rfl, jump⟩) walk, mark⟩
    | @later s t code codes id move _ ih =>
      obtain ⟨u, r, hu, walk, mark⟩ := ih
      exact ⟨code :: u, r, List.cons_prefix_cons.2 ⟨rfl, hu⟩, .cons (.inl ⟨code, rfl, move⟩) walk,
        mark⟩
  · rintro ⟨u, t, hu, walk, mark⟩
    induction walk generalizing codes with
    | nil s => exact .here mark
    | cons first _ ih =>
      rcases first with ⟨code, rfl, move⟩ | ⟨rfl, jump⟩
      · obtain ⟨rest, rfl, hrest⟩ := List.cons_prefix_iff.1 hu
        exact .later move (ih hrest mark)
      · exact .jump jump (ih hu mark)

/-! ## The frame of the construction -/

theorem wellFormed_ofRules (n : Nat) : (ofRules n).WellFormed := by
  constructor
  · intro s t label he
    rw [ofRules, SparseTable.get?_join] at he
    split at he
    · rename_i h
      obtain ⟨rfl, rfl⟩ := h
      exact ⟨Nat.succ_pos n, Nat.succ_pos n⟩
    · cases he
  · intro s t h
    cases h

theorem links_ofRules (n : Nat) : (ofRules n).links = link 0 0 SymbolSet.full.words := by
  funext s t
  ext w
  rw [mem_link, mem_links]
  constructor
  · rintro (⟨code, rfl, move⟩ | ⟨_, jump⟩)
    · rcases SparseTable.leads_join.1 move with ⟨_, h, _⟩ | ⟨hs, ht, hc⟩
      · cases h
      · exact ⟨⟨hs, ht⟩, code, rfl, hc⟩
    · cases jump
  · rintro ⟨⟨hs, ht⟩, code, rfl, hc⟩
    exact .inl ⟨code, rfl, SparseTable.leads_join.2 (.inr ⟨hs, ht, hc⟩)⟩

theorem mem_accepts_ofRules {n : Nat} {s : State} {id : RuleId} :
    id ∈ (ofRules n).accepts.idsOf s ↔ s = id ∧ ∃ i < n, id = i + 1 := by
  have marks : ∀ (ids : List RuleId) (marks : Marks),
      id ∈ (ids.foldl (fun marks i => marks.mark i i) marks).idsOf s ↔
        id ∈ marks.idsOf s ∨ (s = id ∧ id ∈ ids) := by
    intro ids
    induction ids with
    | nil => simp
    | cons i rest ih =>
      intro marks
      rw [List.foldl_cons, ih, SparseTable.mem_idsOf_mark, or_assoc, List.mem_cons]
      apply or_congr_right
      constructor
      · rintro (⟨rfl, rfl⟩ | ⟨hs, h⟩)
        · exact ⟨rfl, .inl rfl⟩
        · exact ⟨hs, .inr h⟩
      · rintro ⟨rfl, rfl | h⟩
        · exact .inl ⟨rfl, rfl⟩
        · exact .inr ⟨rfl, h⟩
  have empty : id ∉ (SparseTable.empty : Marks).idsOf s := fun h => by cases h
  rw [ofRules, marks, List.mem_range'_1]
  constructor
  · rintro (h | ⟨hs, hid⟩)
    · exact absurd h empty
    · exact ⟨hs, id - 1, Nat.sub_lt_left_of_lt_add hid.1 hid.2, (Nat.sub_add_cancel hid.1).symm⟩
  · rintro ⟨hs, i, hi, rfl⟩
    exact .inr ⟨hs, Nat.le_add_left 1 i, by omega⟩

/-! ## All trees -/

/-- The links that trees stand for, each from state 0 to the accepting state of its rule. -/
def ruleLinks (rules : List (Chain × RuleId)) : Links :=
  fun s t => {w | ∃ rule ∈ rules, (s = 0 ∧ t = rule.2) ∧ w ∈ chainLanguage rule.1}

theorem mem_ruleLinks {rules : List (Chain × RuleId)} {s t : State} {w : List Nat} :
    w ∈ ruleLinks rules s t ↔
      ∃ rule ∈ rules, (s = 0 ∧ t = rule.2) ∧ w ∈ chainLanguage rule.1 := Iff.rfl

theorem adds_rules {rules : List (Chain × RuleId)} (hm : m.WellFormed) (h0 : 0 < m.states)
    (hr : ∀ rule ∈ rules, rule.2 < m.states) :
    Adds m (rules.foldr (fun rule m => connectChain rule.1 0 rule.2 m) m) (ruleLinks rules) := by
  induction rules with
  | nil =>
    have nothing : ruleLinks [] = 0 := by
      funext s t
      ext w
      exact ⟨fun ⟨_, h, _⟩ => absurd h List.not_mem_nil, fun h => h.elim⟩
    rw [nothing]
    exact .refl hm
  | cons rule rest ih =>
    have others := ih fun other h => hr other (List.mem_cons_of_mem rule h)
    have split : ruleLinks (rule :: rest) =
        ruleLinks rest + link 0 rule.2 (chainLanguage rule.1) := by
      funext s t
      ext w
      simp only [mem_add_links, mem_link, mem_ruleLinks, List.exists_mem_cons_iff, or_comm]
    rw [split]
    exact others.connect (connects_chain rule.1) h0 (hr rule List.mem_cons_self)

/-- Trees with the ids of their rules. -/
def numbered (chains : List Chain) : List (Chain × RuleId) :=
  chains.zip (List.range' 1 chains.length)

theorem mem_numbered {chains : List Chain} {chain : Chain} {id : RuleId} :
    (chain, id) ∈ numbered chains ↔ ∃ i, chains[i]? = some chain ∧ id = i + 1 := by
  rw [numbered, ← List.zipIdx_eq_zip_range', List.mk_mem_zipIdx_iff_le_and_getElem?_sub]
  constructor
  · rintro ⟨hid, hc⟩
    exact ⟨id - 1, hc, (Nat.sub_add_cancel hid).symm⟩
  · rintro ⟨i, hc, rfl⟩
    exact ⟨Nat.le_add_left 1 i, hc⟩

theorem adds_ofChains (chains : List Chain) :
    Adds (ofRules chains.length) (ofChains chains) (ruleLinks (numbered chains)) := by
  refine adds_rules (wellFormed_ofRules _) (Nat.succ_pos _) ?_
  rintro ⟨chain, id⟩ h
  obtain ⟨i, hc, rfl⟩ := mem_numbered.1 h
  exact Nat.succ_lt_succ (List.getElem?_eq_some_iff.1 hc).1

theorem wellFormed_ofChains (chains : List Chain) : (ofChains chains).WellFormed :=
  (adds_ofChains chains).wellFormed

/-! ## Walks from state 0 -/

/-- No link leaves an accepting state. -/
theorem walk_rules_stop {rules : List (Chain × RuleId)} {s t : State} {w : List Nat} (hs : s ≠ 0)
    (h : Walk (link 0 0 SymbolSet.full.words + ruleLinks rules) s w t) : w = [] ∧ t = s := by
  cases h with
  | nil => exact ⟨rfl, rfl⟩
  | cons first _ =>
    rcases mem_add_links.1 first with ⟨⟨h0, _⟩, _⟩ | ⟨_, _, ⟨h0, _⟩, _⟩
    · exact absurd h0 hs
    · exact absurd h0 hs

/-- State 0 is left at most once, by the word of a rule. -/
theorem walk_rules {rules : List (Chain × RuleId)} (positive : ∀ rule ∈ rules, rule.2 ≠ 0)
    {t : State} {w : List Nat} (ht : t ≠ 0) :
    Walk (link 0 0 SymbolSet.full.words + ruleLinks rules) 0 w t ↔
      ∃ u v, w = u ++ v ∧ (∀ code ∈ u, code < 257) ∧ v ∈ ruleLinks rules 0 t := by
  constructor
  · have fromStart {s : State} (h : Walk (link 0 0 SymbolSet.full.words + ruleLinks rules) s w t) :
        s = 0 → ∃ u v, w = u ++ v ∧ (∀ code ∈ u, code < 257) ∧ v ∈ ruleLinks rules 0 t := by
      induction h with
      | nil s => exact fun hs => absurd hs ht
      | @cons s r t x y first rest ih =>
        rintro rfl
        rcases mem_add_links.1 first with ⟨⟨_, hr⟩, code, rfl, hc⟩ | rule
        · obtain ⟨u, v, rfl, hu, hv⟩ := ih ht hr
          refine ⟨code :: u, v, rfl, ?_, hv⟩
          rintro c (_ | ⟨_, hcu⟩)
          · simpa [SymbolSet.contains_full] using hc
          · exact hu c hcu
        · have hr : r ≠ 0 := by
            obtain ⟨rule, hrule, ⟨_, hr⟩, _⟩ := rule
            exact hr ▸ positive rule hrule
          obtain ⟨rfl, rfl⟩ := walk_rules_stop hr rest
          exact ⟨[], x, List.append_nil x, by simp, rule⟩
    exact fun h => fromStart h rfl
  · rintro ⟨u, v, rfl, hu, hv⟩
    have stay : Walk (link 0 0 SymbolSet.full.words + ruleLinks rules) 0 u 0 := by
      induction u with
      | nil => exact .nil 0
      | cons code u ih =>
        have hc : SymbolSet.full.contains code = true := by
          simpa [SymbolSet.contains_full] using hu code List.mem_cons_self
        exact .cons (u := [code]) (.inl ⟨⟨rfl, rfl⟩, code, rfl, hc⟩)
          (ih fun c h => hu c (List.mem_cons_of_mem code h))
    exact stay.append (.single (.inr hv))

theorem walk_ofChains {chains : List Chain} {i : Nat} (hi : i < chains.length) {w : List Nat} :
    Walk (ofChains chains).links 0 w (i + 1) ↔
      ∃ u v, w = u ++ v ∧ (∀ code ∈ u, code < 257) ∧ v ∈ chainLanguage chains[i] := by
  have positive : ∀ rule ∈ numbered chains, rule.2 ≠ 0 := by
    rintro ⟨chain, id⟩ h
    obtain ⟨j, _, rfl⟩ := mem_numbered.1 h
    exact Nat.succ_ne_zero j
  have rule {v : List Nat} : v ∈ ruleLinks (numbered chains) 0 (i + 1) ↔
      v ∈ chainLanguage chains[i] := by
    rw [mem_ruleLinks]
    constructor
    · rintro ⟨⟨chain, id⟩, h, ⟨_, rfl⟩, hv⟩
      obtain ⟨j, hj, hid⟩ := mem_numbered.1 h
      obtain rfl : i = j := Nat.succ.inj hid
      rwa [(List.getElem?_eq_some_iff.1 hj).2]
    · intro hv
      exact ⟨(chains[i], i + 1), mem_numbered.2 ⟨i, List.getElem?_eq_getElem hi, rfl⟩,
        ⟨rfl, rfl⟩, hv⟩
  have agree := (adds_ofChains chains).walk (s := 0) (t := i + 1) (w := w) (Nat.succ_pos _)
    (Nat.succ_lt_succ hi)
  rw [agree, links_ofRules, walk_rules positive (Nat.succ_ne_zero i)]
  simp only [rule]

/-- What state 0 finds in codes of symbols. -/
theorem finds_ofChains_iff {chains : List Chain} {codes : List Nat} {id : RuleId}
    (symbols : ∀ code ∈ codes, code < 257) : (ofChains chains).Finds 0 codes id ↔
      ∃ i, ∃ h : i < chains.length, id = i + 1 ∧
        ∃ factor, factor <:+: codes ∧ factor ∈ chainLanguage chains[i] := by
  rw [finds_iff_walk, (adds_ofChains chains).accepts]
  constructor
  · rintro ⟨w, t, hw, walk, mark⟩
    obtain ⟨rfl, i, hi, rfl⟩ := mem_accepts_ofRules.1 mark
    obtain ⟨u, v, rfl, _, hv⟩ := (walk_ofChains hi).1 walk
    exact ⟨i, hi, rfl, v, (List.suffix_append u v).isInfix.trans hw.isInfix, hv⟩
  · rintro ⟨i, hi, rfl, v, ⟨u, rest, hfactor⟩, hv⟩
    refine ⟨u ++ v, i + 1, ⟨rest, hfactor⟩, (walk_ofChains hi).2 ⟨u, v, rfl, ?_, hv⟩,
      mem_accepts_ofRules.2 ⟨rfl, i, hi, rfl⟩⟩
    intro code hc
    refine symbols code ?_
    rw [← hfactor]
    exact List.mem_append_left rest (List.mem_append_left v hc)

theorem code_lt_of_mem_text {text : List Symbol} : ∀ code ∈ text.map Fin.val, code < 257 := by
  intro code h
  obtain ⟨symbol, _, rfl⟩ := List.mem_map.1 h
  exact symbol.isLt

/-- A run finds the rule with index `i` exactly if some factor of the text, possibly empty, is in
the language of tree `i`; and it finds nothing else. -/
theorem mem_run_ofChains_iff (chains : List Chain) (text : List Symbol) (id : RuleId) :
    id ∈ (ofChains chains).run (text.map Fin.val) ↔
      ∃ i, ∃ h : i < chains.length, id = i + 1 ∧
        ∃ factor, factor <:+: text.map Fin.val ∧ factor ∈ chainLanguage chains[i] := by
  rw [mem_run (wellFormed_ofChains chains)]
  exact finds_ofChains_iff code_lt_of_mem_text

end EpsilonAutomaton

end PatternGroups
