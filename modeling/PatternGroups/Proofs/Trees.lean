import PatternGroups.Proofs.Languages

/-!
# Languages of simplified trees

Trees are simplified while they are built. No simplification loses a word or a repetition:

* `language_ofLone`, `language_repeated`: a repetition, wherever it is put;
* `language_ofBranches`: alternatives, empty ones among them;
* `Expr.rule_every`, `Expr.every_chain`: what simplification keeps holds of all nodes of a tree;
* `Expr.chain_eq_nil_iff`: a tree has nodes unless its expression has no sets;
* `Expr.formed_chain`: a tree has the sets of its expression, and no empty groups;
* `Expr.positive_chain`: no upper bound in the tree of an expression is zero.
-/

namespace PatternGroups

theorem Node.language_withBounds {node : Node} (h : node.bounds = .once) (b : Bounds) :
    (node.withBounds b).language = b.copies node.language := by
  cases node with
  | leaf symbols bounds =>
    obtain rfl : bounds = .once := h
    simp only [withBounds, language, Bounds.copies_once]
  | group alternatives bounds =>
    obtain rfl : bounds = .once := h
    simp only [withBounds, language, Bounds.copies_once]

namespace Chain

theorem alternativesLanguage_singleton (chain : Chain) :
    alternativesLanguage [chain] = chainLanguage chain := by
  rw [alternativesLanguage, alternativesLanguage, add_zero]

theorem alternativesLanguage_append (chains others : List Chain) :
    alternativesLanguage (chains ++ others) =
      alternativesLanguage chains + alternativesLanguage others := by
  induction chains with
  | nil => rw [List.nil_append, alternativesLanguage, zero_add]
  | cons chain chains ih =>
    rw [List.cons_append, alternativesLanguage, alternativesLanguage, ih, add_assoc]

/-- A repetition of one alternative is dropped, given to a lone node, or made a group. -/
theorem ofLone_cases (chain : Chain) (b : Bounds) :
    (b = .once ∧ ofLone chain b = chain) ∨
      (b ≠ .once ∧ ∃ node, chain = [node] ∧ node.bounds = .once ∧
        ofLone chain b = [node.withBounds b]) ∨
      (b ≠ .once ∧ (∀ node, chain = [node] → node.bounds ≠ .once) ∧
        ofLone chain b = [.group [chain] b]) := by
  unfold ofLone
  by_cases hb : b.isOnce = true
  · rw [if_pos hb]
    exact .inl ⟨eq_of_beq hb, rfl⟩
  · rw [if_neg hb]
    have more : b ≠ .once := fun same => hb (beq_iff_eq.2 same)
    cases chain with
    | nil => exact .inr (.inr ⟨more, nofun, rfl⟩)
    | cons node rest =>
      cases rest with
      | cons next rest => exact .inr (.inr ⟨more, nofun, rfl⟩)
      | nil =>
        by_cases h : node.bounds.isOnce = true
        · exact .inr (.inl ⟨more, node, rfl, eq_of_beq h, if_pos h⟩)
        · refine .inr (.inr ⟨more, ?_, if_neg h⟩)
          rintro _ ⟨⟩
          exact fun same => h (beq_iff_eq.2 same)

theorem language_ofLone (chain : Chain) (b : Bounds) :
    chainLanguage (ofLone chain b) = b.copies (chainLanguage chain) := by
  rcases ofLone_cases chain b with ⟨rfl, h⟩ | ⟨-, node, rfl, once, h⟩ | ⟨-, -, h⟩
  · rw [h, Bounds.copies_once]
  · rw [h, chainLanguage_singleton, chainLanguage_singleton, Node.language_withBounds once]
  · rw [h, chainLanguage_singleton, Node.language, alternativesLanguage_singleton]

theorem language_ofAlternatives {alternatives : List Chain} (h : alternatives ≠ [])
    (b : Bounds) :
    chainLanguage (ofAlternatives alternatives b) =
      b.copies (alternativesLanguage alternatives) := by
  unfold ofAlternatives
  split
  · exact absurd rfl h
  · rw [language_ofLone, alternativesLanguage_singleton, Bounds.copies_atLeastOne]
  · rw [chainLanguage_singleton, Node.ofAlternatives, Node.language, Bounds.copies_atLeastOne]

/-- Empty alternatives contribute the empty word. -/
theorem alternativesLanguage_filter (branches : List Chain) :
    alternativesLanguage branches =
      (if branches.any (·.isEmpty) then 1 else 0) +
        alternativesLanguage (branches.filter (!·.isEmpty)) := by
  induction branches with
  | nil => simp [alternativesLanguage]
  | cons chain rest ih =>
    rw [alternativesLanguage, ih]
    cases chain with
    | nil =>
      have absorb : (1 + if rest.any (·.isEmpty) then 1 else 0 : Language Nat) = 1 := by
        split
        · exact add_idem 1
        · exact add_zero 1
      simp only [List.any_cons, List.isEmpty_nil, Bool.true_or, if_true, Bool.not_true,
        List.filter_cons, Bool.false_eq_true, if_false, chainLanguage, ← add_assoc, absorb]
    | cons node chain =>
      simp only [List.any_cons, List.isEmpty_cons, Bool.false_or, Bool.not_false, if_true,
        List.filter_cons, alternativesLanguage, add_left_comm]

theorem language_ofBranches {branches : List Chain} (h : branches ≠ []) :
    chainLanguage (ofBranches branches) = alternativesLanguage branches := by
  rw [alternativesLanguage_filter branches, ofBranches]
  by_cases hempty : branches.filter (!·.isEmpty) = []
  · -- All branches are empty, and there is one.
    obtain ⟨chain, hc⟩ := List.exists_mem_of_ne_nil branches h
    have isEmpty : chain.isEmpty = true := by
      simpa using List.filter_eq_nil_iff.1 hempty chain hc
    have any : branches.any (·.isEmpty) = true := List.any_eq_true.2 ⟨chain, hc, isEmpty⟩
    rw [hempty, any, if_pos rfl, if_pos rfl, ofAlternatives, chainLanguage, alternativesLanguage,
      add_zero]
  · rw [language_ofAlternatives hempty]
    split
    · exact Bounds.copies_optional
    · rw [Bounds.copies_once, zero_add]

theorem language_repeated (chain : Chain) (b : Bounds) :
    chainLanguage (repeated chain b) = b.copies (chainLanguage chain) := by
  unfold repeated
  by_cases h : chain.isEmpty = true
  · rw [if_pos h, List.isEmpty_iff.1 h, chainLanguage, Bounds.copies_one]
  · rw [if_neg h, language_ofAlternatives (List.cons_ne_nil chain []),
      alternativesLanguage_singleton]

end Chain

/-! ## Expressions -/

namespace Expr

theorem language_set (symbols : SymbolSet) :
    chainLanguage (set symbols).chain = symbols.words := by
  rw [chain, Node.ofSet, chainLanguage_singleton, Node.language, Bounds.copies_atLeastOne,
    Bounds.copies_once]

theorem language_times (body : Expr) (b : Bounds) :
    chainLanguage (body.times b).chain = b.copies (chainLanguage body.chain) := by
  rw [chain, Chain.language_repeated]

theorem chainOfParts_append (parts more : List Expr) :
    chainOfParts (parts ++ more) = chainOfParts parts ++ chainOfParts more := by
  induction parts with
  | nil => rfl
  | cons part parts ih => rw [List.cons_append, chainOfParts, chainOfParts, ih, List.append_assoc]

theorem chains_append (branches more : List Expr) :
    chains (branches ++ more) = chains branches ++ chains more := by
  induction branches with
  | nil => rfl
  | cons branch branches ih => rw [List.cons_append, chains, chains, ih, List.cons_append]

theorem language_choice {branches : List Expr} (h : branches ≠ []) :
    chainLanguage (choice branches).chain = alternativesLanguage (chains branches) := by
  rw [chain, Chain.language_ofBranches]
  cases branches with
  | nil => exact absurd rfl h
  | cons branch branches => rw [chains]; exact List.cons_ne_nil _ _

end Expr

/-! ## All nodes of a tree -/

/-- What holds of a group if it holds of all nodes in it, and of leaves, holds of all nodes. -/
@[elab_as_elim]
theorem Node.induct {motive : Node → Prop}
    (leaf : ∀ symbols bounds, motive (.leaf symbols bounds))
    (group : ∀ alternatives bounds, (∀ chain ∈ alternatives, ∀ node ∈ chain, motive node) →
      motive (.group alternatives bounds)) (node : Node) : motive node := by
  match node with
  | .leaf symbols bounds => exact leaf symbols bounds
  | .group alternatives bounds =>
    exact group alternatives bounds fun chain hc inner hn => induct leaf group inner
termination_by sizeOf node
decreasing_by
  have inChain := List.sizeOf_lt_of_mem hn
  have inGroup := List.sizeOf_lt_of_mem hc
  simp only [Node.group.sizeOf_spec]
  omega

/-- Something holds of a node and of all nodes in it. -/
inductive Node.Every (p : Node → Prop) : Node → Prop
  | leaf {symbols : SymbolSet} {bounds : Bounds} :
      p (.leaf symbols bounds) → Node.Every p (.leaf symbols bounds)
  | group {alternatives : List Chain} {bounds : Bounds} :
      p (.group alternatives bounds) →
      (∀ chain ∈ alternatives, ∀ node ∈ chain, Node.Every p node) →
      Node.Every p (.group alternatives bounds)

/-- Something holds of all nodes in a chain, at every depth. -/
def Chain.Every (p : Node → Prop) (chain : Chain) : Prop := ∀ node ∈ chain, node.Every p

/-- What holds of nodes and, with bounds under a rule, of what simplification makes of them: a
repetition of one alternative is not a single occurrence, nor could it be that of a lone node. No
alternative is empty. -/
structure Node.Kept (p : Node → Prop) (rule : Bounds → Prop) : Prop where
  once : rule .once
  optional : rule .optional
  withBounds : ∀ {node b}, p node → node.bounds = .once → rule b → b ≠ .once →
    p (node.withBounds b)
  lone : ∀ {chain b}, chain ≠ [] → rule b → b ≠ .once →
    (∀ node, chain = [node] → node.bounds ≠ .once) → p (.group [chain] b)
  several : ∀ {first second more b}, (∀ chain ∈ first :: second :: more, chain ≠ []) → rule b →
    p (.group (first :: second :: more) b)

section Every
variable {p : Node → Prop} {rule : Bounds → Prop}

theorem Node.Every.withBounds {node : Node} (h : node.Every p) {b : Bounds}
    (hb : p node → p (node.withBounds b)) : (node.withBounds b).Every p := by
  cases h with
  | leaf h => exact .leaf (hb h)
  | group h inner => exact .group (hb h) inner

namespace Chain

theorem every_nil : Every p [] := fun _ h => absurd h List.not_mem_nil

theorem every_singleton {node : Node} (h : node.Every p) : Every p [node] :=
  List.forall_mem_singleton.2 h

theorem every_ofLone (kept : Node.Kept p rule) {chain : Chain} (some : chain ≠ [])
    (h : chain.Every p) {b : Bounds} (hb : rule b) : (ofLone chain b).Every p := by
  rcases ofLone_cases chain b with ⟨-, lone⟩ | ⟨more, node, rfl, once, lone⟩ | ⟨more, other, lone⟩
  · rw [lone]
    exact h
  · rw [lone]
    refine every_singleton ((h node List.mem_cons_self).withBounds fun hn => ?_)
    exact kept.withBounds hn once hb more
  · rw [lone]
    exact every_singleton (.group (kept.lone some hb more other) (List.forall_mem_singleton.2 h))

theorem every_ofAlternatives (kept : Node.Kept p rule) {alternatives : List Chain}
    (some : ∀ chain ∈ alternatives, chain ≠ []) (h : ∀ chain ∈ alternatives, chain.Every p)
    {b : Bounds} (hb : rule b.atLeastOne) : (ofAlternatives alternatives b).Every p := by
  match alternatives with
  | [] => exact every_nil
  | [chain] => exact every_ofLone kept (some chain List.mem_cons_self) (h chain List.mem_cons_self) hb
  | first :: second :: more => exact every_singleton (.group (kept.several some hb) h)

theorem every_ofBranches (kept : Node.Kept p rule) {branches : List Chain}
    (h : ∀ chain ∈ branches, chain.Every p) : (ofBranches branches).Every p := by
  apply every_ofAlternatives kept
  · intro chain hc
    simpa using (List.mem_filter.1 hc).2
  · exact fun chain hc => h chain (List.mem_filter.1 hc).1
  · split
    · exact kept.optional
    · exact kept.once

theorem every_repeated (kept : Node.Kept p rule) {chain : Chain} (h : chain.Every p) {b : Bounds}
    (hb : rule b.atLeastOne) : (repeated chain b).Every p := by
  unfold repeated
  split
  · exact every_nil
  · rename_i some
    have nonempty : chain ≠ [] := by simpa using some
    exact every_ofAlternatives kept (List.forall_mem_singleton.2 nonempty)
      (List.forall_mem_singleton.2 h) hb

end Chain

end Every

/-! ## Properties of expressions -/

namespace Expr

/-- What holds of sets and repetitions that are items of some kind, and of what is made of parts
for which it holds. -/
structure Rule (item : Item → Prop) (q : Expr → Prop) : Prop where
  set : ∀ {symbols}, item (.set symbols) → q (set symbols)
  times : ∀ {body b}, q body → item (.times b) → q (times body b)
  sequence : ∀ {parts}, (∀ e ∈ parts, q e) → q (sequence parts)
  choice : ∀ {branches}, (∀ e ∈ branches, q e) → q (choice branches)

theorem every_chainOfParts {p : Node → Prop} {parts : List Expr}
    (h : ∀ e ∈ parts, e.chain.Every p) : Chain.Every p (chainOfParts parts) := by
  induction parts with
  | nil => exact Chain.every_nil
  | cons part rest ih =>
    rw [List.forall_mem_cons] at h
    rw [chainOfParts]
    exact List.forall_mem_append.2 ⟨h.1, ih h.2⟩

theorem forall_mem_chains {q : Chain → Prop} {branches : List Expr}
    (h : ∀ e ∈ branches, q e.chain) : ∀ chain ∈ chains branches, q chain := by
  induction branches with
  | nil => simp [chains]
  | cons branch rest ih =>
    rw [List.forall_mem_cons] at h
    rw [chains]
    exact List.forall_mem_cons.2 ⟨h.1, ih h.2⟩

/-- What simplification keeps holds of all nodes in the tree of an expression. -/
theorem rule_every {p : Node → Prop} {rule : Bounds → Prop} (kept : Node.Kept p rule)
    {item : Item → Prop} (set : ∀ {symbols}, item (.set symbols) → p (.leaf symbols .once))
    (times : ∀ {b}, item (.times b) → rule b.atLeastOne) :
    Rule item fun e => e.chain.Every p := by
  constructor
  · intro symbols h
    rw [chain]
    exact Chain.every_singleton (.leaf (set h))
  · intro body b h hb
    rw [chain]
    exact Chain.every_repeated kept h (times hb)
  · intro parts h
    rw [chain]
    exact every_chainOfParts h
  · intro branches h
    rw [chain]
    exact Chain.every_ofBranches kept (forall_mem_chains h)

mutual

/-- The sets in an expression. -/
def sets : Expr → List SymbolSet
  | set symbols => [symbols]
  | sequence parts => setsOfAll parts
  | choice branches => setsOfAll branches
  | times body _ => sets body

def setsOfAll : List Expr → List SymbolSet
  | [] => []
  | e :: rest => sets e ++ setsOfAll rest

end

mutual

/-- What holds of expressions by rule holds of any with sets of a kind. -/
theorem Rule.of_sets {item : Item → Prop} {q : Expr → Prop} (rule : Rule item q)
    (free : ∀ b, item (.times b)) : ∀ e : Expr, (∀ s ∈ e.sets, item (.set s)) → q e
  | .set symbols, h => by
    rw [sets, List.forall_mem_singleton] at h
    exact rule.set h
  | .sequence parts, h => by
    rw [sets] at h
    exact rule.sequence (rule.of_setsOfAll free parts h)
  | .choice branches, h => by
    rw [sets] at h
    exact rule.choice (rule.of_setsOfAll free branches h)
  | .times body b, h => by
    rw [sets] at h
    exact rule.times (rule.of_sets free body h) (free b)

theorem Rule.of_setsOfAll {item : Item → Prop} {q : Expr → Prop} (rule : Rule item q)
    (free : ∀ b, item (.times b)) :
    ∀ l : List Expr, (∀ s ∈ setsOfAll l, item (.set s)) → ∀ e ∈ l, q e
  | [], _ => fun _ h => absurd h List.not_mem_nil
  | e :: rest, h => by
    rw [setsOfAll, List.forall_mem_append] at h
    exact List.forall_mem_cons.2 ⟨rule.of_sets free e h.1, rule.of_setsOfAll free rest h.2⟩

end

/-- What simplification keeps, whatever the sets and the repetitions, holds of every tree. -/
theorem every_chain {p : Node → Prop} {rule : Bounds → Prop} (kept : Node.Kept p rule)
    (leaf : ∀ symbols, p (.leaf symbols .once)) (times : ∀ b : Bounds, rule b.atLeastOne)
    (e : Expr) : e.chain.Every p := by
  have holds : Rule (fun _ => True) fun e => e.chain.Every p :=
    rule_every kept (fun _ => leaf _) fun _ => times _
  apply holds.of_sets <;> simp

end Expr

/-! ## Nothing to match -/

namespace Chain

theorem ofLone_ne_nil {chain : Chain} (some : chain ≠ []) (b : Bounds) : ofLone chain b ≠ [] := by
  rcases ofLone_cases chain b with ⟨-, h⟩ | ⟨-, node, -, -, h⟩ | ⟨-, -, h⟩
  · rwa [h]
  · rw [h]
    exact List.cons_ne_nil _ _
  · rw [h]
    exact List.cons_ne_nil _ _

theorem ofAlternatives_eq_nil_iff {alternatives : List Chain} (some : ∀ c ∈ alternatives, c ≠ [])
    (b : Bounds) : ofAlternatives alternatives b = [] ↔ alternatives = [] := by
  match alternatives with
  | [] => exact iff_of_true rfl rfl
  | [chain] =>
    exact iff_of_false (ofLone_ne_nil (some chain List.mem_cons_self) _) (List.cons_ne_nil _ _)
  | first :: second :: more => exact iff_of_false (List.cons_ne_nil _ _) (List.cons_ne_nil _ _)

theorem ofBranches_eq_nil_iff {branches : List Chain} :
    ofBranches branches = [] ↔ ∀ chain ∈ branches, chain = [] := by
  have some : ∀ chain ∈ branches.filter (!·.isEmpty), chain ≠ [] := by simp
  rw [ofBranches, ofAlternatives_eq_nil_iff some, List.filter_eq_nil_iff]
  simp

theorem repeated_eq_nil_iff {chain : Chain} {b : Bounds} : repeated chain b = [] ↔ chain = [] := by
  cases chain with
  | nil => exact iff_of_true rfl rfl
  | cons node rest =>
    have some : ∀ c ∈ [node :: rest], c ≠ [] :=
      List.forall_mem_singleton.2 (List.cons_ne_nil node rest)
    exact (ofAlternatives_eq_nil_iff some b).trans
      (iff_of_false (List.cons_ne_nil _ _) (List.cons_ne_nil _ _))

end Chain

namespace Expr

mutual

/-- Simplification leaves something as long as there is a set. -/
theorem chain_eq_nil_iff : ∀ e : Expr, e.chain = [] ↔ e.sets = []
  | set symbols => by
    rw [chain, sets]
    exact iff_of_false (List.cons_ne_nil _ _) (List.cons_ne_nil _ _)
  | sequence parts => by
    rw [chain, sets]
    exact chainOfParts_eq_nil_iff parts
  | choice branches => by
    rw [chain, sets, Chain.ofBranches_eq_nil_iff]
    exact chains_eq_nil_iff branches
  | times body b => by
    rw [chain, sets, Chain.repeated_eq_nil_iff]
    exact chain_eq_nil_iff body

theorem chainOfParts_eq_nil_iff :
    ∀ parts : List Expr, chainOfParts parts = [] ↔ setsOfAll parts = []
  | [] => iff_of_true rfl rfl
  | part :: rest => by
    rw [chainOfParts, setsOfAll, List.append_eq_nil_iff, List.append_eq_nil_iff,
      chain_eq_nil_iff part, chainOfParts_eq_nil_iff rest]

theorem chains_eq_nil_iff :
    ∀ branches : List Expr, (∀ chain ∈ chains branches, chain = []) ↔ setsOfAll branches = []
  | [] => iff_of_true nofun rfl
  | branch :: rest => by
    rw [chains, setsOfAll, List.forall_mem_cons, List.append_eq_nil_iff, chain_eq_nil_iff branch,
      chains_eq_nil_iff rest]

end

end Expr

/-! ## Upper bounds -/

theorem Bounds.Positive.upper_ne_zero {lower upper : Nat} (h : Positive ⟨lower, some upper⟩) :
    upper ≠ 0 := by
  rintro rfl
  exact h rfl

theorem Bounds.positive_atLeastOne (b : Bounds) : b.atLeastOne.Positive := by
  obtain ⟨n, _ | u⟩ := b
  · simp [Positive, atLeastOne]
  · simp only [Positive, atLeastOne, Option.map_some, ne_eq, Option.some.injEq]
    omega

/-- No upper bound in a node is zero. -/
inductive Node.Positive : Node → Prop
  | leaf {symbols : SymbolSet} {bounds : Bounds} :
      bounds.Positive → Node.Positive (.leaf symbols bounds)
  | group {alternatives : List Chain} {bounds : Bounds} :
      (∀ chain ∈ alternatives, ∀ node ∈ chain, Node.Positive node) → bounds.Positive →
      Node.Positive (.group alternatives bounds)

/-- No upper bound in a chain is zero. -/
def Chain.Positive (chain : Chain) : Prop := ∀ node ∈ chain, node.Positive

/-! ## Sets -/

/-- All sets in a node are of some kind, all groups have alternatives, and no upper bound is
zero. -/
inductive Node.Formed (kind : SymbolSet → Prop) : Node → Prop
  | leaf {symbols : SymbolSet} {bounds : Bounds} :
      kind symbols → bounds.Positive → Node.Formed kind (.leaf symbols bounds)
  | group {alternatives : List Chain} {bounds : Bounds} :
      alternatives ≠ [] → (∀ chain ∈ alternatives, ∀ node ∈ chain, Node.Formed kind node) →
      bounds.Positive → Node.Formed kind (.group alternatives bounds)

section Formed
variable {kind : SymbolSet → Prop}

/-- What is said of each node that is formed. -/
def Node.Proper (kind : SymbolSet → Prop) : Node → Prop
  | leaf symbols bounds => kind symbols ∧ bounds.Positive
  | group alternatives bounds => alternatives ≠ [] ∧ bounds.Positive

theorem Node.formed_of_every {node : Node} (h : node.Every (Proper kind)) : node.Formed kind := by
  induction h with
  | leaf h => exact .leaf h.1 h.2
  | group h _ inner => exact .group h.1 inner h.2

theorem Node.Formed.positive {node : Node} (h : node.Formed kind) : node.Positive := by
  induction h with
  | leaf _ hb => exact .leaf hb
  | group _ _ hb inner => exact .group inner hb

theorem Node.kept_proper : Kept (Proper kind) Bounds.Positive := by
  refine ⟨Bounds.positive_atLeastOne .once, Bounds.positive_atLeastOne .optional, ?_, ?_, ?_⟩
  · intro node b h _ hb _
    cases node with
    | leaf symbols _ => exact ⟨h.1, hb⟩
    | group alternatives _ => exact ⟨h.1, hb⟩
  · exact fun _ hb _ _ => ⟨List.cons_ne_nil _ _, hb⟩
  · exact fun _ hb => ⟨List.cons_ne_nil _ _, hb⟩

def Chain.Formed (kind : SymbolSet → Prop) (chain : Chain) : Prop :=
  ∀ node ∈ chain, node.Formed kind

end Formed

namespace Expr

/-- A tree has the sets of its expression. -/
theorem formed_chain {kind : SymbolSet → Prop} (e : Expr) (h : ∀ s ∈ e.sets, kind s) :
    e.chain.Formed kind := by
  have rule : Rule (fun item => ∀ s, item = .set s → kind s)
      fun e => e.chain.Every (Node.Proper kind) :=
    rule_every Node.kept_proper (fun set => ⟨set _ rfl, Bounds.positive_atLeastOne .once⟩)
      fun {b} _ => b.positive_atLeastOne
  have every := rule.of_sets nofun e fun s hs _ same => by
    cases same
    exact h s hs
  exact fun node hn => Node.formed_of_every (every node hn)

theorem positive_chain (e : Expr) : e.chain.Positive := by
  have formed : e.chain.Formed fun _ => True := formed_chain e fun _ _ => trivial
  exact fun node h => (formed node h).positive

end Expr

/-! ## Regexes -/

/-- The tree of a regex is that of the expression that its items spell. -/
theorem Chain.ofText?_cases {regex : List UInt8} {chain : Chain} (h : ofText? regex = .ok chain) :
    ∃ items e, Item.ofText? regex = .ok items ∧ Expr.ofItems? items = .ok e ∧
      chain = e.chain := by
  unfold ofText? at h
  cases hitems : Item.ofText? regex with
  | error fault => rw [hitems] at h; cases h
  | ok items =>
    rw [hitems] at h
    cases hexpr : Expr.ofItems? items with
    | error fault => simp only [bind, Except.bind, hexpr] at h; cases h
    | ok e =>
      simp only [bind, Except.bind, hexpr] at h
      split at h
      · cases h
      · exact ⟨items, e, rfl, hexpr, (Except.ok.inj h).symm⟩

theorem Chain.ne_nil_of_ofText? {regex : List UInt8} {chain : Chain}
    (h : ofText? regex = .ok chain) : chain ≠ [] := by
  obtain ⟨items, e, hitems, hexpr, rfl⟩ := ofText?_cases h
  simp only [ofText?, hitems, hexpr, bind, Except.bind] at h
  split at h
  · cases h
  · rename_i some
    simpa using some

theorem Chain.ofRegex?_cases {regex : String} {chain : Chain} (h : ofRegex? regex = .ok chain) :
    ∃ items e, Item.ofText? regex.toUTF8.toList = .ok items ∧ Expr.ofItems? items = .ok e ∧
      chain = e.chain :=
  ofText?_cases h

end PatternGroups
