import PatternGroups.Proofs.Grammar
import PatternGroups.Proofs.Trees

/-!
# Trees have the languages of their regexes

* `Choice.reads`: reading follows the derivation of a phrase, and builds a tree of its language;
* `opened_of_readFrom`: whatever is read without a fault can be completed to a choice;
* `denotes_ofRegex_iff`: the tree of a regex has the one language that its items denote.
-/

namespace PatternGroups

/-! ## Reading a phrase -/

namespace Expr

variable {l k : List (Located Item)} {L K : Language Nat}

/-- Items that add one part to any branch. -/
def ReadsPart (l : List (Located Item)) (L : Language Nat) : Prop :=
  ∃ e : Expr, chainLanguage e.chain = L ∧ ∀ inner outer rest,
    readFrom inner outer (l ++ rest) = readFrom (inner.add e) outer rest

/-- Items that fill an empty branch. -/
def ReadsBranch (l : List (Located Item)) (L : Language Nat) : Prop :=
  ∃ parts, chainLanguage (chainOfParts parts.reverse) = L ∧ ∀ branches outer rest,
    readFrom ⟨branches, []⟩ outer (l ++ rest) = readFrom ⟨branches, parts⟩ outer rest

/-- Items that fill an empty frame. -/
def ReadsChoice (l : List (Located Item)) (L : Language Nat) : Prop :=
  ∃ frame : Frame, chainLanguage frame.close.chain = L ∧ ∀ outer rest,
    readFrom .empty outer (l ++ rest) = readFrom frame outer rest

theorem language_close (branches parts : List Expr) :
    chainLanguage (Frame.close ⟨branches, parts⟩).chain =
      alternativesLanguage (chains branches.reverse) +
        chainLanguage (chainOfParts parts.reverse) := by
  have nonempty : (sequence parts.reverse :: branches).reverse ≠ [] := by simp
  rw [Frame.close, Frame.alternate, language_choice nonempty, List.reverse_cons, chains_append,
    Chain.alternativesLanguage_append, chains, chains, Chain.alternativesLanguage_singleton, chain]

theorem readsPart_set (offset : Nat) (symbols : SymbolSet) :
    ReadsPart [⟨offset, .set symbols⟩] symbols.words :=
  ⟨.set symbols, language_set symbols, fun _ _ _ => rfl⟩

theorem ReadsChoice.group (h : ReadsChoice l L) (opened closed : Nat) :
    ReadsPart (⟨opened, .openGroup⟩ :: (l ++ [⟨closed, .closeGroup⟩])) L := by
  obtain ⟨frame, language, reads⟩ := h
  refine ⟨frame.close, language, ?_⟩
  intro inner outer rest
  rw [List.cons_append, List.append_assoc, readFrom, reads]
  rfl

theorem ReadsPart.times (h : ReadsPart l L) (offset : Nat) (b : Bounds) :
    ReadsPart (l ++ [⟨offset, .times b⟩]) (b.copies L) := by
  obtain ⟨e, language, reads⟩ := h
  refine ⟨e.times b, by rw [language_times, language], ?_⟩
  intro inner outer rest
  rw [List.append_assoc, reads]
  rfl

/-- Repetitions are skipped while a branch is empty. -/
theorem readsBranch_strays (bounds : List Bounds) (h : l.map (·.value) = bounds.map .times) :
    ReadsBranch l 1 := by
  refine ⟨[], rfl, ?_⟩
  intro branches outer rest
  induction bounds generalizing l with
  | nil => rw [List.map_eq_nil_iff.1 h, List.nil_append]
  | cons b bounds ih =>
    obtain ⟨⟨offset, _⟩, tail, rfl, rfl, htail⟩ := List.map_eq_cons_iff.1 h
    have skipped := ih htail
    exact skipped

theorem ReadsBranch.part (h : ReadsBranch l L) (part : ReadsPart k K) :
    ReadsBranch (l ++ k) (L * K) := by
  obtain ⟨parts, language, reads⟩ := h
  obtain ⟨e, language', reads'⟩ := part
  refine ⟨e :: parts, ?_, ?_⟩
  · rw [List.reverse_cons, chainOfParts_append, chainLanguage_append, language, chainOfParts,
      chainOfParts, List.append_nil, language']
  · intro branches outer rest
    rw [List.append_assoc, reads, reads']
    rfl

theorem ReadsBranch.choice (h : ReadsBranch l L) : ReadsChoice l L := by
  obtain ⟨parts, language, reads⟩ := h
  refine ⟨⟨[], parts⟩, ?_, reads []⟩
  rw [language_close, language, List.reverse_nil, chains, alternativesLanguage, zero_add]

theorem ReadsChoice.alternate (h : ReadsChoice l L) (offset : Nat) (branch : ReadsBranch k K) :
    ReadsChoice (l ++ ⟨offset, .alternate⟩ :: k) (L + K) := by
  obtain ⟨frame, language, reads⟩ := h
  obtain ⟨parts, language', reads'⟩ := branch
  refine ⟨⟨frame.alternate.branches, parts⟩, ?_, ?_⟩
  · have before := language_close frame.branches frame.parts
    rw [language] at before
    rw [language_close, language', Frame.alternate, List.reverse_cons, chains_append,
      Chain.alternativesLanguage_append, chains, chains, Chain.alternativesLanguage_singleton,
      chain, before]
  · intro outer rest
    rw [List.append_assoc, reads]
    exact reads' _ outer rest

end Expr

mutual

theorem Part.reads : ∀ {items : List Item} {L : Language Nat}, Part items L →
    ∀ l : List (Located Item), l.map (·.value) = items → Expr.ReadsPart l L
  | _, _, .set symbols => by
    intro l hl
    obtain ⟨⟨offset, _⟩, rfl, rfl⟩ := List.map_eq_singleton_iff.1 hl
    exact Expr.readsPart_set offset symbols
  | _, _, .group h => by
    intro l hl
    obtain ⟨⟨opened, _⟩, tail, rfl, rfl, htail⟩ := List.map_eq_cons_iff.1 hl
    obtain ⟨body, last, rfl, hbody, hlast⟩ := List.map_eq_append_iff.1 htail
    obtain ⟨⟨closed, _⟩, rfl, rfl⟩ := List.map_eq_singleton_iff.1 hlast
    exact (h.reads body hbody).group opened closed
  | _, _, .times b h => by
    intro l hl
    obtain ⟨body, last, rfl, hbody, hlast⟩ := List.map_eq_append_iff.1 hl
    obtain ⟨⟨offset, _⟩, rfl, rfl⟩ := List.map_eq_singleton_iff.1 hlast
    exact (h.reads body hbody).times offset b

theorem Branch.reads : ∀ {items : List Item} {L : Language Nat}, Branch items L →
    ∀ l : List (Located Item), l.map (·.value) = items → Expr.ReadsBranch l L
  | _, _, .strays bounds => fun _ hl => Expr.readsBranch_strays bounds hl
  | _, _, .part h part => by
    intro l hl
    obtain ⟨before, last, rfl, hbefore, hlast⟩ := List.map_eq_append_iff.1 hl
    exact (h.reads before hbefore).part (part.reads last hlast)

theorem Choice.reads : ∀ {items : List Item} {L : Language Nat}, Choice items L →
    ∀ l : List (Located Item), l.map (·.value) = items → Expr.ReadsChoice l L
  | _, _, .branch h => fun l hl => (h.reads l hl).choice
  | _, _, .alternate h branch => by
    intro l hl
    obtain ⟨before, tail, rfl, hbefore, htail⟩ := List.map_eq_append_iff.1 hl
    obtain ⟨⟨offset, _⟩, last, rfl, rfl, hlast⟩ := List.map_eq_cons_iff.1 htail
    exact (h.reads before hbefore).alternate offset (branch.reads last hlast)

end

/-! ## Reading any items -/

namespace Expr

variable {l : List (Located Item)} {inner : Frame} {outer : List Frame} {e : Expr}

/-- Each parenthesis that is read opens or closes a group, so that the frames around the innermost
one count those that are open. -/
theorem opened_of_readFrom {before : List Item} (h : Opened outer.length before)
    (read : readFrom inner outer l = .ok e) :
    ∃ depth, Opened depth (before ++ l.map (·.value)) := by
  induction l generalizing inner outer before with
  | nil =>
    rw [List.map_nil, List.append_nil]
    exact ⟨_, h⟩
  | cons located rest ih =>
    obtain ⟨offset, item⟩ := located
    rw [List.map_cons, List.append_cons]
    cases item with
    | set symbols => exact ih (h.set symbols) read
    | times b => exact ih (h.times b) read
    | alternate => exact ih h.alternate read
    | openGroup =>
      have deeper : Opened (inner :: outer).length (before ++ [.openGroup]) := h.openGroup
      exact ih deeper read
    | closeGroup =>
      cases outer with
      | nil => cases read
      | cons frame outer => exact ih h.closeGroup read

/-- The end of the items closes whatever closing parentheses could close. -/
theorem closeAll_of_readFrom {missing : Nat}
    (read : readFrom inner outer (List.replicate missing ⟨0, .closeGroup⟩) = .ok e) :
    inner.closeAll outer = e := by
  induction missing generalizing inner outer with
  | zero => exact Except.ok.inj read
  | succ missing ih =>
    cases outer with
    | nil => cases read
    | cons frame outer =>
      have closed : readFrom (frame.add inner.close) outer
          (List.replicate missing ⟨0, .closeGroup⟩) = .ok e := read
      have rest := ih closed
      exact rest

theorem readFrom_of_append {missing : Nat}
    (read : readFrom inner outer (l ++ List.replicate missing ⟨0, .closeGroup⟩) = .ok e) :
    readFrom inner outer l = .ok e := by
  induction l generalizing inner outer with
  | nil => exact congrArg Except.ok (closeAll_of_readFrom read)
  | cons located rest ih =>
    obtain ⟨offset, item⟩ := located
    cases item with
    | set symbols => exact ih read
    | times b => exact ih read
    | alternate => exact ih read
    | openGroup => exact ih read
    | closeGroup =>
      cases outer with
      | nil => cases read
      | cons frame outer => exact ih read

theorem denotes_iff (read : ofItems? l = .ok e) (L : Language Nat) :
    Denotes (l.map (·.value)) L ↔ L = chainLanguage e.chain := by
  have unique {L : Language Nat} (h : Denotes (l.map (·.value)) L) :
      L = chainLanguage e.chain := by
    obtain ⟨missing, choice⟩ := h
    obtain ⟨frame, language, reads⟩ :=
      choice.reads (l ++ List.replicate missing ⟨0, .closeGroup⟩) (by simp)
    have closed := reads [] []
    rw [List.append_nil] at closed
    have same : ofItems? l = .ok frame.close := readFrom_of_append closed
    rw [read] at same
    rw [Except.ok.inj same, language]
  constructor
  · exact unique
  · rintro rfl
    have start : Opened ([] : List Frame).length [] := .whole .empty
    obtain ⟨depth, h⟩ := opened_of_readFrom start read
    obtain ⟨M, choice⟩ := h.exists_choice
    have denoted : Denotes (l.map (·.value)) M := ⟨depth, choice⟩
    exact unique denoted ▸ denoted

end Expr

namespace Chain

/-- The tree of a regex has the language that the items of the regex denote, and they denote no
other; in the tree no upper bound is zero, so that its bounds are meant as they stand. -/
theorem denotes_ofRegex_iff {regex : String} {chain : Chain} (h : ofRegex? regex = .ok chain) :
    ∃ items, Item.ofText? regex.toUTF8.toList = .ok items ∧ chain.Positive ∧
      ∀ L, Denotes (items.map (·.value)) L ↔ L = chainLanguage chain := by
  obtain ⟨items, e, hitems, hexpr, rfl⟩ := ofRegex?_cases h
  exact ⟨items, hitems, e.positive_chain, Expr.denotes_iff hexpr⟩

/-- A regex with a stray repetition, an empty branch and a parenthesis left open. -/
theorem denotes_ofRegex_example :
    ∃ chain, ofRegex? "(+a||b)*?c|(d" = .ok chain ∧
      ∃ items, Item.ofText? "(+a||b)*?c|(d".toUTF8.toList = .ok items ∧ chain.Positive ∧
        ∀ L, Denotes (items.map (·.value)) L ↔ L = chainLanguage chain := by
  have parsed : (ofRegex? "(+a||b)*?c|(d").isOk = true := by decide +kernel
  cases h : ofRegex? "(+a||b)*?c|(d" with
  | error fault => rw [h] at parsed; cases parsed
  | ok chain => exact ⟨chain, rfl, denotes_ofRegex_iff h⟩

end Chain

end PatternGroups
