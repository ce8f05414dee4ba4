import PatternGroups.Automaton.Stages
import PatternGroups.Proofs.Items
import PatternGroups.Proofs.Labels
import PatternGroups.Proofs.Trees

/-!
# Every regex matches something

A class without members is a fault, and any other set that a regex can name has a member. So every
set in a tree has one, and the language of the tree has a word.

* `Item.occupied_ofText?`: the sets that items of a regex stand for;
* `Expr.Rule.readFrom`, `Expr.sets_of_readFrom`: what holds of expressions that are read, and which
  sets are in them;
* `Chain.Formed.spoken`: a word of each tree;
* `formed_ofRegex`, `formed_ofRegexes`: the sets in the trees of regexes.
-/

namespace PatternGroups

namespace SymbolSet

theorem inhabited_singleton (symbol : Symbol) : (singleton symbol).Inhabited :=
  ⟨symbol.val, by rw [contains_singleton, decide_eq_true_eq]⟩

theorem inhabited_anyByte : anyByte.Inhabited := ⟨0, by decide +kernel⟩

end SymbolSet

/-! ## Tokens and items -/

namespace Lexeme

theorem inhabited_of_shorthand? {byte : UInt8} {symbols : SymbolSet}
    (h : shorthand? byte = some symbols) : symbols.Inhabited := by
  unfold shorthand? at h
  split at h
  · cases h; exact ⟨0x77, by decide +kernel⟩
  · cases h; exact ⟨0x30, by decide +kernel⟩
  · cases h; exact ⟨0x20, by decide +kernel⟩
  · cases h; exact ⟨0x20, by decide +kernel⟩
  · cases h; exact ⟨0x20, by decide +kernel⟩
  · cases h; exact ⟨0x30, by decide +kernel⟩
  · cases h

end Lexeme

namespace Item

/-- A set that is an item has a member. -/
def Occupied : Item → Prop
  | .set symbols => symbols.Inhabited
  | _ => True

theorem occupied_ofToken? {token : Token} {item : Item} (h : token.Arises)
    (hi : ofToken? token = some item) : item.Occupied := by
  cases h with
  | literal byte => cases hi; exact SymbolSet.inhabited_singleton _
  | shorthand read => cases hi; exact Lexeme.inhabited_of_shorthand? read
  | dot => cases hi; exact SymbolSet.inhabited_anyByte
  | start => cases hi; exact SymbolSet.inhabited_singleton _
  | stop => cases hi; exact SymbolSet.inhabited_singleton _
  | openGroup => cases hi; trivial
  | closeGroup => cases hi; trivial
  | alternate => cases hi; trivial
  | sign _ => cases hi; trivial
  | braces _ => cases hi; trivial
  | openClass negated => cases hi
  | closeClass => cases hi
  | rangeDash => cases hi

theorem occupied_ofText? {regex : List UInt8} {items : List (Located Item)}
    (h : ofText? regex = .ok items) : ∀ item ∈ items, item.value.Occupied := by
  have rule : ReadingRule (fun _ => True) Item.Occupied := by
    constructor
    · exact occupied_ofToken?
    · exact fun _ _ => trivial
    · exact fun _ _ => trivial
    · exact fun _ some => SymbolSet.isEmpty_eq_false_iff.1 some
  exact rule.items h

end Item

/-! ## Expressions -/

namespace Expr

/-- Something holds of all expressions in a frame. -/
structure Frame.All (q : Expr → Prop) (f : Frame) : Prop where
  branches : ∀ e ∈ f.branches, q e
  parts : ∀ e ∈ f.parts, q e

theorem Frame.all_empty {q : Expr → Prop} : Frame.empty.All q := ⟨nofun, nofun⟩

namespace Rule

variable {item : Item → Prop} {q : Expr → Prop} {f : Frame} {e : Expr}

theorem add (h : f.All q) (he : q e) : (f.add e).All q :=
  ⟨h.branches, List.forall_mem_cons.2 ⟨he, h.parts⟩⟩

theorem repeatLast (rule : Rule item q) (h : f.All q) {b : Bounds} (hb : item (.times b)) :
    (f.repeatLast b).All q := by
  obtain ⟨branches, _ | ⟨part, before⟩⟩ := f
  · exact h
  · obtain ⟨last, others⟩ := List.forall_mem_cons.1 h.parts
    exact ⟨h.branches, List.forall_mem_cons.2 ⟨rule.times last hb, others⟩⟩

theorem alternate (rule : Rule item q) (h : f.All q) : f.alternate.All q := by
  have branch : q (.sequence f.parts.reverse) :=
    rule.sequence fun e he => h.parts e (List.mem_reverse.1 he)
  exact ⟨List.forall_mem_cons.2 ⟨branch, h.branches⟩, nofun⟩

theorem close (rule : Rule item q) (h : f.All q) : q f.close :=
  rule.choice fun e he => (rule.alternate h).branches e (List.mem_reverse.1 he)

theorem closeAll (rule : Rule item q) (h : f.All q) {outer : List Frame}
    (ho : ∀ frame ∈ outer, frame.All q) : q (f.closeAll outer) := by
  induction outer generalizing f with
  | nil => exact rule.close h
  | cons frame outer ih =>
    rw [List.forall_mem_cons] at ho
    exact ih (add ho.1 (rule.close h)) ho.2

/-- What holds of expressions by rule holds of any that is read. -/
theorem readFrom (rule : Rule item q) {l : List (Located Item)} {inner : Frame}
    {outer : List Frame} (hl : ∀ located ∈ l, item located.value) (hi : inner.All q)
    (ho : ∀ frame ∈ outer, frame.All q) (read : Expr.readFrom inner outer l = .ok e) : q e := by
  induction l generalizing inner outer with
  | nil =>
    obtain rfl := Except.ok.inj read
    exact rule.closeAll hi ho
  | cons located rest ih =>
    obtain ⟨offset, value⟩ := located
    obtain ⟨first, others⟩ := List.forall_mem_cons.1 hl
    cases value with
    | set symbols => exact ih others (add hi (rule.set first)) ho read
    | times b => exact ih others (rule.repeatLast hi first) ho read
    | alternate => exact ih others (rule.alternate hi) ho read
    | openGroup => exact ih others Frame.all_empty (List.forall_mem_cons.2 ⟨hi, ho⟩) read
    | closeGroup =>
      cases outer with
      | nil => cases read
      | cons frame outer =>
        rw [List.forall_mem_cons] at ho
        exact ih others (add ho.1 (rule.close hi)) ho.2 read

end Rule

/-- Every set in an expression is of some kind. -/
def Over (kind : SymbolSet → Prop) (e : Expr) : Prop := ∀ s ∈ e.sets, kind s

theorem setsOfAll_append (l k : List Expr) : setsOfAll (l ++ k) = setsOfAll l ++ setsOfAll k := by
  induction l with
  | nil => rfl
  | cons e rest ih => rw [List.cons_append, setsOfAll, setsOfAll, ih, List.append_assoc]

/-- The sets read into a frame, the first one first. -/
def Frame.sets (f : Frame) : List SymbolSet :=
  setsOfAll f.branches.reverse ++ setsOfAll f.parts.reverse

namespace Frame

theorem sets_add (f : Frame) (e : Expr) : (f.add e).sets = f.sets ++ e.sets := by
  rw [sets, add, List.reverse_cons, setsOfAll_append, setsOfAll, setsOfAll, List.append_nil,
    ← List.append_assoc]
  rfl

theorem sets_repeatLast (f : Frame) (b : Bounds) : (f.repeatLast b).sets = f.sets := by
  obtain ⟨branches, _ | ⟨part, before⟩⟩ := f
  · rfl
  · have last : (part.times b).sets = part.sets := by rw [Expr.sets]
    calc (add ⟨branches, before⟩ (part.times b)).sets
      _ = sets ⟨branches, before⟩ ++ (part.times b).sets := sets_add _ _
      _ = (add ⟨branches, before⟩ part).sets := by rw [last, sets_add]

theorem sets_alternate (f : Frame) : f.alternate.sets = f.sets := by
  rw [sets, alternate, List.reverse_cons, setsOfAll_append, setsOfAll, setsOfAll, Expr.sets,
    List.append_nil, List.reverse_nil, setsOfAll, List.append_nil]
  rfl

theorem sets_close (f : Frame) : f.close.sets = f.sets := by
  have none : setsOfAll f.alternate.parts.reverse = [] := rfl
  rw [← sets_alternate, close, Expr.sets, sets, none, List.append_nil]

theorem sets_closeAll (f : Frame) (outer : List Frame) :
    (f.closeAll outer).sets = outer.reverse.flatMap sets ++ f.sets := by
  induction outer generalizing f with
  | nil => exact sets_close f
  | cons frame outer ih =>
    rw [closeAll, ih, sets_add, sets_close, List.reverse_cons, List.flatMap_append,
      List.flatMap_singleton, List.append_assoc]

end Frame

end Expr

/-- The set that an item is. -/
def Item.symbols? : Item → Option SymbolSet
  | .set symbols => some symbols
  | _ => none

namespace Expr

variable {kind : SymbolSet → Prop} {e : Expr}

/-- An expression has the sets that were read, in their order. -/
theorem sets_of_readFrom {l : List (Located Item)} {inner : Frame} {outer : List Frame}
    (read : readFrom inner outer l = .ok e) :
    e.sets = outer.reverse.flatMap Frame.sets ++ inner.sets ++ l.filterMap (·.value.symbols?) := by
  induction l generalizing inner outer with
  | nil =>
    obtain rfl := Except.ok.inj read
    rw [Frame.sets_closeAll, List.filterMap_nil, List.append_nil]
  | cons located rest ih =>
    obtain ⟨offset, item⟩ := located
    cases item with
    | set symbols =>
      have single : (Expr.set symbols).sets = [symbols] := by rw [sets]
      have added : readFrom (inner.add (.set symbols)) outer rest = .ok e := read
      rw [ih added, Frame.sets_add, single]
      simp [Item.symbols?]
    | times b =>
      have repeated : readFrom (inner.repeatLast b) outer rest = .ok e := read
      rw [ih repeated, Frame.sets_repeatLast]
      rfl
    | alternate =>
      have ended : readFrom inner.alternate outer rest = .ok e := read
      rw [ih ended, Frame.sets_alternate]
      rfl
    | openGroup =>
      have opened : readFrom .empty (inner :: outer) rest = .ok e := read
      rw [ih opened]
      simp [Frame.sets, Frame.empty, setsOfAll, Item.symbols?]
    | closeGroup =>
      cases outer with
      | nil => cases read
      | cons frame outer =>
        have closed : readFrom (frame.add inner.close) outer rest = .ok e := read
        rw [ih closed, Frame.sets_add, Frame.sets_close]
        simp [Item.symbols?]

/-- An expression has no sets but those of the items that it is read from. -/
theorem over_of_ofItems? {l : List (Located Item)}
    (hl : ∀ located ∈ l, ∀ s, located.value = .set s → kind s) (read : ofItems? l = .ok e) :
    e.Over kind := by
  intro s hs
  have mem : s ∈ l.filterMap (·.value.symbols?) := by
    rw [sets_of_readFrom read] at hs
    exact hs
  obtain ⟨located, listed, same⟩ := List.mem_filterMap.1 mem
  refine hl located listed s ?_
  cases value : located.value with
  | set symbols => rw [value] at same; cases same; rfl
  | _ => rw [value] at same; cases same

end Expr

/-! ## Words of languages -/

/-- A language has a word. -/
def Spoken (L : Language Nat) : Prop := ∃ text : List Symbol, text.map Fin.val ∈ L

theorem spoken_one : Spoken 1 := ⟨[], rfl⟩

theorem Spoken.mul {L K : Language Nat} (h : Spoken L) (h' : Spoken K) : Spoken (L * K) := by
  obtain ⟨u, hu⟩ := h
  obtain ⟨v, hv⟩ := h'
  refine ⟨u ++ v, ?_⟩
  rw [List.map_append]
  exact Language.append_mem_mul hu hv

theorem Spoken.copies {L : Language Nat} (h : Spoken L) (b : Bounds) : Spoken (b.copies L) := by
  have power (k : Nat) : Spoken (L ^ k) := by
    induction k with
    | zero =>
      rw [pow_zero]
      exact spoken_one
    | succ k ih =>
      rw [pow_succ]
      exact ih.mul h
  obtain ⟨text, ht⟩ := power b.lower
  exact ⟨text, b.lower, ⟨Nat.le_refl _, fun _ _ => Nat.le_max_left _ _⟩, ht⟩

theorem SymbolSet.Inhabited.spoken {s : SymbolSet} (h : s.Inhabited) : Spoken s.words := by
  obtain ⟨code, hc⟩ := h
  exact ⟨[⟨code, BitVec.lt_of_getLsbD hc⟩], code, rfl, hc⟩

theorem spoken_chain {chain : Chain} (h : ∀ node ∈ chain, Spoken node.language) :
    Spoken (chainLanguage chain) := by
  induction chain with
  | nil => exact spoken_one
  | cons node rest ih =>
    rw [List.forall_mem_cons] at h
    rw [chainLanguage]
    exact h.1.mul (ih h.2)

theorem spoken_alternatives {alternatives : List Chain} (some : alternatives ≠ [])
    (h : ∀ chain ∈ alternatives, ∀ node ∈ chain, Spoken node.language) :
    Spoken (alternativesLanguage alternatives) := by
  cases alternatives with
  | nil => exact absurd rfl some
  | cons chain rest =>
    obtain ⟨text, ht⟩ := spoken_chain (h chain List.mem_cons_self)
    rw [alternativesLanguage]
    exact ⟨text, .inl ht⟩

theorem Node.Formed.spoken {node : Node} (h : node.Formed SymbolSet.Inhabited) :
    Spoken node.language := by
  induction h with
  | leaf set _ =>
    rw [language]
    exact set.spoken.copies _
  | group some _ _ inner =>
    rw [language]
    exact (spoken_alternatives some inner).copies _

theorem Chain.Formed.spoken {chain : Chain} (h : chain.Formed SymbolSet.Inhabited) :
    Spoken (chainLanguage chain) :=
  spoken_chain fun node hn => (h node hn).spoken

/-! ## Regexes -/

theorem forall₂_of_mapM {α β ε : Type} {f : α → Except ε β} {l : List α} {k : List β}
    (h : l.mapM f = .ok k) : List.Forall₂ (fun a b => f a = .ok b) l k := by
  induction l generalizing k with
  | nil =>
    cases h
    exact .nil
  | cons a rest ih =>
    rw [List.mapM_cons] at h
    cases first : f a with
    | error e => rw [first] at h; cases h
    | ok b =>
      cases others : rest.mapM f with
      | error e => rw [first, others] at h; cases h
      | ok bs =>
        rw [first, others] at h
        cases h
        exact .cons first (ih others)

namespace Chain

theorem formed_ofRegex {regex : String} {chain : Chain} (h : ofRegex? regex = .ok chain) :
    chain.Formed SymbolSet.Inhabited := by
  obtain ⟨items, e, hitems, hexpr, rfl⟩ := ofRegex?_cases h
  have sets : ∀ located ∈ items, ∀ s, located.value = .set s → s.Inhabited := by
    intro located hl s hs
    have occupied := Item.occupied_ofText? hitems located hl
    rwa [hs] at occupied
  exact Expr.formed_chain e (Expr.over_of_ofItems? sets hexpr)

/-- Each of several regexes has its tree. -/
theorem forall₂_ofRegexes {regexes : List String} {chains : List Chain}
    (h : ofRegexes? regexes = .ok chains) :
    List.Forall₂ (fun regex chain => ofRegex? regex = .ok chain) regexes chains := by
  have each := forall₂_of_mapM h
  have regexesOnly : regexes.zipIdx.map Prod.fst = regexes := List.zipIdx_map_fst 0 regexes
  rw [← regexesOnly, List.forall₂_map_left_iff]
  refine each.imp ?_
  rintro ⟨regex, index⟩ chain read
  cases tree : ofRegex? regex with
  | error fault => simp only [tree] at read; cases read
  | ok other =>
    simp only [tree] at read
    cases read
    rfl

theorem exists_of_mem_ofRegexes {regexes : List String} {chains : List Chain}
    (h : ofRegexes? regexes = .ok chains) {chain : Chain} (hc : chain ∈ chains) :
    ∃ regex ∈ regexes, ofRegex? regex = .ok chain := by
  have trees := forall₂_ofRegexes h
  clear h
  induction trees with
  | nil => cases hc
  | @cons regex _ _ _ tree _ ih =>
    rcases List.mem_cons.1 hc with rfl | hc
    · exact ⟨regex, List.mem_cons_self, tree⟩
    · obtain ⟨other, hr, tree⟩ := ih hc
      exact ⟨other, List.mem_cons_of_mem regex hr, tree⟩

theorem formed_ofRegexes {regexes : List String} {chains : List Chain}
    (h : ofRegexes? regexes = .ok chains) : ∀ chain ∈ chains, chain.Formed SymbolSet.Inhabited := by
  intro chain hc
  obtain ⟨_, _, tree⟩ := exists_of_mem_ofRegexes h hc
  exact formed_ofRegex tree

end Chain

end PatternGroups
