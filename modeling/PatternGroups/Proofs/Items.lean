import PatternGroups.Proofs.Lexing

/-!
# What holds of all items

A regex is read token by token. What holds of each token that can be written, and of each class with
one token more, holds of the items.

* `Token.arises_ofText`: the tokens that a regex can have;
* `Item.ReadingRule.items`: items, from tokens and classes.
-/

namespace PatternGroups

/-! ## Tokens -/

/-- Tokens that can be written. -/
inductive Token.Arises : Token → Prop
  | literal (byte : UInt8) : Arises (.literal byte)
  | shorthand {byte : UInt8} {symbols : SymbolSet} (h : Lexeme.shorthand? byte = some symbols) :
      Arises (.shorthand symbols)
  | openGroup : Arises .openGroup
  | closeGroup : Arises .closeGroup
  | alternate : Arises .alternate
  | dot : Arises .dot
  | start : Arises .start
  | stop : Arises .stop
  | openClass (negated : Bool) : Arises (.openClass negated)
  | closeClass : Arises .closeClass
  | rangeDash : Arises .rangeDash
  | sign {b : Bounds} (h : b ∈ [Bounds.optional, Bounds.plus, Bounds.star]) : Arises (.times b)
  | braces {text : List UInt8} {b : Bounds} (h : Bounds.ofText? text = some b) : Arises (.times b)

theorem Token.WrittenAs.arises {t : Token} {text : List UInt8} (h : t.WrittenAs text) :
    t.Arises := by
  cases h with
  | literal | control | hexadecimal | escaped => exact .literal _
  | shorthand h => exact .shorthand h
  | openGroup => exact .openGroup
  | closeGroup => exact .closeGroup
  | alternate => exact .alternate
  | dot => exact .dot
  | start => exact .start
  | stop => exact .stop
  | openClass | openNegated => exact .openClass _
  | closeClass => exact .closeClass
  | rangeDash => exact .rangeDash
  | optional | plus | star => exact .sign (by decide)
  | braces _ h => exact .braces h

theorem Token.arises_ofText (regex : List UInt8) : ∀ t ∈ Token.ofText regex, t.value.Arises := by
  intro t ht
  have value : t.value ∈ (Token.ofText regex).map (·.value) := List.mem_map_of_mem ht
  rw [Token.ofText, Lexeme.map_value_locate] at value
  obtain ⟨l, hl, same⟩ := List.mem_map.1 value
  rw [← same]
  exact (Lexeme.written_of_mem_scan hl).arises

/-! ## Items -/

namespace Item

/-- A rule for items that follows from one for classes: a token that is an item satisfies it, and
so does a class that is closed. -/
structure ReadingRule (inside : OpenClass → Prop) (item : Item → Prop) : Prop where
  single : ∀ {t i}, Token.Arises t → ofToken? t = some i → item i
  opened : ∀ offset negated, inside (.opened offset negated)
  add : ∀ {c t}, inside c → Token.Arises t → inside (c.add t)
  close : ∀ {c}, inside c → c.set.isEmpty = false → item (.set c.set)

namespace ReadingRule

variable {inside : OpenClass → Prop} {item : Item → Prop}

theorem readFrom (rule : ReadingRule inside item) {c : Option OpenClass} {offset : Nat}
    {tokens : List (Located Token)} (ht : ∀ t ∈ tokens, t.value.Arises) (hc : ∀ o ∈ c, inside o) :
    ∀ i ∈ (readFrom c offset tokens).items, item i.value := by
  fun_induction Item.readFrom c offset tokens with
  | case1 offset => simp
  | case2 offset c => simp
  | case3 _ offset negated rest ih =>
    refine ih (List.forall_mem_cons.1 ht).2 ?_
    rintro _ ⟨⟩
    exact rule.opened offset negated
  | case4 _ offset t rest _ i found ih =>
    obtain ⟨first, others⟩ := List.forall_mem_cons.1 ht
    exact List.forall_mem_cons.2 ⟨rule.single first found, ih others nofun⟩
  | case5 _ offset t rest _ _ ih => exact ih (List.forall_mem_cons.1 ht).2 nofun
  | case6 _ c offset rest isEmpty => simp
  | case7 _ c offset rest some ih =>
    have closed : item (.set c.set) := rule.close (hc c rfl) (Bool.eq_false_iff.2 some)
    exact List.forall_mem_cons.2 ⟨closed, ih (List.forall_mem_cons.1 ht).2 nofun⟩
  | case8 _ c offset t rest _ ih =>
    obtain ⟨first, others⟩ := List.forall_mem_cons.1 ht
    refine ih others ?_
    rintro _ ⟨⟩
    exact rule.add (hc c rfl) first

theorem items (rule : ReadingRule inside item) {regex : List UInt8} {l : List (Located Item)}
    (h : ofText? regex = .ok l) : ∀ i ∈ l, item i.value := by
  have all : ∀ i ∈ (read regex).items, item i.value :=
    rule.readFrom (Token.arises_ofText regex) nofun
  unfold ofText? at h
  cases failure : (Item.read regex).failure with
  | some fault => simp only [failure] at h; cases h
  | none =>
    simp only [failure] at h
    obtain rfl := Except.ok.inj h
    exact all

end ReadingRule

end Item

end PatternGroups
