import PatternGroups.Proofs.Members
import PatternGroups.Proofs.Spelling

/-!
# What is read can be spelled

A regex names no set with the border in it but the border itself, and no bounds but those that can
be written. So its items have a spelling, and that is read as the same items.

* `Item.printableRule`: tokens, classes and items of any regex;
* `Item.reads_spelled`: the items that regexes have, and what is read from their spelling.
-/

namespace PatternGroups

namespace SymbolSet

/-- A set of bytes. -/
def Bytes (s : SymbolSet) : Prop := s.contains Symbol.border.val = false

instance (s : SymbolSet) : Decidable s.Bytes := inferInstanceAs (Decidable (_ = _))

theorem Bytes.union {s t : SymbolSet} (hs : s.Bytes) (ht : t.Bytes) : (s ∪ t).Bytes := by
  rw [Bytes, contains_union, hs, ht]
  rfl

theorem Bytes.sdiff {s : SymbolSet} (hs : s.Bytes) (t : SymbolSet) : (s \ t).Bytes := by
  rw [Bytes, contains_sdiff, hs]
  rfl

theorem bytes_empty : (∅ : SymbolSet).Bytes := contains_empty _

theorem bytes_anyByte : anyByte.Bytes := by decide +kernel

theorem bytes_range (a b : UInt8) : (range (.ofByte a) (.ofByte b)).Bytes := by
  have ha := a.toNat_lt
  have hb := b.toNat_lt
  rw [Bytes, contains_range, decide_eq_false_iff_not]
  simp only [Symbol.ofByte, Symbol.border]
  omega

theorem bytes_singleton (a : UInt8) : (singleton (.ofByte a)).Bytes := by
  have ha := a.toNat_lt
  rw [Bytes, contains_singleton, decide_eq_false_iff_not]
  simp only [Symbol.ofByte, Symbol.border]
  omega

theorem Inhabited.ne_empty {s : SymbolSet} (h : s.Inhabited) : s ≠ ∅ := by
  rintro rfl
  obtain ⟨code, hc⟩ := h
  rw [contains_empty] at hc
  cases hc

end SymbolSet

open SymbolSet

theorem Lexeme.bytes_of_shorthand? {byte : UInt8} {symbols : SymbolSet}
    (h : shorthand? byte = some symbols) : symbols.Bytes := by
  unfold shorthand? at h
  split at h
  · cases h; decide +kernel
  · cases h; decide +kernel
  · cases h; decide +kernel
  · cases h; exact bytes_anyByte.sdiff _
  · cases h; exact bytes_anyByte.sdiff _
  · cases h; exact bytes_anyByte.sdiff _
  · cases h

theorem Bounds.written_of_mem_signs {b : Bounds} (h : b ∈ [optional, plus, star]) : b.Written := by
  simp only [List.mem_cons, List.not_mem_nil, or_false] at h
  obtain rfl | rfl | rfl := h
  · exact ⟨by decide, by rintro _ ⟨⟩; decide⟩
  · exact ⟨by decide, nofun⟩
  · exact ⟨by decide, nofun⟩

namespace Item

/-! ## Printable items -/

theorem printable_set {s : SymbolSet} (some : s.Inhabited) (bytes : s.Bytes) :
    (Item.set s).Printable :=
  .inr ⟨some.ne_empty, bytes⟩

theorem printable_ofToken? {token : Token} {item : Item} (h : token.Arises)
    (hi : ofToken? token = some item) : item.Printable := by
  cases h with
  | literal byte => cases hi; exact printable_set (inhabited_singleton _) (bytes_singleton byte)
  | shorthand read =>
    cases hi
    exact printable_set (Lexeme.inhabited_of_shorthand? read) (Lexeme.bytes_of_shorthand? read)
  | dot => cases hi; exact printable_set inhabited_anyByte bytes_anyByte
  | start => cases hi; exact .inl rfl
  | stop => cases hi; exact .inl rfl
  | openGroup => cases hi; trivial
  | closeGroup => cases hi; trivial
  | alternate => cases hi; trivial
  | sign known =>
    cases hi
    exact Bounds.written_of_mem_signs known
  | braces read => cases hi; exact Bounds.written_of_ofText? read
  | openClass negated => cases hi
  | closeClass => cases hi
  | rangeDash => cases hi

/-- No token adds the border to a class. -/
theorem bytes_add {c : OpenClass} {token : Token} (hc : c.members.Bytes) (h : token.Arises) :
    (c.add token).members.Bytes := by
  cases h with
  | literal byte =>
    refine hc.union ?_
    cases c.dashed with
    | true => exact bytes_range c.last byte
    | false => exact bytes_singleton byte
  | shorthand read =>
    have named := Lexeme.bytes_of_shorthand? read
    refine hc.union ?_
    cases c.dashed with
    | true => exact (bytes_singleton 0x2d).union named
    | false => exact named
  | _ => exact hc

theorem bytes_set {c : OpenClass} (hc : c.members.Bytes) : c.set.Bytes := by
  unfold OpenClass.set
  split
  · exact bytes_anyByte.sdiff _
  · exact hc

theorem printableRule : ReadingRule (fun c => c.members.Bytes) Item.Printable := by
  constructor
  · exact printable_ofToken?
  · exact fun _ _ => bytes_empty
  · exact bytes_add
  · exact fun hc some => printable_set (isEmpty_eq_false_iff.1 some) (bytes_set hc)

theorem printable_ofRegex? {regex : String} {items : List Item} (h : ofRegex? regex = .ok items) :
    ∀ item ∈ items, item.Printable := by
  obtain ⟨located, read, rfl⟩ :
      ∃ l, ofText? regex.toUTF8.toList = .ok l ∧ l.map (·.value) = items := by
    rw [ofRegex?] at h
    cases read : ofText? regex.toUTF8.toList with
    | error fault => rw [read] at h; cases h
    | ok located => rw [read] at h; exact ⟨located, rfl, Except.ok.inj h⟩
  intro item mem
  obtain ⟨place, listed, rfl⟩ := List.mem_map.1 mem
  exact printableRule.items read place listed

/-! ## Spelling and reading -/

theorem ascii_body (b : Bounds) : ∀ c ∈ b.body, c.toNat < 0x80 := by
  have digits (n : Nat) : ∀ c ∈ Nat.toDigits 10 n, c.toNat < 0x80 := fun c hc =>
    Nat.lt_of_le_of_lt (Text.digit_of_mem_toDigits hc).2 (by decide)
  have comma : ','.toNat < 0x80 := by decide
  rw [Bounds.body]
  split
  · exact List.forall_mem_append.2 ⟨digits _, List.forall_mem_singleton.2 comma⟩
  · split
    · exact digits _
    · exact List.forall_mem_append.2
        ⟨digits _, List.forall_mem_cons.2 ⟨comma, digits _⟩⟩

theorem ascii_escaped (capital : Bool) (symbol : Symbol) :
    ∀ c ∈ escaped capital symbol, c.toNat < 0x80 := by
  have digits : ∀ capital, ∀ value < 17, (Text.hexDigit capital value).toNat < 0x80 := by decide
  have bound := symbol.isLt
  simp only [escaped, List.forall_mem_cons]
  exact ⟨by decide, by decide, digits _ _ (by omega), digits _ _ (by omega), nofun⟩

theorem ascii_spelling (capital : Bool) (item : Item) :
    ∀ c ∈ item.spelling capital, c.toNat < 0x80 := by
  have enclosed {first last : Char} {inner : List Char} (hf : first.toNat < 0x80)
      (hi : ∀ c ∈ inner, c.toNat < 0x80) (hl : last.toNat < 0x80) :
      ∀ c ∈ first :: (inner ++ [last]), c.toNat < 0x80 :=
    List.forall_mem_cons.2 ⟨hf, List.forall_mem_append.2 ⟨hi, List.forall_mem_singleton.2 hl⟩⟩
  cases item with
  | set symbols =>
    rw [spelling]
    split
    · exact List.forall_mem_singleton.2 (by decide)
    · refine enclosed (by decide) ?_ (by decide)
      intro c hc
      obtain ⟨symbol, -, mem⟩ := List.mem_flatMap.1 hc
      exact ascii_escaped capital symbol c mem
  | times b => exact enclosed (by decide) (ascii_body b) (by decide)
  | openGroup => exact List.forall_mem_singleton.2 (by decide)
  | closeGroup => exact List.forall_mem_singleton.2 (by decide)
  | alternate => exact List.forall_mem_singleton.2 (by decide)

theorem ofRegex?_spelled (capital : Bool) {items : List Item}
    (h : ∀ item ∈ items, item.Printable) : ofRegex? (spelled capital items) = .ok items := by
  have ascii : ∀ c ∈ items.flatMap (spelling capital), c.toNat < 0x80 := by
    intro c hc
    obtain ⟨item, -, mem⟩ := List.mem_flatMap.1 hc
    exact ascii_spelling capital item c mem
  obtain ⟨succeeds, values⟩ := readRest_spelled capital h 0 0
  have read (regex : List UInt8) : Item.read regex = readRest none .outside 0 0 regex := rfl
  rw [ofRegex?, spelled, Text.toUTF8_ofList ascii, ofText?, read]
  simp only [succeeds, Except.map, values]

/-- Items that have a spelling are read back from it, whichever digits are used; and whatever a
regex is read as has a spelling, so that it is read back, too. -/
theorem reads_spelled :
    (∀ items : List Item, (∀ item ∈ items, item.Printable) →
      ∀ capital, ofRegex? (spelled capital items) = .ok items) ∧
    ∀ regex items, ofRegex? regex = .ok items →
      (∀ item ∈ items, item.Printable) ∧
        ∀ capital, ofRegex? (spelled capital items) = .ok items := by
  refine ⟨fun items h capital => ofRegex?_spelled capital h, fun regex items h => ?_⟩
  have printable := printable_ofRegex? h
  exact ⟨printable, fun capital => ofRegex?_spelled capital printable⟩

/-- A regex with a class that is not written out, and bounds without the lower one. -/
theorem reads_spelled_class :
    ofRegex? "[^\\x02-\\xff]\x7b,3\x7d|^*" = .ok
        [.set (.ofBytes [0, 1]), .times ⟨0, some 3⟩, .alternate, .set .border, .times .star] ∧
      spelled true
        [.set (.ofBytes [0, 1]), .times ⟨0, some 3⟩, .alternate, .set .border, .times .star] =
        "[\\x00\\x01]\x7b0,3\x7d|^\x7b0,\x7d" ∧
      ofRegex? "[\\x00\\x01]\x7b0,3\x7d|^\x7b0,\x7d" = .ok
        [.set (.ofBytes [0, 1]), .times ⟨0, some 3⟩, .alternate, .set .border, .times .star] := by
  have read : ofRegex? "[^\\x02-\\xff]\x7b,3\x7d|^*" = .ok
      [.set (.ofBytes [0, 1]), .times ⟨0, some 3⟩, .alternate, .set .border, .times .star] := by
    decide +kernel
  have text : spelled true
      [.set (.ofBytes [0, 1]), .times ⟨0, some 3⟩, .alternate, .set .border, .times .star] =
      "[\\x00\\x01]\x7b0,3\x7d|^\x7b0,\x7d" := by
    decide +kernel
  have again := reads_spelled.1 _ (reads_spelled.2 _ _ read).1 true
  rw [text] at again
  exact ⟨read, text, again⟩

end Item

end PatternGroups
