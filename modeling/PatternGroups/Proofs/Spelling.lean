import PatternGroups.Proofs.Labels
import PatternGroups.Proofs.Lexing
import PatternGroups.Proofs.Numerals

/-!
# Reading what is spelled

The spelling of an item is read as the item, whatever follows it: its tokens end where it ends, so
that spellings one after the other are read as the items one after the other.

* `Lexeme.scanFrom_step`: one token, up to its end;
* `Item.Spells`: texts that are read as an item, with a lemma for each kind of items;
* `Item.readRest_spelled`: a spelling of items, one after the other.
-/

namespace PatternGroups

open Text

/-! ## Tokens -/

namespace Lexeme

variable {mode next : Mode} {byte : UInt8} {tail rest : List UInt8} {token : Token}

theorem scanFrom_step (h : step mode byte (tail ++ rest) = ⟨token, tail.length, next⟩) :
    scanFrom mode 0 (byte :: tail ++ rest) = ⟨token, byte :: tail⟩ :: scanFrom next 0 rest := by
  rw [List.cons_append, scanFrom_cons, h, Step.lexeme, List.take_left, List.drop_left]

/-- A byte in a class, by its number. -/
theorem step_escaped (capital : Bool) {symbol : Symbol} (h : symbol.val < 256) (rangeable : Bool)
    (rest : List UInt8) :
    ∃ tail, ascii (Item.escaped capital symbol) = 0x5c :: tail ∧
      step (.inside rangeable) 0x5c (tail ++ rest) =
        ⟨.literal (UInt8.ofNat symbol.val), tail.length, .inside true⟩ := by
  have escapes {digits : List UInt8} {value : UInt8} (h : hexByte? digits = some value) :
      step (.inside rangeable) 0x5c (0x78 :: digits) = ⟨.literal value, 3, .inside true⟩ := by
    simp [step, escape, control?, h, Step.literal, Mode.afterLiteral]
  exact ⟨_, rfl, escapes (hexByte?_hexDigits capital h rest)⟩

/-- Bounds between braces. -/
theorem step_braces {b : Bounds} (h : b.Written) (rest : List UInt8) :
    step .outside 0x7b (ascii b.body ++ [0x7d] ++ rest) =
      ⟨.times b, (ascii b.body ++ [0x7d]).length, .outside⟩ := by
  have braced : step .outside 0x7b (ascii b.body ++ 0x7d :: rest) =
      braces (ascii b.body ++ 0x7d :: rest) := rfl
  rw [List.append_assoc, List.singleton_append, braced,
    braces_of_some b.brace_not_mem_body (Bounds.ofText?_body h), List.length_append]
  rfl

end Lexeme

/-! ## Items -/

namespace Item

open Lexeme

/-- What is read from the rest of a regex, of which the token before begins at `last`. -/
def readRest (inside : Option OpenClass) (mode : Mode) (last offset : Nat) (rest : List UInt8) :
    Reading :=
  readFrom inside last (locate offset (scanFrom mode 0 rest))

variable {mode next : Mode} {byte : UInt8} {tail rest : List UInt8} {token : Token} {item : Item}
  {last offset : Nat}

/-- Reads one token. -/
theorem readRest_step {inside : Option OpenClass}
    (h : step mode byte (tail ++ rest) = ⟨token, tail.length, next⟩) :
    readRest inside mode last offset (byte :: tail ++ rest) =
      readFrom inside last
        (⟨offset, token⟩ :: locate (offset + (byte :: tail).length) (scanFrom next 0 rest)) := by
  rw [readRest, scanFrom_step h, locate]

/-- A text is read as an item, whatever follows. -/
def Spells (text : List UInt8) (item : Item) : Prop :=
  ∀ last offset rest, ∃ last' place, readRest none .outside last offset (text ++ rest) =
    (readRest none .outside last' (offset + text.length) rest).cons place item

theorem readFrom_token (h : ofToken? token = some item) (tokens : List (Located Token)) :
    readFrom none last (⟨offset, token⟩ :: tokens) =
      (readFrom none offset tokens).cons offset item := by
  cases token with
  | openClass negated => cases h
  | closeClass => cases h
  | rangeDash => cases h
  | _ => cases h; rfl

/-- A token that is an item on its own. -/
theorem spells_token (h : ofToken? token = some item)
    (read : ∀ rest, step .outside byte (tail ++ rest) = ⟨token, tail.length, .outside⟩) :
    Spells (byte :: tail) item := by
  intro last offset rest
  exact ⟨offset, offset, (readRest_step (read rest)).trans (readFrom_token h _)⟩

theorem spells_times {b : Bounds} (h : b.Written) :
    Spells (0x7b :: (ascii b.body ++ [0x7d])) (.times b) :=
  spells_token rfl (step_braces h)

/-! ## Classes -/

/-- A class with some bytes more. -/
def OpenClass.addAll (c : OpenClass) (bytes : List Symbol) : OpenClass :=
  bytes.foldl (fun c symbol => c.add (.literal (UInt8.ofNat symbol.val))) c

theorem readRest_escaped (capital : Bool) {symbol : Symbol} (h : symbol.val < 256)
    (c : OpenClass) (rangeable : Bool) (last offset : Nat) (rest : List UInt8) :
    readRest (some c) (.inside rangeable) last offset
        (ascii (escaped capital symbol) ++ rest) =
      readRest (some (c.add (.literal (UInt8.ofNat symbol.val)))) (.inside true) offset
        (offset + (ascii (escaped capital symbol)).length) rest := by
  obtain ⟨tail, spelled, read⟩ := step_escaped capital h rangeable rest
  rw [spelled, readRest_step read]
  rfl

theorem readRest_allEscaped (capital : Bool) {bytes : List Symbol}
    (h : ∀ symbol ∈ bytes, symbol.val < 256) (c : OpenClass) (rangeable : Bool)
    (last offset : Nat) (rest : List UInt8) :
    ∃ rangeable' last', readRest (some c) (.inside rangeable) last offset
        (ascii (bytes.flatMap (escaped capital)) ++ rest) =
      readRest (some (c.addAll bytes)) (.inside rangeable') last'
        (offset + (ascii (bytes.flatMap (escaped capital))).length) rest := by
  induction bytes generalizing c rangeable last offset with
  | nil => exact ⟨rangeable, last, rfl⟩
  | cons symbol others ih =>
    rw [List.forall_mem_cons] at h
    obtain ⟨rangeable', last', read⟩ := ih h.2 (c.add (.literal (UInt8.ofNat symbol.val))) true
      offset (offset + (ascii (escaped capital symbol)).length)
    refine ⟨rangeable', last', ?_⟩
    rw [List.flatMap_cons, ascii_append, List.append_assoc, readRest_escaped capital h.1, read,
      List.length_append, Nat.add_assoc]
    rfl

/-- A class that is opened, and not closed at once. -/
theorem readRest_open (last offset : Nat) (rest : List UInt8) :
    readRest none .outside last offset (0x5b :: 0x5c :: rest) =
      readRest (some (.opened offset false)) (.inside false) offset (offset + 1) (0x5c :: rest) := by
  have read : step .outside 0x5b ([] ++ 0x5c :: rest) = ⟨.openClass false, 0, .inside false⟩ := rfl
  exact readRest_step read

theorem readRest_close {c : OpenClass} (some : c.set.isEmpty = false) (rangeable : Bool)
    (last offset : Nat) (rest : List UInt8) :
    readRest (.some c) (.inside rangeable) last offset (0x5d :: rest) =
      (readRest none .outside offset (offset + 1) rest).cons offset (.set c.set) := by
  have read : step (.inside rangeable) 0x5d ([] ++ rest) = ⟨.closeClass, 0, .outside⟩ := rfl
  refine (readRest_step read).trans ?_
  rw [readFrom, if_neg (Bool.eq_false_iff.1 some)]
  rfl

/-- A byte that no dash comes before. -/
theorem OpenClass.add_literal {c : OpenClass} (undashed : c.dashed = false) (byte : UInt8) :
    c.add (.literal byte) =
      { c with members := c.members ∪ .singleton (.ofByte byte), last := byte, dashed := false } := by
  obtain ⟨offset, negated, members, last, dashed⟩ := c
  cases undashed
  rfl

/-- A class of single bytes is the set of them. -/
theorem set_addAll {bytes : List Symbol} (h : ∀ symbol ∈ bytes, symbol.val < 256) (offset : Nat) :
    ((OpenClass.opened offset false).addAll bytes).set = .ofSymbols bytes := by
  have members (c : OpenClass) (undashed : c.dashed = false) (listed : c.negated = false) :
      (c.addAll bytes).set = bytes.foldl (fun s symbol => s ∪ .singleton symbol) c.members := by
    induction bytes generalizing c with
    | nil => simp [OpenClass.addAll, OpenClass.set, listed]
    | cons symbol others ih =>
      rw [List.forall_mem_cons] at h
      have byte : Symbol.ofByte (UInt8.ofNat symbol.val) = symbol := by
        apply Fin.ext
        simpa [Symbol.ofByte] using h.1
      rw [OpenClass.addAll, List.foldl_cons, List.foldl_cons, OpenClass.add_literal undashed, byte]
      exact ih h.2 _ rfl listed
  exact members _ rfl rfl

theorem ofSymbols_members (s : SymbolSet) : SymbolSet.ofSymbols s.members = s := by
  refine SymbolSet.ext_contains fun code h => ?_
  rw [SymbolSet.contains_ofSymbols, Bool.eq_iff_iff, List.any_eq_true]
  simp only [SymbolSet.members, List.mem_filter, List.mem_finRange, true_and, decide_eq_true_eq]
  constructor
  · rintro ⟨symbol, mem, rfl⟩
    exact mem
  · intro mem
    exact ⟨⟨code, h⟩, mem, rfl⟩

/-- The escapes of some bytes, as a class. -/
theorem spells_class (capital : Bool) {bytes : List Symbol}
    (below : ∀ symbol ∈ bytes, symbol.val < 256) (nonempty : bytes ≠ []) :
    Spells (0x5b :: (ascii (bytes.flatMap (escaped capital)) ++ [0x5d]))
      (.set (.ofSymbols bytes)) := by
  intro last offset rest
  obtain ⟨symbol, others, rfl⟩ := List.exists_cons_of_ne_nil nonempty
  obtain ⟨rangeable, last', read⟩ := readRest_allEscaped capital below (.opened offset false) false
    offset (offset + 1) (0x5d :: rest)
  obtain ⟨escapes, first⟩ :
      ∃ escapes, ascii ((symbol :: others).flatMap (escaped capital)) = 0x5c :: escapes := ⟨_, rfl⟩
  have closed := set_addAll below offset
  have inhabited : (SymbolSet.ofSymbols (symbol :: others)).isEmpty = false := by
    refine SymbolSet.isEmpty_eq_false_iff.2 ⟨symbol.val, ?_⟩
    rw [SymbolSet.contains_ofSymbols]
    simp
  rw [first] at read ⊢
  have place : offset + 1 + (0x5c :: escapes).length + 1 =
      offset + (0x5b :: (0x5c :: escapes ++ [0x5d])).length := by
    simp only [List.length_cons, List.length_append, List.length_nil]
    omega
  refine ⟨offset + 1 + (0x5c :: escapes).length, offset + 1 + (0x5c :: escapes).length, ?_⟩
  calc readRest none .outside last offset (0x5b :: (0x5c :: escapes ++ [0x5d]) ++ rest)
    _ = readRest none .outside last offset (0x5b :: 0x5c :: (escapes ++ 0x5d :: rest)) := by simp
    _ = readRest (some (.opened offset false)) (.inside false) offset (offset + 1)
          (0x5c :: (escapes ++ 0x5d :: rest)) := readRest_open last offset _
    _ = readRest (some ((OpenClass.opened offset false).addAll (symbol :: others)))
          (.inside rangeable) last' (offset + 1 + (0x5c :: escapes).length) (0x5d :: rest) := read
    _ = _ := readRest_close (by rw [closed, inhabited]) rangeable last' _ rest
    _ = _ := by rw [closed, place]

theorem spells_set (capital : Bool) {s : SymbolSet} (nonempty : s ≠ ∅)
    (bytes : s.contains Symbol.border.val = false) :
    Spells (0x5b :: (ascii (s.members.flatMap (escaped capital)) ++ [0x5d])) (.set s) := by
  have below : ∀ symbol ∈ s.members, symbol.val < 256 := by
    intro symbol mem
    have contained : s.contains symbol.val = true := (List.mem_filter.1 mem).2
    have other : symbol.val ≠ 256 := by
      intro border
      rw [border] at contained
      exact Bool.false_ne_true (bytes.symm.trans contained)
    have := symbol.isLt
    omega
  have some : s.members ≠ [] := by
    intro none
    apply nonempty
    rw [← ofSymbols_members s, none]
    rfl
  have spelled := spells_class capital below some
  rwa [ofSymbols_members] at spelled

/-! ## Spellings -/

theorem spells_spelling (capital : Bool) {item : Item} (h : item.Printable) :
    Spells (ascii (item.spelling capital)) item := by
  cases item with
  | set symbols =>
    rw [spelling]
    split
    · rename_i border
      have read (rest : List UInt8) : step .outside 0x5e ([] ++ rest) = ⟨.start, 0, .outside⟩ := rfl
      rw [border]
      exact spells_token rfl read
    · rename_i differ
      obtain ⟨nonempty, bytes⟩ := h.resolve_left differ
      have spelled := spells_set capital nonempty bytes
      rwa [show [0x5d] = ascii [']'] from rfl, ← ascii_append] at spelled
  | times b =>
    have spelled := spells_times h
    rwa [show [0x7d] = ascii ['}'] from rfl, ← ascii_append] at spelled
  | openGroup =>
    have read (rest : List UInt8) : step .outside 0x28 ([] ++ rest) = ⟨.openGroup, 0, .outside⟩ :=
      rfl
    exact spells_token rfl read
  | closeGroup =>
    have read (rest : List UInt8) : step .outside 0x29 ([] ++ rest) = ⟨.closeGroup, 0, .outside⟩ :=
      rfl
    exact spells_token rfl read
  | alternate =>
    have read (rest : List UInt8) : step .outside 0x7c ([] ++ rest) = ⟨.alternate, 0, .outside⟩ :=
      rfl
    exact spells_token rfl read

theorem readRest_spelled (capital : Bool) {items : List Item}
    (h : ∀ item ∈ items, item.Printable) (last offset : Nat) :
    (readRest none .outside last offset (ascii (items.flatMap (spelling capital)))).failure = none ∧
      (readRest none .outside last offset
        (ascii (items.flatMap (spelling capital)))).items.map (·.value) = items := by
  induction items generalizing last offset with
  | nil => exact ⟨rfl, rfl⟩
  | cons item others ih =>
    rw [List.forall_mem_cons] at h
    obtain ⟨last', place, read⟩ := spells_spelling capital h.1 last offset
      (ascii (others.flatMap (spelling capital)))
    obtain ⟨faultless, values⟩ := ih h.2 last' (offset + (ascii (item.spelling capital)).length)
    rw [List.flatMap_cons, ascii_append, read]
    exact ⟨faultless, congrArg (item :: ·) values⟩

end Item

end PatternGroups
