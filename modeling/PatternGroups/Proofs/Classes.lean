import PatternGroups.Proofs.Lexing
import PatternGroups.Proofs.Respelling

/-!
# Classes as sets

The tokens of a class are taken in one after the other; what is kept of them is the set so far, the
last byte, and whether a dash came after it. That is enough: a dash comes after a byte of its class,
and before a byte or a shorthand.

* `Belongs`: what belongs to a class, from its tokens;
* `gathers_addTokens`: what is kept after any of the tokens;
* `Item.reads_class`: a class is read as the one set that it describes, unless that is empty.
-/

namespace PatternGroups

theorem concat_suffix_concat {α : Type} {l k : List α} {x y : α} :
    l ++ [x] <:+ k ++ [y] ↔ l <:+ k ∧ x = y := by
  constructor
  · rintro ⟨front, same⟩
    rw [← List.append_assoc] at same
    obtain ⟨rfl, last⟩ := List.append_inj' same rfl
    exact ⟨⟨front, rfl⟩, List.singleton_inj.1 last⟩
  · rintro ⟨⟨front, rfl⟩, rfl⟩
    exact ⟨front, by rw [List.append_assoc]⟩

/-- What ends with some element, somewhere in a longer list: before its last element or with it. -/
theorem concat_infix_concat {α : Type} {l k : List α} {x y : α} :
    l ++ [x] <:+: k ++ [y] ↔ l ++ [x] <:+: k ∨ l <:+ k ∧ x = y := by
  rw [List.infix_concat_iff, concat_suffix_concat, or_comm]

namespace Item

/-! ## What belongs to a class -/

/-- A symbol belongs to a class with some tokens. -/
inductive Belongs (inner : List Token) : (code : Nat) → Prop
  | literal {byte : UInt8} (h : .literal byte ∈ inner) : Belongs inner byte.toNat
  /-- A range holds what is between its ends, whichever comes first. -/
  | range {a b : UInt8} {code : Nat} (h : [.literal a, .rangeDash, .literal b] <:+: inner)
      (low : min a.toNat b.toNat ≤ code) (high : code ≤ max a.toNat b.toNat) : Belongs inner code
  /-- A dash before a shorthand stands for itself. -/
  | dash {symbols : SymbolSet} (h : [.rangeDash, .shorthand symbols] <:+: inner) :
      Belongs inner 0x2d
  | shorthand {symbols : SymbolSet} {code : Nat} (h : .shorthand symbols ∈ inner)
      (mem : symbols.contains code = true) : Belongs inner code

variable {inner : List Token} {code : Nat}

/-- What one more token adds to a class. -/
def Adds (inner : List Token) (code : Nat) : Token → Prop
  | .literal byte => code = byte.toNat ∨ ∃ a : UInt8, [.literal a, .rangeDash] <:+ inner ∧
      min a.toNat byte.toNat ≤ code ∧ code ≤ max a.toNat byte.toNat
  | .shorthand symbols =>
    symbols.contains code = true ∨ [.rangeDash] <:+ inner ∧ code = 0x2d
  | _ => False

theorem belongs_concat {t : Token} :
    Belongs (inner ++ [t]) code ↔ Belongs inner code ∨ Adds inner code t := by
  constructor
  · intro h
    cases h with
    | literal h =>
      rcases List.mem_append.1 h with old | new
      · exact .inl (.literal old)
      · obtain rfl := List.mem_singleton.1 new
        exact .inr (.inl rfl)
    | @range a b _ h low high =>
      have ends : [.literal a, .rangeDash] ++ [.literal b] <:+: inner ++ [t] := h
      rcases concat_infix_concat.1 ends with old | ⟨before, rfl⟩
      · exact .inl (.range old low high)
      · exact .inr (.inr ⟨a, before, low, high⟩)
    | @dash symbols h =>
      have ends : [.rangeDash] ++ [.shorthand symbols] <:+: inner ++ [t] := h
      rcases concat_infix_concat.1 ends with old | ⟨before, rfl⟩
      · exact .inl (.dash old)
      · exact .inr (.inr ⟨before, rfl⟩)
    | shorthand h mem =>
      rcases List.mem_append.1 h with old | new
      · exact .inl (.shorthand old mem)
      · obtain rfl := List.mem_singleton.1 new
        exact .inr (.inl mem)
  · have longer : inner <:+: inner ++ [t] := List.infix_append' [] inner [t]
    have last : t ∈ inner ++ [t] := by simp
    rintro (old | new)
    · cases old with
      | literal h => exact .literal (longer.subset h)
      | range h low high => exact .range (h.trans longer) low high
      | dash h => exact .dash (h.trans longer)
      | shorthand h mem => exact .shorthand (longer.subset h) mem
    · cases t with
      | literal byte =>
        rcases new with rfl | ⟨a, before, low, high⟩
        · exact .literal last
        · exact .range (concat_infix_concat (l := [_, _]).2 (.inr ⟨before, rfl⟩)) low high
      | shorthand symbols =>
        rcases new with mem | ⟨before, rfl⟩
        · exact .shorthand last mem
        · exact .dash (concat_infix_concat (l := [_]).2 (.inr ⟨before, rfl⟩))
      | _ => exact absurd new id

/-! ## Taking in tokens -/

/-- Tokens of a class: members, and dashes after bytes. -/
structure Tidy (inner : List Token) : Prop where
  arises : ∀ t ∈ inner, t.Arises
  members : ∀ t ∈ inner, t.IsMember ∨ t = .rangeDash
  dash : ∀ first second, inner = first ++ .rangeDash :: second →
    ∃ before byte, first = before ++ [.literal byte]

theorem Tidy.of_concat {t : Token} (h : Tidy (inner ++ [t])) : Tidy inner := by
  refine ⟨fun u hu => h.arises u (List.mem_append_left _ hu),
    fun u hu => h.members u (List.mem_append_left _ hu), ?_⟩
  rintro first second rfl
  exact h.dash first (second ++ [t]) (by simp)

/-- A class with some tokens more. -/
def OpenClass.addTokens (c : OpenClass) (tokens : List Token) : OpenClass :=
  tokens.foldl OpenClass.add c

theorem OpenClass.addTokens_concat (c : OpenClass) (tokens : List Token) (t : Token) :
    c.addTokens (tokens ++ [t]) = (c.addTokens tokens).add t := by
  rw [addTokens, addTokens, List.foldl_append]
  rfl

/-- What is known after some tokens of a class. -/
structure Gathers (inner : List Token) (c : OpenClass) : Prop where
  members : ∀ code, c.members.contains code = true ↔ Belongs inner code
  dashed : c.dashed = true ↔ [.rangeDash] <:+ inner
  last : ∀ byte, [.literal byte] <:+ inner ∨ [.literal byte, .rangeDash] <:+ inner → c.last = byte

theorem gathers_opened (offset : Nat) (negated : Bool) : Gathers [] (.opened offset negated) := by
  refine ⟨fun code => iff_of_false ?_ ?_, iff_of_false nofun (by simp), by simp⟩
  · rw [OpenClass.opened, SymbolSet.contains_empty]
    exact Bool.false_ne_true
  · intro h
    cases h <;> simp_all

theorem singleton_suffix_concat {α : Type} {k : List α} {x y : α} : [x] <:+ k ++ [y] ↔ x = y :=
  (concat_suffix_concat (l := [])).trans (and_iff_right List.nil_suffix)

theorem pair_suffix_concat {α : Type} {k : List α} {w x y : α} :
    [w, x] <:+ k ++ [y] ↔ [w] <:+ k ∧ x = y := concat_suffix_concat (l := [w])

/-- A dash has a byte before it. -/
theorem Tidy.exists_literal (h : Tidy inner) (dashed : [.rangeDash] <:+ inner) :
    ∃ byte, [.literal byte, .rangeDash] <:+ inner := by
  obtain ⟨first, rfl⟩ := dashed
  obtain ⟨before, byte, rfl⟩ := h.dash first [] rfl
  exact ⟨byte, before, by simp⟩

theorem members_add_literal (c : OpenClass) (byte : UInt8) :
    (c.add (.literal byte)).members = c.members ∪
      if c.dashed then .range (.ofByte c.last) (.ofByte byte) else .singleton (.ofByte byte) := rfl

theorem members_add_shorthand (c : OpenClass) (symbols : SymbolSet) :
    (c.add (.shorthand symbols)).members = c.members ∪
      if c.dashed then .singleton dash ∪ symbols else symbols := rfl

theorem members_add_rangeDash (c : OpenClass) : (c.add .rangeDash).members = c.members := rfl

theorem Gathers.literal {c : OpenClass} (h : Gathers inner c) (tidy : Tidy inner) (byte : UInt8) :
    Gathers (inner ++ [.literal byte]) (c.add (.literal byte)) := by
  refine ⟨fun code => ?_, ?_, ?_⟩
  · rw [belongs_concat, members_add_literal, SymbolSet.contains_union, Bool.or_eq_true, h.members]
    refine or_congr_right ?_
    by_cases dashed : c.dashed = true
    · -- The last byte before the dash is the one that was kept.
      obtain ⟨a, before⟩ := tidy.exists_literal (h.dashed.1 dashed)
      have last := h.last a (.inr before)
      rw [if_pos dashed, SymbolSet.contains_range, decide_eq_true_eq, last]
      constructor
      · exact fun between => .inr ⟨a, before, between⟩
      · rintro (rfl | ⟨b, before', between⟩)
        · exact ⟨Nat.min_le_right _ _, Nat.le_max_right _ _⟩
        · obtain rfl := last.symm.trans (h.last b (.inr before'))
          exact between
    · rw [if_neg dashed, SymbolSet.contains_singleton, decide_eq_true_eq]
      constructor
      · exact fun same => .inl same.symm
      · rintro (rfl | ⟨a, before, -⟩)
        · rfl
        · exact absurd (h.dashed.2 ((List.suffix_cons _ _).trans before)) dashed
  · refine iff_of_false Bool.false_ne_true fun dash => ?_
    cases singleton_suffix_concat.1 dash
  · rintro a (last | last)
    · cases singleton_suffix_concat.1 last
      rfl
    · cases (pair_suffix_concat.1 last).2

theorem Gathers.shorthand {c : OpenClass} (h : Gathers inner c) (symbols : SymbolSet) :
    Gathers (inner ++ [.shorthand symbols]) (c.add (.shorthand symbols)) := by
  refine ⟨fun code => ?_, ?_, ?_⟩
  · rw [belongs_concat, members_add_shorthand, SymbolSet.contains_union, Bool.or_eq_true,
      h.members]
    refine or_congr_right ?_
    rw [Adds, ← h.dashed]
    by_cases dashed : c.dashed = true
    · have dash : (Symbol.ofByte 0x2d).val = 0x2d := rfl
      rw [if_pos dashed, SymbolSet.contains_union, Bool.or_eq_true, Item.dash,
        SymbolSet.contains_singleton, decide_eq_true_eq, dash]
      simp only [dashed, true_and, or_comm, eq_comm]
    · rw [if_neg dashed]
      exact (or_iff_left fun dash => dashed dash.1).symm
  · refine iff_of_false Bool.false_ne_true fun dash => ?_
    cases singleton_suffix_concat.1 dash
  · rintro a (last | last)
    · cases singleton_suffix_concat.1 last
    · cases (pair_suffix_concat.1 last).2

theorem Gathers.rangeDash {c : OpenClass} (h : Gathers inner c) :
    Gathers (inner ++ [.rangeDash]) (c.add .rangeDash) := by
  refine ⟨fun code => ?_, ?_, ?_⟩
  · rw [belongs_concat, members_add_rangeDash, h.members]
    exact (or_iff_left id).symm
  · exact iff_of_true rfl (singleton_suffix_concat.2 rfl)
  · rintro a (last | last)
    · cases singleton_suffix_concat.1 last
    · exact h.last a (.inl (pair_suffix_concat.1 last).1)

/-- What is kept of the tokens of a class. -/
theorem gathers_addTokens (offset : Nat) (negated : Bool) (tidy : Tidy inner) :
    Gathers inner ((OpenClass.opened offset negated).addTokens inner) := by
  induction inner using List.reverseRecOn with
  | nil => exact gathers_opened offset negated
  | append_singleton inner t ih =>
    have before := ih tidy.of_concat
    rw [OpenClass.addTokens_concat]
    rcases tidy.members t (by simp) with member | rfl
    · cases t with
      | literal byte => exact before.literal tidy.of_concat byte
      | shorthand symbols => exact before.shorthand symbols
      | _ => exact absurd member id
    · exact before.rangeDash

/-! ## The set of a class -/

theorem bytes_addTokens {c : OpenClass} (h : c.members.Bytes) (arise : ∀ t ∈ inner, t.Arises) :
    (c.addTokens inner).members.Bytes := by
  induction inner generalizing c with
  | nil => exact h
  | cons t rest ih =>
    rw [List.forall_mem_cons] at arise
    exact ih (bytes_add h arise.1) arise.2

theorem negated_addTokens (c : OpenClass) (inner : List Token) :
    (c.addTokens inner).negated = c.negated := by
  induction inner generalizing c with
  | nil => rfl
  | cons t rest ih =>
    have kept : (c.add t).negated = c.negated := by cases t <;> rfl
    exact (ih (c.add t)).trans kept

theorem offset_addTokens (c : OpenClass) (inner : List Token) :
    (c.addTokens inner).offset = c.offset := by
  induction inner generalizing c with
  | nil => rfl
  | cons t rest ih =>
    have kept : (c.add t).offset = c.offset := by cases t <;> rfl
    exact (ih (c.add t)).trans kept

/-- Where a class begins matters for its faults only. -/
theorem addTokens_moved (c : OpenClass) (offset : Nat) (inner : List Token) :
    OpenClass.addTokens { c with offset := offset } inner =
      { c.addTokens inner with offset := offset } := by
  induction inner generalizing c with
  | nil => rfl
  | cons t rest ih =>
    have kept : OpenClass.add { c with offset := offset } t = { c.add t with offset := offset } := by
      cases t <;> rfl
    exact (congrArg (OpenClass.addTokens · rest) kept).trans (ih (c.add t))

/-- The set of a class with some tokens. -/
def classSet (negated : Bool) (inner : List Token) : SymbolSet :=
  ((OpenClass.opened 0 negated).addTokens inner).set

theorem contains_classSet_iff (negated : Bool) (tidy : Tidy inner) :
    (classSet negated inner).contains code = true ↔
      if negated then code < 256 ∧ ¬Belongs inner code else Belongs inner code := by
  have gathers := gathers_addTokens 0 negated tidy
  have same : ((OpenClass.opened 0 negated).addTokens inner).negated = negated :=
    negated_addTokens (.opened 0 negated) inner
  rw [classSet, OpenClass.set, same]
  cases negated with
  | false => exact gathers.members code
  | true =>
    rw [if_pos rfl, if_pos rfl, SymbolSet.contains_sdiff, SymbolSet.contains_anyByte,
      Bool.and_eq_true, decide_eq_true_eq, Bool.not_eq_true', Bool.eq_false_iff, ne_eq,
      gathers.members]

theorem bytes_classSet (negated : Bool) (tidy : Tidy inner) : (classSet negated inner).Bytes :=
  bytes_set (bytes_addTokens SymbolSet.bytes_empty tidy.arises)

/-- A class that has a token has a member. -/
theorem inhabited_classSet (tidy : Tidy inner) (some : inner ≠ []) :
    (classSet false inner).Inhabited := by
  obtain ⟨t, rest, rfl⟩ := List.exists_cons_of_ne_nil some
  have member : ∃ code, Belongs (t :: rest) code := by
    rcases tidy.members t List.mem_cons_self with member | rfl
    · have arises := tidy.arises t List.mem_cons_self
      cases arises with
      | literal byte => exact ⟨_, .literal List.mem_cons_self⟩
      | shorthand read =>
        obtain ⟨code, mem⟩ := Lexeme.inhabited_of_shorthand? read
        exact ⟨code, .shorthand List.mem_cons_self mem⟩
      | _ => exact absurd member id
    · obtain ⟨before, byte, same⟩ := tidy.dash [] rest rfl
      exact absurd same (by simp)
  obtain ⟨code, belongs⟩ := member
  exact ⟨code, (contains_classSet_iff false tidy).2 belongs⟩

theorem classSet_eq_empty_iff (negated : Bool) (tidy : Tidy inner)
    (some : negated = false → inner ≠ []) :
    classSet negated inner = ∅ ↔ negated = true ∧ ∀ code < 256, Belongs inner code := by
  cases negated with
  | false => exact iff_of_false (inhabited_classSet tidy (some rfl)).ne_empty nofun
  | true =>
    constructor
    · refine fun empty => ⟨rfl, fun code small => ?_⟩
      by_contra other
      have mem := (contains_classSet_iff true tidy).2 ⟨small, other⟩
      rw [empty, SymbolSet.contains_empty] at mem
      cases mem
    · rintro ⟨-, all⟩
      by_contra nonempty
      obtain ⟨code, mem⟩ := SymbolSet.isEmpty_eq_false_iff.1 (beq_false_of_ne nonempty)
      obtain ⟨small, other⟩ := (contains_classSet_iff true tidy).1 mem
      exact other (all code small)

/-! ## Reading classes -/

/-- A reading, and one of what comes after it. -/
def Reading.followedBy (r next : Reading) : Reading :=
  { next with items := r.items ++ next.items }

theorem readFrom_append {before : List (Located Token)} {inside : Option OpenClass} {last : Nat}
    (h : (readFrom inside last before).failure = none) (rest : List (Located Token)) :
    readFrom inside last (before ++ rest) = (readFrom inside last before).followedBy
      (readFrom none (readFrom inside last before).offset rest) := by
  fun_induction readFrom inside last before with
  | case1 last => rfl
  | case2 last c => cases h
  | case3 _ offset negated before ih =>
    rw [List.cons_append, readFrom]
    exact ih h
  | case4 _ offset t before other i found ih =>
    rw [List.cons_append, readFrom_token found, ih h]
    rfl
  | case5 _ offset t before other none ih =>
    cases t with
    | openClass negated => exact absurd rfl (other negated)
    | closeClass => exact ih h
    | rangeDash => exact ih h
    | _ => cases none
  | case6 _ c offset before isEmpty => cases h
  | case7 _ c offset before some ih =>
    rw [List.cons_append, readFrom, if_neg some, ih h]
    rfl
  | case8 _ c offset t before other ih =>
    rw [List.cons_append, readFrom]
    exact ih h
    exact other

theorem readFrom_addTokens {inner : List (Located Token)} (h : ∀ t ∈ inner, t.value ≠ .closeClass)
    (c : OpenClass) (last : Nat) (rest : List (Located Token)) :
    ∃ last', readFrom (some c) last (inner ++ rest) =
      readFrom (some (c.addTokens (inner.map (·.value)))) last' rest := by
  induction inner generalizing c last with
  | nil => exact ⟨last, rfl⟩
  | cons t inner ih =>
    rw [List.forall_mem_cons] at h
    obtain ⟨last', read⟩ := ih h.2 (c.add t.value) t.offset
    refine ⟨last', ?_⟩
    rw [List.cons_append, readFrom]
    exact read
    exact fun closed => h.1 closed

/-- A class is read as its set. -/
theorem readFrom_class {inner : List (Located Token)} (h : ∀ t ∈ inner, t.value ≠ .closeClass)
    (last opening closing : Nat) (negated : Bool) (rest : List (Located Token)) :
    readFrom none last
        (⟨opening, .openClass negated⟩ :: (inner ++ ⟨closing, .closeClass⟩ :: rest)) =
      if classSet negated (inner.map (·.value)) = ∅ then
        ⟨[], some ⟨.emptyClass, opening⟩, closing⟩
      else (readFrom none closing rest).cons closing
        (.set (classSet negated (inner.map (·.value)))) := by
  obtain ⟨last', read⟩ := readFrom_addTokens h (.opened opening negated) opening
    (⟨closing, .closeClass⟩ :: rest)
  have moved : (OpenClass.opened opening negated).addTokens (inner.map (·.value)) =
      { (OpenClass.opened 0 negated).addTokens (inner.map (·.value)) with offset := opening } :=
    addTokens_moved (.opened 0 negated) opening _
  have same : ((OpenClass.opened opening negated).addTokens (inner.map (·.value))).set =
      classSet negated (inner.map (·.value)) := by
    rw [moved]
    rfl
  rw [readFrom, read, readFrom, same, offset_addTokens]
  simp only [SymbolSet.isEmpty, beq_iff_eq]
  rfl

/-- A class without its end is a fault, whatever belongs to it. -/
theorem failure_unclosed {inner : List (Located Token)} (h : ∀ t ∈ inner, t.value ≠ .closeClass)
    (last opening : Nat) (negated : Bool) :
    (readFrom none last (⟨opening, .openClass negated⟩ :: inner)).failure =
      some ⟨.unterminatedClass, opening⟩ := by
  obtain ⟨last', read⟩ := readFrom_addTokens h (.opened opening negated) opening []
  rw [List.append_nil] at read
  rw [readFrom, read, readFrom, offset_addTokens]
  rfl

/-! ## Classes of a regex -/

section
variable {regex : List UInt8} {before inner after : List (Located Token)} {opening closing : Nat}
  {negated : Bool}

/-- The tokens of a class of a regex. -/
theorem tidy_ofText
    (split : Token.ofText regex = before ++ ⟨opening, .openClass negated⟩ :: (inner ++ after))
    (unclosed : ∀ t ∈ inner, t.value ≠ .closeClass) : Tidy (inner.map (·.value)) := by
  have unnested := Token.unnested_ofText regex
  have arise : ∀ t ∈ inner, t.value.Arises := fun t ht =>
    Token.arises_ofText regex t (by simp [split, ht])
  have values : (Token.ofText regex).map (·.value) = before.map (·.value) ++
      .openClass negated :: (inner.map (·.value) ++ after.map (·.value)) := by
    simp [split]
  have open_ : .closeClass ∉ inner.map (·.value) := fun closed => by
    obtain ⟨t, ht, same⟩ := List.mem_map.1 closed
    exact unclosed t ht same
  rw [← List.forall_mem_map] at arise
  generalize inner.map (·.value) = inner, before.map (·.value) = before,
    after.map (·.value) = after at *
  have inside {first second : List Token} (h : inner = first ++ second) :
      Token.InClass (before ++ .openClass negated :: first) :=
    ⟨before, negated, first, rfl, fun closed => open_ (by simp [h, closed])⟩
  refine ⟨arise, fun t ht => ?_, fun first second same => ?_⟩
  · obtain ⟨first, second, same⟩ := List.append_of_mem ht
    have kind := unnested.inside (before ++ .openClass negated :: first) t (second ++ after)
      (by simp [values, same]) (inside same)
    refine kind.imp_right fun kind => kind.resolve_right ?_
    rintro rfl
    exact open_ ht
  · obtain ⟨⟨front, byte, ends, -⟩, -⟩ := unnested.dash (before ++ .openClass negated :: first)
      (second ++ after) (by simp [values, same])
    rcases List.eq_nil_or_concat first with rfl | ⟨first, t, rfl⟩
    · cases List.singleton_inj.1 (List.append_inj' ends rfl).2
    · rw [List.concat_eq_append, ← List.cons_append, ← List.append_assoc] at ends
      obtain rfl := List.singleton_inj.1 (List.append_inj' ends rfl).2
      exact ⟨first, byte, List.concat_eq_append⟩

theorem ne_nil_ofText (split : Token.ofText regex =
      before ++ ⟨opening, .openClass false⟩ :: (inner ++ ⟨closing, .closeClass⟩ :: after)) :
    inner ≠ [] := by
  rintro rfl
  have values : (Token.ofText regex).map (·.value) = before.map (·.value) ++
      .openClass false :: .closeClass :: after.map (·.value) := by
    simp [split]
  exact (Token.unnested_ofText regex).opened _ _ _ values rfl

end

/-- A class that comes to its end, with no fault before it, is read as one item: the set of what
belongs to it or, if it is negated, of the other bytes. If that is empty, it is a fault, at the
opening bracket. The border is never in it, and only a negated class can be empty. -/
theorem reads_class {regex : List UInt8} {before inner after : List (Located Token)}
    {opening closing : Nat} {negated : Bool}
    (split : Token.ofText regex =
      before ++ ⟨opening, .openClass negated⟩ :: (inner ++ ⟨closing, .closeClass⟩ :: after))
    (unclosed : ∀ t ∈ inner, t.value ≠ .closeClass)
    (faultless : (readFrom none 0 before).failure = none) :
    ∃ symbols : SymbolSet,
      (∀ code, symbols.contains code = true ↔
        if negated then code < 256 ∧ ¬Belongs (inner.map (·.value)) code
        else Belongs (inner.map (·.value)) code) ∧
      symbols.contains Symbol.border.val = false ∧
      (negated = false → symbols ≠ ∅) ∧
      read regex = (readFrom none 0 before).followedBy
        (if symbols = ∅ then ⟨[], some ⟨.emptyClass, opening⟩, closing⟩
        else (readFrom none closing after).cons closing (.set symbols)) := by
  have tidy := tidy_ofText split unclosed
  have some : negated = false → classSet negated (inner.map (·.value)) ≠ ∅ := by
    rintro rfl
    refine (inhabited_classSet tidy ?_).ne_empty
    rw [ne_eq, List.map_eq_nil_iff]
    exact ne_nil_ofText split
  have whole := readFrom_append faultless
    (⟨opening, .openClass negated⟩ :: (inner ++ ⟨closing, .closeClass⟩ :: after))
  rw [readFrom_class unclosed, ← split] at whole
  exact ⟨_, fun code => contains_classSet_iff negated tidy, bytes_classSet negated tidy, some, whole⟩

/-- A negated class, in which the end of one range begins the next, and a dash comes before a
shorthand. -/
theorem reads_class_chained :
    ∃ symbols : SymbolSet,
      (∀ code, symbols.contains code = true ↔ if true then code < 256 ∧
          ¬Belongs [.literal 0x2b, .rangeDash, .literal 0x61, .rangeDash, .literal 0x65, .rangeDash,
            .shorthand .digitBytes] code
        else Belongs [.literal 0x2b, .rangeDash, .literal 0x61, .rangeDash, .literal 0x65,
          .rangeDash, .shorthand .digitBytes] code) ∧
      symbols.contains Symbol.border.val = false ∧
      (true = false → symbols ≠ ∅) ∧
      read "z[^+-a-e-\\d]".toUTF8.toList =
        (readFrom none 0 [⟨0, .literal 0x7a⟩]).followedBy
          (if symbols = ∅ then ⟨[], some ⟨.emptyClass, 1⟩, 11⟩
          else (readFrom none 11 []).cons 11 (.set symbols)) := by
  have split : Token.ofText "z[^+-a-e-\\d]".toUTF8.toList =
      [⟨0, .literal 0x7a⟩] ++ ⟨1, .openClass true⟩ ::
        ([⟨3, .literal 0x2b⟩, ⟨4, .rangeDash⟩, ⟨5, .literal 0x61⟩, ⟨6, .rangeDash⟩,
          ⟨7, .literal 0x65⟩, ⟨8, .rangeDash⟩, ⟨9, .shorthand .digitBytes⟩] ++
          ⟨11, .closeClass⟩ :: []) := by
    decide +kernel
  exact reads_class split (by decide) rfl

end Item

end PatternGroups
