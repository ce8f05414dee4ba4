import Mathlib.Order.Bounds.Basic
import PatternGroups.Proofs.Classes

/-!
# Faults in regexes

A regex is refused for the first of four faults, in the order of the stages that find them: reading
its classes, taking its groups apart, and simplifying its tree. In all other cases it has a tree.

* `Item.failure_cases`: faults of classes, from the tokens;
* `Expr.readFrom_cases`: parentheses that close nothing, from the items;
* `Chain.refused_iff`: the faults for which regexes are refused.
-/

namespace PatternGroups

namespace Item

/-! ## Classes with faults -/

section
variable {tokens rest l : List (Located Token)} {t : Located Token} {o : Nat}

/-- A bracket at some offset opens a class, and something holds of it, as what follows shows. -/
def OpensClass (q : (negated : Bool) → (rest : List (Located Token)) → Prop)
    (tokens : List (Located Token)) (offset : Nat) : Prop :=
  ∃ before negated rest, tokens = before ++ ⟨offset, .openClass negated⟩ :: rest ∧ q negated rest

/-- A bracket opens a negated class that comes to its end and that all bytes belong to. -/
def Barred (tokens : List (Located Token)) (offset : Nat) : Prop :=
  OpensClass (fun negated rest => negated = true ∧ ∃ inner closing after,
    rest = inner ++ ⟨closing, .closeClass⟩ :: after ∧ (∀ t ∈ inner, t.value ≠ .closeClass) ∧
      ∀ code < 256, Belongs (inner.map (·.value)) code) tokens offset

/-- A bracket opens a class in which the tokens end. -/
def Unclosed (tokens : List (Located Token)) (offset : Nat) : Prop :=
  OpensClass (fun _ rest => ∀ t ∈ rest, t.value ≠ .closeClass) tokens offset

section
variable {q : Bool → List (Located Token) → Prop}

theorem not_opensClass_nil : ¬OpensClass q [] o := by
  rintro ⟨before, negated, rest, split, -⟩
  exact absurd split (by simp)

theorem OpensClass.mem (h : OpensClass q tokens o) : ∃ t ∈ tokens, t.offset = o := by
  obtain ⟨before, negated, rest, rfl, -⟩ := h
  exact ⟨⟨o, .openClass negated⟩, by simp, rfl⟩

theorem opensClass_cons_iff : OpensClass q (t :: rest) o ↔
    (∃ negated, t = ⟨o, .openClass negated⟩ ∧ q negated rest) ∨ OpensClass q rest o := by
  constructor
  · rintro ⟨before, negated, after, split, holds⟩
    cases before with
    | nil =>
      obtain ⟨rfl, rfl⟩ := List.cons.inj split
      exact .inl ⟨negated, rfl, holds⟩
    | cons b before =>
      obtain ⟨rfl, rfl⟩ := List.cons.inj split
      exact .inr ⟨before, negated, after, rfl, holds⟩
  · rintro (⟨negated, rfl, holds⟩ | ⟨before, negated, after, rfl, holds⟩)
    · exact ⟨[], negated, rest, rfl, holds⟩
    · exact ⟨t :: before, negated, after, rfl, holds⟩

theorem opensClass_bracket_iff {opening : Nat} {negated : Bool} :
    OpensClass q (⟨opening, .openClass negated⟩ :: rest) o ↔
      opening = o ∧ q negated rest ∨ OpensClass q rest o := by
  rw [opensClass_cons_iff]
  refine or_congr_left ⟨?_, ?_⟩
  · rintro ⟨_, ⟨⟩, holds⟩
    exact ⟨rfl, holds⟩
  · rintro ⟨rfl, holds⟩
    exact ⟨negated, rfl, holds⟩

/-- No class opens among the first tokens. -/
theorem opensClass_append_iff (h : ∀ t ∈ l, ∀ negated, t.value ≠ .openClass negated) :
    OpensClass q (l ++ rest) o ↔ OpensClass q rest o := by
  induction l with
  | nil => exact Iff.rfl
  | cons t l ih =>
    obtain ⟨first, others⟩ := List.forall_mem_cons.1 h
    rw [List.cons_append, opensClass_cons_iff, ih others, or_iff_right]
    rintro ⟨negated, rfl, -⟩
    exact first negated rfl

end

theorem not_barred_of_unclosed (h : ∀ t ∈ tokens, t.value ≠ .closeClass) : ¬Barred tokens o := by
  rintro ⟨before, negated, rest, rfl, -, inner, closing, after, rfl, -⟩
  exact h ⟨closing, .closeClass⟩ (by simp) rfl

section
variable {inner : List (Located Token)} {opening closing : Nat} {negated : Bool}

theorem Tidy.unopened (tidy : Tidy (inner.map (·.value))) :
    ∀ t ∈ inner, ∀ negated, t.value ≠ .openClass negated := by
  intro t ht negated opens
  have kind := tidy.members _ (List.mem_map_of_mem ht)
  rw [opens] at kind
  rcases kind with member | dash
  · exact member
  · cases dash

/-- A class inside of which no other one opens. -/
theorem Tidy.opensClass_iff (tidy : Tidy (inner.map (·.value)))
    {q : Bool → List (Located Token) → Prop} :
    OpensClass q (inner ++ ⟨closing, .closeClass⟩ :: rest) o ↔ OpensClass q rest o := by
  rw [List.append_cons]
  exact opensClass_append_iff
    (List.forall_mem_append.2 ⟨tidy.unopened, List.forall_mem_singleton.2 nofun⟩)

theorem barred_class_iff (tidy : Tidy (inner.map (·.value)))
    (unclosed : ∀ t ∈ inner, t.value ≠ .closeClass) :
    Barred (⟨opening, .openClass negated⟩ :: (inner ++ ⟨closing, .closeClass⟩ :: rest)) o ↔
      (opening = o ∧ negated = true ∧ ∀ code < 256, Belongs (inner.map (·.value)) code) ∨
        Barred rest o := by
  rw [Barred, opensClass_bracket_iff, tidy.opensClass_iff, ← Barred]
  refine or_congr_left (and_congr_right fun _ => and_congr_right fun _ => ⟨?_, ?_⟩)
  · -- Both splits are at the first closing bracket.
    rintro ⟨inner', closing', after, same, unclosed', all⟩
    have cut {l k : List (Located Token)} {place : Nat} (h : ∀ t ∈ l, t.value ≠ .closeClass) :
        (l ++ ⟨place, .closeClass⟩ :: k).takeWhile (·.value != .closeClass) = l := by
      rw [List.takeWhile_append_of_pos fun t ht => bne_iff_ne.2 (h t ht)]
      simp
    obtain rfl : inner = inner' := by
      have := congrArg (List.takeWhile (·.value != .closeClass)) same
      rwa [cut unclosed, cut unclosed'] at this
    exact all
  · exact fun all => ⟨inner, closing, rest, rfl, unclosed, all⟩

/-- An empty class comes before those in the tokens after it. -/
theorem isLeast_barred (tidy : Tidy (inner.map (·.value)))
    (unclosed : ∀ t ∈ inner, t.value ≠ .closeClass) (later : ∀ t ∈ rest, opening < t.offset)
    (all : negated = true ∧ ∀ code < 256, Belongs (inner.map (·.value)) code) :
    IsLeast {o | Barred
      (⟨opening, .openClass negated⟩ :: (inner ++ ⟨closing, .closeClass⟩ :: rest)) o} opening := by
  refine ⟨(barred_class_iff tidy unclosed).2 (.inl ⟨rfl, all⟩), fun o barred => ?_⟩
  rcases (barred_class_iff tidy unclosed).1 barred with ⟨rfl, -⟩ | barred
  · exact Nat.le_refl _
  · obtain ⟨t, ht, rfl⟩ := barred.mem
    exact Nat.le_of_lt (later t ht)

theorem unclosed_class_iff (tidy : Tidy (inner.map (·.value))) :
    Unclosed (⟨opening, .openClass negated⟩ :: (inner ++ ⟨closing, .closeClass⟩ :: rest)) o ↔
      Unclosed rest o := by
  rw [Unclosed, opensClass_bracket_iff, tidy.opensClass_iff, ← Unclosed, or_iff_right]
  rintro ⟨-, unclosed⟩
  exact unclosed ⟨closing, .closeClass⟩ (by simp) rfl

theorem unclosed_open_iff (tidy : Tidy (inner.map (·.value)))
    (unclosed : ∀ t ∈ inner, t.value ≠ .closeClass) :
    Unclosed (⟨opening, .openClass negated⟩ :: inner) o ↔ opening = o := by
  have none : ¬Unclosed inner o := by
    rw [← List.append_nil inner, Unclosed, opensClass_append_iff tidy.unopened]
    exact not_opensClass_nil
  rw [Unclosed, opensClass_bracket_iff, ← Unclosed, or_iff_left none]
  exact and_iff_left unclosed

end

/-! ## Tokens as items and classes -/

/-- Tokens that are items, and classes, one after the other; the last class may have no end. -/
inductive Segmented : List (Located Token) → Prop
  | nil : Segmented []
  | item {offset : Nat} {token : Token} {rest : List (Located Token)} {i : Item}
      (h : ofToken? token = some i) (others : Segmented rest) : Segmented (⟨offset, token⟩ :: rest)
  | closed {opening closing : Nat} {negated : Bool} {inner rest : List (Located Token)}
      (tidy : Tidy (inner.map (·.value))) (unclosed : ∀ t ∈ inner, t.value ≠ .closeClass)
      (some : negated = false → inner ≠ []) (others : Segmented rest) :
      Segmented (⟨opening, .openClass negated⟩ :: (inner ++ ⟨closing, .closeClass⟩ :: rest))
  | unclosed {opening : Nat} {negated : Bool} {inner : List (Located Token)}
      (tidy : Tidy (inner.map (·.value))) (unclosed : ∀ t ∈ inner, t.value ≠ .closeClass) :
      Segmented (⟨opening, .openClass negated⟩ :: inner)

theorem exists_end (tokens : List (Located Token)) :
    (∀ t ∈ tokens, t.value ≠ .closeClass) ∨ ∃ inner closing rest,
      tokens = inner ++ ⟨closing, .closeClass⟩ :: rest ∧ ∀ t ∈ inner, t.value ≠ .closeClass := by
  induction tokens with
  | nil => exact .inl nofun
  | cons t rest ih =>
    by_cases closes : t.value = .closeClass
    · obtain ⟨closing, _⟩ := t
      obtain rfl := closes
      exact .inr ⟨[], closing, rest, rfl, nofun⟩
    · rcases ih with unclosed | ⟨inner, closing, after, rfl, unclosed⟩
      · exact .inl (List.forall_mem_cons.2 ⟨closes, unclosed⟩)
      · exact .inr ⟨t :: inner, closing, after, rfl, List.forall_mem_cons.2 ⟨closes, unclosed⟩⟩

theorem not_inClass_closed {before : List (Located Token)} (h : t.value = .closeClass) :
    ¬Token.InClass ((before ++ [t]).map (·.value)) := by
  rw [List.map_append, List.map_singleton, Token.inClass_concat]
  rintro (⟨_, opens⟩ | ⟨-, other⟩)
  · rw [h] at opens
    cases opens
  · exact other h

theorem not_inClass_item {before : List (Located Token)} {i : Item} (h : ofToken? t.value = some i)
    (outside : ¬Token.InClass (before.map (·.value))) :
    ¬Token.InClass ((before ++ [t]).map (·.value)) := by
  rw [List.map_append, List.map_singleton, Token.inClass_concat]
  rintro (⟨negated, opens⟩ | ⟨inClass, -⟩)
  · rw [opens] at h
    cases h
  · exact outside inClass

/-- The tokens of a regex from any place on that is in no class. -/
theorem segmented_of_append {regex : List UInt8} {before tokens : List (Located Token)}
    (split : Token.ofText regex = before ++ tokens)
    (outside : ¬Token.InClass (before.map (·.value))) : Segmented tokens := by
  -- Each step takes an item or a whole class, so the induction is on the length of what is left.
  induction hn : tokens.length using Nat.strongRecOn generalizing before tokens with
  | _ n ih =>
    cases tokens with
    | nil => exact .nil
    | cons t rest =>
      obtain ⟨offset, token⟩ := t
      cases found : ofToken? token with
      | some i =>
        rw [List.append_cons] at split
        have outside' := not_inClass_item (t := ⟨offset, token⟩) found outside
        exact .item found (ih rest.length (by simp [← hn]) split outside' rfl)
      | none =>
        have misplaced (h : token = .rangeDash ∨ token = .closeClass) : False := by
          refine outside ((Token.unnested_ofText regex).outside _ token (rest.map (·.value)) ?_ h)
          rw [split, List.map_append, List.map_cons]
        cases token with
        | openClass negated =>
          rcases exists_end rest with unclosed | ⟨inner, closing, after, rfl, unclosed⟩
          · rw [← List.append_nil rest] at split
            exact .unclosed (tidy_ofText split unclosed) unclosed
          · have some : negated = false → inner ≠ [] := by
              rintro rfl
              exact ne_nil_ofText split
            have tidy := tidy_ofText split unclosed
            have shorter : after.length < n := by
              rw [← hn]
              simp
              omega
            have split' : Token.ofText regex = before ++ ⟨offset, .openClass negated⟩ :: inner ++
                [⟨closing, .closeClass⟩] ++ after := by
              rw [split]
              simp
            exact .closed tidy unclosed some
              (ih _ shorter split' (not_inClass_closed rfl) rfl)
        | rangeDash => exact (misplaced (.inl rfl)).elim
        | closeClass => exact (misplaced (.inr rfl)).elim
        | _ => cases found

theorem segmented_ofText (regex : List UInt8) : Segmented (Token.ofText regex) := by
  have split : Token.ofText regex = [] ++ Token.ofText regex := rfl
  exact segmented_of_append split Token.not_inClass_nil

/-- The faults of classes: one that is empty or, if there is none, one without its end. -/
theorem failure_cases (seg : Segmented tokens)
    (ascending : tokens.Pairwise fun t u => t.offset < u.offset) (last : Nat) :
    (∃ o, (readFrom none last tokens).failure = some ⟨.emptyClass, o⟩ ∧
        IsLeast {o | Barred tokens o} o) ∨
      (∀ o, ¬Barred tokens o) ∧
        ((∃ o, (readFrom none last tokens).failure = some ⟨.unterminatedClass, o⟩ ∧
            ∀ o', Unclosed tokens o' ↔ o = o') ∨
          (readFrom none last tokens).failure = none ∧ ∀ o, ¬Unclosed tokens o) := by
  induction seg generalizing last with
  | nil => exact .inr ⟨fun _ => not_opensClass_nil, .inr ⟨rfl, fun _ => not_opensClass_nil⟩⟩
  | @item offset token rest i found _ ih =>
    have alone : ∀ t ∈ [(⟨offset, token⟩ : Located Token)], ∀ negated,
        t.value ≠ .openClass negated := by
      rw [List.forall_mem_singleton]
      rintro negated rfl
      cases found
    have barred (o : Nat) : Barred (⟨offset, token⟩ :: rest) o ↔ Barred rest o :=
      opensClass_append_iff alone
    have unclosed (o : Nat) : Unclosed (⟨offset, token⟩ :: rest) o ↔ Unclosed rest o :=
      opensClass_append_iff alone
    rw [readFrom_token found]
    simp only [barred, unclosed]
    exact ih (List.pairwise_cons.1 ascending).2 offset
  | @closed opening closing negated inner rest tidy unclosed some _ ih =>
    obtain ⟨first, others⟩ := List.pairwise_cons.1 ascending
    have later := ih (List.pairwise_cons.1 (List.pairwise_append.1 others).2.1).2 closing
    have empty_iff := classSet_eq_empty_iff negated tidy fun h => by simpa using some h
    rw [readFrom_class unclosed]
    by_cases empty : classSet negated (inner.map (·.value)) = ∅
    · rw [if_pos empty]
      have before : ∀ t ∈ rest, opening < t.offset := fun t ht => first t (by simp [ht])
      exact .inl ⟨opening, rfl, isLeast_barred tidy unclosed before (empty_iff.1 empty)⟩
    · have barred (o : Nat) : Barred
          (⟨opening, .openClass negated⟩ :: (inner ++ ⟨closing, .closeClass⟩ :: rest)) o ↔
            Barred rest o := by
        rw [barred_class_iff tidy unclosed, or_iff_right fun h => empty (empty_iff.2 h.2)]
      rw [if_neg empty]
      simp only [barred, unclosed_class_iff tidy]
      exact later
  | @unclosed opening negated inner tidy unclosed =>
    refine .inr ⟨fun o => not_barred_of_unclosed ?_, .inl ⟨opening, ?_, ?_⟩⟩
    · exact List.forall_mem_cons.2 ⟨nofun, unclosed⟩
    · exact failure_unclosed unclosed last opening negated
    · exact fun o => unclosed_open_iff tidy unclosed

end

/-! ## Places of items -/

/-- Items have places of tokens, in their order. -/
theorem items_sublist (inside : Option OpenClass) (last : Nat) (tokens : List (Located Token)) :
    ((readFrom inside last tokens).items.map (·.offset)).Sublist (tokens.map (·.offset)) := by
  fun_induction readFrom inside last tokens with
  | case1 last => exact .slnil
  | case2 last c => exact .slnil
  | case3 _ offset negated rest ih => exact ih.cons offset
  | case4 _ offset t rest _ i found ih => exact ih.cons_cons offset
  | case5 _ offset t rest _ none ih => exact ih.cons offset
  | case6 _ c offset rest isEmpty => exact List.nil_sublist _
  | case7 _ c offset rest some ih => exact ih.cons_cons offset
  | case8 _ c offset t rest _ ih => exact ih.cons offset

theorem ascending_items {tokens : List (Located Token)}
    (h : tokens.Pairwise fun t u => t.offset < u.offset) (inside : Option OpenClass) (last : Nat) :
    (readFrom inside last tokens).items.Pairwise fun i j => i.offset < j.offset := by
  have places : (tokens.map (·.offset)).Pairwise (· < ·) := List.pairwise_map.2 h
  exact List.pairwise_map.1 (places.sublist (items_sublist inside last tokens))

theorem mem_of_closeGroup_mem {inside : Option OpenClass} {last o : Nat}
    {tokens : List (Located Token)}
    (h : ⟨o, .closeGroup⟩ ∈ (readFrom inside last tokens).items) : ⟨o, .closeGroup⟩ ∈ tokens := by
  fun_induction readFrom inside last tokens with
  | case1 last => cases h
  | case2 last c => cases h
  | case3 _ offset negated rest ih => exact List.mem_cons_of_mem _ (ih h)
  | case4 _ offset t rest _ i found ih =>
    rcases List.mem_cons.1 h with same | later
    · cases same
      cases t with
      | closeGroup => exact List.mem_cons_self
      | _ => cases found
    · exact List.mem_cons_of_mem _ (ih later)
  | case5 _ offset t rest _ none ih => exact List.mem_cons_of_mem _ (ih h)
  | case6 _ c offset rest isEmpty => cases h
  | case7 _ c offset rest some ih =>
    rcases List.mem_cons.1 h with same | later
    · cases same
    · exact List.mem_cons_of_mem _ (ih later)
  | case8 _ c offset t rest _ ih => exact List.mem_cons_of_mem _ (ih h)

/-! ## Parentheses that close nothing -/

/-- How many groups are open after an item. -/
def nest (depth : Nat) : Item → Nat
  | .openGroup => depth + 1
  | .closeGroup => depth - 1
  | _ => depth

/-- A closing parenthesis comes while no group is open. -/
def Stray (depth : Nat) (items : List (Located Item)) (offset : Nat) : Prop :=
  ∃ before after, items = before ++ ⟨offset, .closeGroup⟩ :: after ∧
    (before.map (·.value)).foldl nest depth = 0

variable {depth o : Nat} {i : Located Item} {rest items : List (Located Item)}

theorem not_stray_nil : ¬Stray depth [] o := by
  rintro ⟨before, after, split, -⟩
  exact absurd split (by simp)

theorem Stray.mem (h : Stray depth items o) : ⟨o, .closeGroup⟩ ∈ items := by
  obtain ⟨before, after, rfl, -⟩ := h
  simp

theorem stray_cons_iff : Stray depth (i :: rest) o ↔
    (i = ⟨o, .closeGroup⟩ ∧ depth = 0) ∨ Stray (nest depth i.value) rest o := by
  constructor
  · rintro ⟨before, after, split, none⟩
    cases before with
    | nil =>
      obtain ⟨rfl, -⟩ := List.cons.inj split
      exact .inl ⟨rfl, none⟩
    | cons b before =>
      obtain ⟨rfl, rfl⟩ := List.cons.inj split
      exact .inr ⟨before, after, rfl, none⟩
  · rintro (⟨rfl, none⟩ | ⟨before, after, rfl, none⟩)
    · exact ⟨[], rest, rfl, none⟩
    · exact ⟨i :: before, after, rfl, none⟩

end Item

/-- The frames around the innermost one are those of the groups that are open. -/
theorem Expr.readFrom_cases {items : List (Located Item)}
    (ascending : items.Pairwise fun i j => i.offset < j.offset) (inner : Frame)
    (outer : List Frame) :
    (∃ e, readFrom inner outer items = .ok e ∧ ∀ o, ¬Item.Stray outer.length items o) ∨
      ∃ o, readFrom inner outer items = .error ⟨.unbalancedParenthesis, o⟩ ∧
        IsLeast {o | Item.Stray outer.length items o} o := by
  induction items generalizing inner outer with
  | nil => exact .inl ⟨_, rfl, fun _ => Item.not_stray_nil⟩
  | cons located rest ih =>
    obtain ⟨offset, item⟩ := located
    obtain ⟨first, others⟩ := List.pairwise_cons.1 ascending
    -- Only a closing parenthesis with no frame around it is a stray one.
    have later (o : Nat) (h : item ≠ .closeGroup ∨ outer ≠ []) :
        Item.Stray outer.length (⟨offset, item⟩ :: rest) o ↔
          Item.Stray (Item.nest outer.length item) rest o := by
      rw [Item.stray_cons_iff, or_iff_right]
      rintro ⟨same, none⟩
      cases same
      exact h.elim (· rfl) (· (List.length_eq_zero_iff.1 none))
    cases item with
    | set symbols =>
      simp only [later _ (.inl nofun)]
      exact ih others _ outer
    | times b =>
      simp only [later _ (.inl nofun)]
      exact ih others _ outer
    | alternate =>
      simp only [later _ (.inl nofun)]
      exact ih others _ outer
    | openGroup =>
      simp only [later _ (.inl nofun)]
      exact ih others .empty (inner :: outer)
    | closeGroup =>
      cases outer with
      | nil =>
        refine .inr ⟨offset, rfl, Item.stray_cons_iff.2 (.inl ⟨rfl, rfl⟩), fun o stray => ?_⟩
        rcases Item.stray_cons_iff.1 stray with ⟨same, -⟩ | stray
        · cases same
          exact Nat.le_refl _
        · exact Nat.le_of_lt (first _ stray.mem)
      | cons frame outer =>
        simp only [later _ (.inr (List.cons_ne_nil _ _))]
        exact ih others _ outer

/-- A parenthesis that closes nothing is one in the regex. -/
theorem Item.Stray.byte {regex : List UInt8} {depth o : Nat}
    (h : Stray depth (read regex).items o) : regex[o]? = some 0x29 := by
  obtain ⟨text, written, begins⟩ := Token.exists_written (mem_of_closeGroup_mem h.mem)
  cases written
  obtain ⟨rest, split⟩ := begins
  rw [← List.head?_drop, ← split]
  rfl

/-! ## Regexes -/

/-- Items without a set have a tree without nodes. -/
theorem Expr.chain_eq_nil_iff_items {items : List (Located Item)} {e : Expr}
    (read : ofItems? items = .ok e) :
    e.chain = [] ↔ ∀ item ∈ items, ∀ s, item.value ≠ .set s := by
  have sets : e.sets = items.filterMap (·.value.symbols?) := sets_of_readFrom read
  rw [chain_eq_nil_iff, sets, List.filterMap_eq_nil_iff]
  refine forall₂_congr fun item _ => ?_
  cases item.value with
  | set symbols => exact iff_of_false nofun fun other => other symbols rfl
  | _ => exact iff_of_true rfl nofun

namespace Chain

/-- The fault for which a regex is refused: the first one in this order, and the first one of its
kind in the regex. -/
inductive Refused (regex : List UInt8) : SyntaxError → Prop
  | emptyClass {o : Nat} (first : IsLeast {o | Item.Barred (Token.ofText regex) o} o) :
      Refused regex ⟨.emptyClass, o⟩
  | unterminatedClass {o : Nat} (inhabited : ∀ o, ¬Item.Barred (Token.ofText regex) o)
      (h : Item.Unclosed (Token.ofText regex) o) : Refused regex ⟨.unterminatedClass, o⟩
  | unbalancedParenthesis {o : Nat} (inhabited : ∀ o, ¬Item.Barred (Token.ofText regex) o)
      (terminated : ∀ o, ¬Item.Unclosed (Token.ofText regex) o)
      (first : IsLeast {o | Item.Stray 0 (Item.read regex).items o} o) :
      Refused regex ⟨.unbalancedParenthesis, o⟩
  | emptyRegex (inhabited : ∀ o, ¬Item.Barred (Token.ofText regex) o)
      (terminated : ∀ o, ¬Item.Unclosed (Token.ofText regex) o)
      (balanced : ∀ o, ¬Item.Stray 0 (Item.read regex).items o)
      (none : ∀ item ∈ (Item.read regex).items, ∀ s, item.value ≠ .set s) :
      Refused regex ⟨.emptyRegex, 0⟩

section
variable {regex : List UInt8} {fault : SyntaxError} {o : Nat}

theorem Refused.eq_emptyClass (h : Refused regex fault)
    (first : IsLeast {o | Item.Barred (Token.ofText regex) o} o) : fault = ⟨.emptyClass, o⟩ := by
  cases h with
  | emptyClass first' => rw [first.unique first']
  | unterminatedClass inhabited _ => exact absurd first.1 (inhabited o)
  | unbalancedParenthesis inhabited _ _ => exact absurd first.1 (inhabited o)
  | emptyRegex inhabited _ _ _ => exact absurd first.1 (inhabited o)

theorem Refused.eq_unterminatedClass (h : Refused regex fault)
    (inhabited : ∀ o, ¬Item.Barred (Token.ofText regex) o)
    (only : ∀ o', Item.Unclosed (Token.ofText regex) o' ↔ o = o') :
    fault = ⟨.unterminatedClass, o⟩ := by
  have unclosed : Item.Unclosed (Token.ofText regex) o := (only o).2 rfl
  cases h with
  | emptyClass first => exact absurd first.1 (inhabited _)
  | unterminatedClass _ unclosed' => rw [(only _).1 unclosed']
  | unbalancedParenthesis _ terminated _ => exact absurd unclosed (terminated o)
  | emptyRegex _ terminated _ _ => exact absurd unclosed (terminated o)

theorem Refused.eq_unbalancedParenthesis (h : Refused regex fault)
    (inhabited : ∀ o, ¬Item.Barred (Token.ofText regex) o)
    (terminated : ∀ o, ¬Item.Unclosed (Token.ofText regex) o)
    (first : IsLeast {o | Item.Stray 0 (Item.read regex).items o} o) :
    fault = ⟨.unbalancedParenthesis, o⟩ := by
  cases h with
  | emptyClass first' => exact absurd first'.1 (inhabited _)
  | unterminatedClass _ unclosed => exact absurd unclosed (terminated _)
  | unbalancedParenthesis _ _ first' => rw [first.unique first']
  | emptyRegex _ _ balanced _ => exact absurd first.1 (balanced o)

theorem Refused.eq_emptyRegex (h : Refused regex fault)
    (inhabited : ∀ o, ¬Item.Barred (Token.ofText regex) o)
    (terminated : ∀ o, ¬Item.Unclosed (Token.ofText regex) o)
    (balanced : ∀ o, ¬Item.Stray 0 (Item.read regex).items o) :
    fault = ⟨.emptyRegex, 0⟩ ∧ ∀ item ∈ (Item.read regex).items, ∀ s, item.value ≠ .set s := by
  cases h with
  | emptyClass first => exact absurd first.1 (inhabited _)
  | unterminatedClass _ unclosed => exact absurd unclosed (terminated _)
  | unbalancedParenthesis _ _ first => exact absurd first.1 (balanced _)
  | emptyRegex _ _ _ none => exact ⟨rfl, none⟩

theorem ofText?_of_failure (h : (Item.read regex).failure = some fault) :
    ofText? regex = .error fault := by
  rw [ofText?, Item.ofText?, h]
  rfl

theorem ofText?_of_items (h : (Item.read regex).failure = none) :
    ofText? regex = (Expr.ofItems? (Item.read regex).items).bind fun e =>
      if e.chain.isEmpty then .error ⟨.emptyRegex, 0⟩ else .ok e.chain := by
  rw [ofText?, Item.ofText?, h]
  rfl

end

/-- Either there is one fault for which a regex is refused, or it has a tree. -/
theorem ofText?_outcome (regex : List UInt8) :
    (∃ fault, ofText? regex = .error fault ∧ ∀ other, Refused regex other ↔ other = fault) ∨
      ∃ chain, ofText? regex = .ok chain ∧ chain ≠ [] ∧ ∀ fault, ¬Refused regex fault := by
  have ascending := Token.pairwise_ofText regex
  rcases Item.failure_cases (Item.segmented_ofText regex) ascending 0 with
    ⟨o, failure, first⟩ | ⟨inhabited, ⟨o, failure, only⟩ | ⟨failure, terminated⟩⟩
  · refine .inl ⟨_, ofText?_of_failure failure, fun other => ⟨fun h => h.eq_emptyClass first, ?_⟩⟩
    rintro rfl
    exact .emptyClass first
  · refine .inl ⟨_, ofText?_of_failure failure,
      fun other => ⟨fun h => h.eq_unterminatedClass inhabited only, ?_⟩⟩
    rintro rfl
    exact .unterminatedClass inhabited ((only o).2 rfl)
  · rw [ofText?_of_items failure]
    rcases Expr.readFrom_cases (Item.ascending_items ascending none 0) .empty [] with
      ⟨e, read, balanced⟩ | ⟨o, read, first⟩
    · have items : Expr.ofItems? (Item.read regex).items = .ok e := read
      have nodes := Expr.chain_eq_nil_iff_items items
      rw [items]
      by_cases empty : e.chain = []
      · refine .inl ⟨⟨.emptyRegex, 0⟩, ?_, fun other =>
          ⟨fun h => (h.eq_emptyRegex inhabited terminated balanced).1, ?_⟩⟩
        · simp [Except.bind, empty]
        · rintro rfl
          exact .emptyRegex inhabited terminated balanced (nodes.1 empty)
      · refine .inr ⟨e.chain, ?_, empty, fun fault h => ?_⟩
        · simp [Except.bind, empty]
        · exact empty (nodes.2 (h.eq_emptyRegex inhabited terminated balanced).2)
    · have items : Expr.ofItems? (Item.read regex).items = .error ⟨.unbalancedParenthesis, o⟩ :=
        read
      rw [items]
      refine .inl ⟨_, rfl,
        fun other => ⟨fun h => h.eq_unbalancedParenthesis inhabited terminated first, ?_⟩⟩
      rintro rfl
      exact .unbalancedParenthesis inhabited terminated first

/-- A regex is refused for the first of these faults: a negated class that excludes all bytes, at
its bracket; a class without its end, at its bracket; a closing parenthesis that closes nothing, at
its byte; and no set at all, at the beginning. Without such a fault it has a tree. -/
theorem refused_iff (regex : List UInt8) :
    (∀ fault, ofText? regex = .error fault ↔ Refused regex fault) ∧
      ((∃ chain, ofText? regex = .ok chain ∧ chain ≠ []) ↔ ∀ fault, ¬Refused regex fault) ∧
      ∀ o, Item.Stray 0 (Item.read regex).items o → regex[o]? = some 0x29 := by
  refine ⟨fun fault => ?_, ?_, fun o => Item.Stray.byte⟩
  · rcases ofText?_outcome regex with ⟨other, read, only⟩ | ⟨chain, read, _, none⟩
    · rw [read, only, Except.error.injEq, eq_comm]
    · rw [read]
      exact iff_of_false nofun (none fault)
  · rcases ofText?_outcome regex with ⟨other, read, only⟩ | ⟨chain, read, some, none⟩
    · refine iff_of_false ?_ fun none => none other ((only other).2 rfl)
      rintro ⟨chain, read', -⟩
      cases read.symm.trans read'
    · exact iff_of_true ⟨chain, read, some⟩ none

/-- A class without its end and a parenthesis too many, but an empty class between them. -/
example : (match ofText? ")[^\\x00-\\xff][".toUTF8.toList with
    | .error fault => some fault
    | .ok _ => none) = some ⟨.emptyClass, 1⟩ := by
  decide +kernel

end Chain

end PatternGroups
