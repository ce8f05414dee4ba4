import PatternGroups.Proofs.Languages
import PatternGroups.Regex.Item

/-!
# The grammar of regexes

A choice is branches separated by bars; a branch is parts in a row, and a repetition at its
beginning repeats nothing; a part is a set or a choice in parentheses, followed by repetitions, the
innermost first. Each phrase is derived together with the language that it denotes.

* `Opened`: items up to some point inside of open parentheses, a choice behind each of them;
* `Opened.exists_choice`: once they are closed, all items are one choice.
-/

namespace PatternGroups

mutual

/-- Branches separated by bars. -/
inductive Choice : List Item → Language Nat → Prop
  | branch {items : List Item} {L : Language Nat} : Branch items L → Choice items L
  | alternate {items more : List Item} {L K : Language Nat} :
      Choice items L → Branch more K → Choice (items ++ .alternate :: more) (L + K)

/-- Repetitions without a part before them, and parts in a row. -/
inductive Branch : List Item → Language Nat → Prop
  | strays (bounds : List Bounds) : Branch (bounds.map .times) 1
  | part {items more : List Item} {L K : Language Nat} :
      Branch items L → Part more K → Branch (items ++ more) (L * K)

/-- A set or a choice in parentheses, and its repetitions. -/
inductive Part : List Item → Language Nat → Prop
  | set (symbols : SymbolSet) : Part [.set symbols] symbols.words
  | group {items : List Item} {L : Language Nat} :
      Choice items L → Part (.openGroup :: (items ++ [.closeGroup])) L
  | times {items : List Item} {L : Language Nat} (bounds : Bounds) :
      Part items L → Part (items ++ [.times bounds]) (bounds.copies L)

end

/-- What items denote: parentheses left open are closed at the end. -/
def Denotes (items : List Item) (L : Language Nat) : Prop :=
  ∃ missing, Choice (items ++ List.replicate missing .closeGroup) L

variable {items more : List Item} {L K : Language Nat}

/-! ## One item more -/

theorem Choice.empty : Choice [] 1 := .branch (.strays [])

theorem Branch.times (h : Branch items L) (b : Bounds) :
    ∃ M, Branch (items ++ [.times b]) M := by
  cases h with
  | strays bounds =>
    refine ⟨1, ?_⟩
    have longer := Branch.strays (bounds ++ [b])
    rwa [List.map_append] at longer
  | part h part =>
    rw [List.append_assoc]
    exact ⟨_, .part h (.times b part)⟩

theorem Choice.times (h : Choice items L) (b : Bounds) :
    ∃ M, Choice (items ++ [.times b]) M := by
  cases h with
  | branch h =>
    obtain ⟨M, h⟩ := h.times b
    exact ⟨M, .branch h⟩
  | alternate h branch =>
    obtain ⟨M, branch⟩ := branch.times b
    rw [List.append_assoc]
    exact ⟨_, .alternate h branch⟩

theorem Choice.part (h : Choice items L) (part : Part more K) :
    ∃ M, Choice (items ++ more) M := by
  cases h with
  | branch h => exact ⟨_, .branch (.part h part)⟩
  | alternate h branch =>
    rw [List.append_assoc]
    exact ⟨_, .alternate h (.part branch part)⟩

/-! ## Open parentheses -/

/-- Items with a number of parentheses open at their end. -/
inductive Opened : Nat → List Item → Prop
  | whole {items : List Item} {L : Language Nat} : Choice items L → Opened 0 items
  | inside {depth : Nat} {before items : List Item} {L : Language Nat} :
      Opened depth before → Choice items L → Opened (depth + 1) (before ++ .openGroup :: items)

namespace Opened

variable {depth : Nat}

/-- What continues a choice continues the innermost one. -/
theorem extend (h : Opened depth items)
    (grow : ∀ {k L}, Choice k L → ∃ M, Choice (k ++ more) M) : Opened depth (items ++ more) := by
  cases h with
  | whole choice =>
    obtain ⟨M, grown⟩ := grow choice
    exact .whole grown
  | inside h choice =>
    obtain ⟨M, grown⟩ := grow choice
    rw [List.append_assoc]
    exact .inside h grown

theorem set (h : Opened depth items) (symbols : SymbolSet) :
    Opened depth (items ++ [.set symbols]) :=
  h.extend fun choice => choice.part (.set symbols)

theorem times (h : Opened depth items) (b : Bounds) : Opened depth (items ++ [.times b]) :=
  h.extend fun choice => choice.times b

theorem alternate (h : Opened depth items) : Opened depth (items ++ [.alternate]) :=
  h.extend fun choice => ⟨_, .alternate choice (.strays [])⟩

theorem openGroup (h : Opened depth items) : Opened (depth + 1) (items ++ [.openGroup]) :=
  .inside h .empty

theorem closeGroup (h : Opened (depth + 1) items) : Opened depth (items ++ [.closeGroup]) := by
  cases h with
  | inside h choice =>
    rw [List.append_assoc]
    exact h.extend fun outer => outer.part (.group choice)

theorem exists_choice (h : Opened depth items) :
    ∃ L, Choice (items ++ List.replicate depth .closeGroup) L := by
  induction depth generalizing items with
  | zero =>
    cases h with
    | whole choice =>
      rw [List.replicate_zero, List.append_nil]
      exact ⟨_, choice⟩
  | succ depth ih =>
    have closed := ih h.closeGroup
    rwa [List.append_assoc] at closed

end Opened

end PatternGroups
