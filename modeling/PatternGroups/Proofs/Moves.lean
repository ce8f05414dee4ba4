import Mathlib.Data.List.Nodup
import PatternGroups.Edges

/-!
# What edges and marks say

An edge table is read as moves: a state leads to another on a symbol. A table of marks is read as
the rules that each state accepts. Each operation on tables is restated for these two views:

* `carries_join`, `carries_joinAll`, `carries_keep` for edges whose labels have some property;
* `mem_successors`, `leads_join`, `leads_joinAll`, `leads_keep` for moves;
* `mem_idsOf`, `mem_idsOf_mark`, `mem_idsOf_markAll`, `mem_idsOf_keep` for marks.
-/

namespace PatternGroups

namespace Ascending

/-- An ascending list is determined by its members. -/
theorem eq_of_mem_iff {l k : List Nat} (hl : l.Pairwise (· < ·)) (hk : k.Pairwise (· < ·))
    (h : ∀ n, n ∈ l ↔ n ∈ k) : l = k := by
  have nodup {l : List Nat} (hl : l.Pairwise (· < ·)) : l.Nodup :=
    hl.imp fun hlt => Nat.ne_of_lt hlt
  refine List.Perm.eq_of_pairwise (fun a b _ _ hab hba => ?_) hl hk
    ((List.perm_ext_iff_of_nodup (nodup hl) (nodup hk)).2 h)
  omega

theorem ofList_congr {l k : List Nat} (h : ∀ n, n ∈ l ↔ n ∈ k) : ofList l = ofList k := by
  refine eq_of_mem_iff (pairwise_ofList l) (pairwise_ofList k) fun n => ?_
  rw [mem_ofList, mem_ofList, h]

end Ascending

namespace SparseTable

section Keys
variable {α β ν : Type} [DecidableEq α] [DecidableEq β] {t : SparseTable α β ν}

theorem mem_rowKeys_iff {a : α} : a ∈ t.rowKeys ↔ ∃ b v, t.get? a b = some v := by
  rw [t.mem_rowKeys]
  constructor
  · rintro ⟨c, hc, rfl⟩
    exact ⟨c.column, c.value, get?_eq_some_iff.2 hc⟩
  · rintro ⟨b, v, h⟩
    exact ⟨_, get?_eq_some_iff.1 h, rfl⟩

theorem mem_columnKeys_iff {b : β} : b ∈ t.columnKeys ↔ ∃ a v, t.get? a b = some v := by
  rw [t.mem_columnKeys]
  constructor
  · rintro ⟨c, hc, rfl⟩
    exact ⟨c.row, c.value, get?_eq_some_iff.2 hc⟩
  · rintro ⟨a, v, h⟩
    exact ⟨_, get?_eq_some_iff.1 h, rfl⟩

theorem mem_entries {t : SparseTable α β ν} {c : Cell α β ν} :
    c ∈ t.entries ↔ t.get? c.row c.column = some c.value := by
  rw [get?_eq_some_iff, entries, List.mem_flatMap]
  simp only [List.mem_filter, decide_eq_true_eq]
  constructor
  · rintro ⟨_, _, hc, _⟩
    exact hc
  · intro hc
    exact ⟨c.row, t.mem_rowKeys.2 ⟨c, hc, rfl⟩, hc, rfl⟩

/-- A row is listed by its columns. -/
theorem mem_map_row {a : α} {b : β} : b ∈ (t.row a).map Prod.fst ↔ ∃ v, t.get? a b = some v := by
  rw [List.mem_map]
  constructor
  · rintro ⟨⟨_, v⟩, h, rfl⟩
    exact ⟨v, mem_row.1 h⟩
  · rintro ⟨v, h⟩
    exact ⟨(b, v), mem_row.2 h, rfl⟩

theorem mem_map_column {a : α} {b : β} :
    a ∈ (t.column b).map Prod.fst ↔ ∃ v, t.get? a b = some v := by
  rw [List.mem_map]
  constructor
  · rintro ⟨⟨_, v⟩, h, rfl⟩
    exact ⟨v, mem_column.1 h⟩
  · rintro ⟨v, h⟩
    exact ⟨(a, v), mem_column.2 h, rfl⟩

/-- No row occurs twice in a column. -/
theorem column_unique {a : α} {b : β} {v u : ν} (hv : (a, v) ∈ t.column b)
    (hu : (a, u) ∈ t.column b) : v = u :=
  Option.some.inj ((mem_column.1 hv).symm.trans (mem_column.1 hu))

end Keys

/-! ## Moves -/

/-- An edge leads from one state to another on a symbol. -/
def Leads (edges : Edges) (s : State) (code : Nat) (t : State) : Prop :=
  ∃ label, edges.get? s t = some label ∧ label.contains code = true

theorem mem_successors {edges : Edges} {code : Nat} {s t : State} :
    t ∈ edges.successors code s ↔ edges.Leads s code t := by
  simp only [successors, List.mem_filterMap, Option.ite_none_right_eq_some, Option.some.injEq]
  constructor
  · rintro ⟨⟨_, label⟩, h, hc, rfl⟩
    exact ⟨label, mem_row.1 h, hc⟩
  · rintro ⟨label, h, hc⟩
    exact ⟨(t, label), mem_row.2 h, hc, rfl⟩

theorem get?_join (edges : Edges) (a b s t : State) (label : SymbolSet) :
    (edges.join a b label).get? s t =
      if s = a ∧ t = b then some ((edges.get? a b).elim label (· ∪ label))
      else edges.get? s t :=
  edges.get?_insert a s b t _

/-- Edges are not changed by what is added elsewhere. -/
theorem get?_joinAll_of_absent {edges : Edges} {added : List (State × State × SymbolSet)}
    {s t : State} (h : ∀ e ∈ added, ¬(s = e.1 ∧ t = e.2.1)) :
    (edges.joinAll added).get? s t = edges.get? s t := by
  induction added generalizing edges with
  | nil => rfl
  | cons e rest ih =>
    have step : edges.joinAll (e :: rest) = (edges.join e.1 e.2.1 e.2.2).joinAll rest := rfl
    rw [step, ih fun f hf => h f (List.mem_cons_of_mem e hf), get?_join,
      if_neg (h e List.mem_cons_self)]

/-- A union of labels has a property exactly if one of the labels has it. -/
def Additive (p : SymbolSet → Prop) : Prop :=
  ∀ label other : SymbolSet, p (label ∪ other) ↔ p label ∨ p other

theorem additive_contains (code : Nat) : Additive fun label => label.contains code = true := by
  intro label other
  simp only [SymbolSet.contains_union, Bool.or_eq_true]

theorem additive_true : Additive fun _ => True := fun _ _ => (or_self_iff).symm

/-- An edge leads from one state to another, and its label has a property. -/
def Carries (edges : Edges) (p : SymbolSet → Prop) (s t : State) : Prop :=
  ∃ label, edges.get? s t = some label ∧ p label

section Carries
variable {edges : Edges} {p : SymbolSet → Prop} {s t : State}

theorem carries_join (hp : Additive p) {a b : State} {label : SymbolSet} :
    (edges.join a b label).Carries p s t ↔
      edges.Carries p s t ∨ (s = a ∧ t = b ∧ p label) := by
  unfold Carries
  rw [get?_join]
  by_cases h : s = a ∧ t = b
  · obtain ⟨rfl, rfl⟩ := h
    cases edges.get? s t with
    | none => simp
    | some old => simp [hp old label]
  · rw [if_neg h]
    constructor
    · exact .inl
    · rintro (he | ⟨hs, ht, _⟩)
      · exact he
      · exact absurd ⟨hs, ht⟩ h

theorem carries_joinAll (hp : Additive p) {added : List (State × State × SymbolSet)} :
    (edges.joinAll added).Carries p s t ↔
      edges.Carries p s t ∨ ∃ label, (s, t, label) ∈ added ∧ p label := by
  induction added generalizing edges with
  | nil => simp [joinAll]
  | cons e rest ih =>
    have step : edges.joinAll (e :: rest) = (edges.join e.1 e.2.1 e.2.2).joinAll rest := rfl
    rw [step, ih, carries_join hp, or_assoc]
    apply or_congr_right
    constructor
    · rintro (⟨rfl, rfl, hl⟩ | ⟨label, he, hl⟩)
      · exact ⟨e.2.2, List.mem_cons_self, hl⟩
      · exact ⟨label, List.mem_cons_of_mem e he, hl⟩
    · rintro ⟨label, he, hl⟩
      rcases List.mem_cons.1 he with rfl | he
      · exact .inl ⟨rfl, rfl, hl⟩
      · exact .inr ⟨label, he, hl⟩

theorem carries_keep {kept : State → State → Bool} :
    (edges.keep kept).Carries p s t ↔ kept s t = true ∧ edges.Carries p s t := by
  unfold Carries
  rw [get?_keep]
  split
  · rename_i h
    simp [h]
  · rename_i h
    simp [h]

end Carries

theorem leads_join {edges : Edges} {a b s t : State} {label : SymbolSet} {code : Nat} :
    (edges.join a b label).Leads s code t ↔
      edges.Leads s code t ∨ (s = a ∧ t = b ∧ label.contains code = true) :=
  carries_join (additive_contains code)

theorem leads_joinAll {edges : Edges} {added : List (State × State × SymbolSet)} {s t : State}
    {code : Nat} :
    (edges.joinAll added).Leads s code t ↔
      edges.Leads s code t ∨ ∃ label, (s, t, label) ∈ added ∧ label.contains code = true :=
  carries_joinAll (additive_contains code)

theorem leads_keep {edges : Edges} {p : State → State → Bool} {s t : State} {code : Nat} :
    (edges.keep p).Leads s code t ↔ p s t = true ∧ edges.Leads s code t :=
  carries_keep

/-! ## Marks -/

theorem mem_idsOf {marks : Marks} {s : State} {id : RuleId} :
    id ∈ marks.idsOf s ↔ marks.get? s id = some () := by
  unfold idsOf
  rw [mem_map_row]
  exact ⟨fun ⟨_, h⟩ => h, fun h => ⟨(), h⟩⟩

theorem mem_idsOf_mark {marks : Marks} {a s : State} {i id : RuleId} :
    id ∈ (marks.mark a i).idsOf s ↔ id ∈ marks.idsOf s ∨ (s = a ∧ id = i) := by
  rw [mem_idsOf, mem_idsOf, mark, get?_insert]
  split
  · rename_i h
    simp [h]
  · rename_i h
    simp [h]

/-- Marks set one after the other. -/
theorem mem_idsOf_foldl {marks : Marks} {added : List (State × RuleId)} {s : State}
    {id : RuleId} :
    id ∈ (added.foldl (fun marks e => marks.mark e.1 e.2) marks).idsOf s ↔
      id ∈ marks.idsOf s ∨ (s, id) ∈ added := by
  induction added generalizing marks with
  | nil => simp
  | cons e rest ih =>
    rw [List.foldl_cons, ih, mem_idsOf_mark, or_assoc, List.mem_cons, Prod.ext_iff]

theorem mem_idsOf_markAll {marks : Marks} {a s : State} {ids : List RuleId} {id : RuleId} :
    id ∈ (ids.foldl (fun marks i => marks.mark a i) marks).idsOf s ↔
      id ∈ marks.idsOf s ∨ (s = a ∧ id ∈ ids) := by
  induction ids generalizing marks with
  | nil => simp
  | cons i rest ih =>
    rw [List.foldl_cons, ih, mem_idsOf_mark, or_assoc, List.mem_cons, and_or_left]

theorem mem_idsOf_keep {marks : Marks} {p : State → RuleId → Bool} {s : State} {id : RuleId} :
    id ∈ (marks.keep p).idsOf s ↔ p s id = true ∧ id ∈ marks.idsOf s := by
  rw [mem_idsOf, mem_idsOf, get?_keep]
  split
  · rename_i h
    simp [h]
  · rename_i h
    simp [h]

end SparseTable

end PatternGroups
