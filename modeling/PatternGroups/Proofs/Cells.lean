import Mathlib.Data.List.Induction
import PatternGroups.Proofs.Moves

/-!
# Tables of given cells

A table keeps cells in the order in which it came to hold them, and lists them row by row. Inserted
again in the order in which they are listed, the cells make a table that lists them as it holds
them.

* `RowByRow`: cells in an order in which some table lists them;
* `entries_perm`, `pairwise_entries`: the cells that a table lists are those that it holds;
* `ofCells_holds`, `entries_ofCells`: a table of cells holds them in their order, and lists them in
  this order if they come row by row;
* `get?_named`, `named_named`: a table under other names, and under the same names again.
-/

namespace PatternGroups.SparseTable

variable {α β ν : Type} {t : SparseTable α β ν} {cells : List (Cell α β ν)}

/-- Cells at different places. -/
def Apart (c d : Cell α β ν) : Prop := ¬(c.row = d.row ∧ c.column = d.column)

theorem nodup_of_pairwise (h : cells.Pairwise Apart) : cells.Nodup :=
  h.imp fun apart same => apart ⟨congrArg Cell.row same, congrArg Cell.column same⟩

/-- No two have one name. -/
def Unambiguous {κ γ : Type} (name : κ → Option γ) : Prop :=
  ∀ {k l : κ} {c : γ}, name k = some c → name l = some c → k = l

/-- A cell under another name for its row and its column, if both have one. -/
def Cell.rename? {γ δ : Type} (f : α → Option γ) (g : β → Option δ) (e : Cell α β ν) :
    Option (Cell γ δ ν) := do
  return ⟨← f e.row, ← g e.column, e.value⟩

theorem Cell.rename?_eq_some_iff {γ δ : Type} {f : α → Option γ} {g : β → Option δ}
    {e : Cell α β ν} {c : Cell γ δ ν} :
    e.rename? f g = some c ↔ f e.row = some c.row ∧ g e.column = some c.column ∧
      e.value = c.value := by
  simp only [rename?, bind, pure, Option.bind_eq_some_iff, Option.some.injEq]
  constructor
  · rintro ⟨i, hi, j, hj, rfl⟩
    exact ⟨hi, hj, rfl⟩
  · rintro ⟨hi, hj, hv⟩
    exact ⟨c.row, hi, c.column, hj, hv ▸ rfl⟩

/-! ## Cells row by row -/

/-- Cells of one row after the other. -/
inductive RowByRow : List (Cell α β ν) → Prop where
  | nil : RowByRow []
  | row {a : α} {first rest : List (Cell α β ν)} (same : ∀ c ∈ first, c.row = a)
      (others : ∀ c ∈ rest, c.row ≠ a) (later : RowByRow rest) : RowByRow (first ++ rest)

/-- Rows stay together under other names. -/
theorem RowByRow.filterMap {γ δ μ : Type} {f : Cell α β ν → Option (Cell γ δ μ)}
    {g : α → Option γ} (inj : Unambiguous g)
    (named : ∀ {c d}, f c = some d → g c.row = some d.row) (h : RowByRow cells) :
    RowByRow (cells.filterMap f) := by
  induction h with
  | nil => exact .nil
  | @row a first rest same others _ ih =>
    rw [List.filterMap_append]
    cases name : g a with
    | none =>
      have empty : first.filterMap f = [] := by
        refine List.filterMap_eq_nil_iff.2 fun c hc => ?_
        refine Option.eq_none_iff_forall_ne_some.2 fun d hd => ?_
        rw [← same c hc, named hd] at name
        cases name
      rw [empty]
      exact ih
    | some i =>
      refine .row (a := i) (fun d hd => ?_) (fun d hd row => ?_) ih
      · obtain ⟨c, hc, hd⟩ := List.mem_filterMap.1 hd
        have renamed := named hd
        rw [same c hc, name] at renamed
        exact (Option.some.inj renamed).symm
      · obtain ⟨c, hc, hd⟩ := List.mem_filterMap.1 hd
        exact others c hc (inj (row ▸ named hd) name)

variable [DecidableEq α]

theorem rowByRow_entries (t : SparseTable α β ν) : RowByRow t.entries := by
  have listed (keys : List α) (nodup : keys.Nodup) :
      RowByRow (keys.flatMap fun a => t.cells.filter (·.row = a)) := by
    induction keys with
    | nil => exact .nil
    | cons a keys ih =>
      rw [List.nodup_cons] at nodup
      refine .row (a := a) (fun c hc => ?_) (fun c hc same => ?_) (ih nodup.2)
      · exact of_decide_eq_true (List.mem_filter.1 hc).2
      · obtain ⟨b, hb, hc⟩ := List.mem_flatMap.1 hc
        have row : c.row = b := of_decide_eq_true (List.mem_filter.1 hc).2
        exact nodup.1 ((row.symm.trans same) ▸ hb)
  exact listed t.rowKeys t.rowKeys_nodup

section Blocks
variable {a : α} {first rest : List (Cell α β ν)} (same : ∀ c ∈ first, c.row = a)
include same

theorem filter_append_same (others : ∀ c ∈ rest, c.row ≠ a) :
    (first ++ rest).filter (·.row = a) = first := by
  have all : first.filter (·.row = a) = first :=
    List.filter_eq_self.2 fun c hc => decide_eq_true (same c hc)
  have none : rest.filter (·.row = a) = [] :=
    List.filter_eq_nil_iff.2 fun c hc => by simpa using others c hc
  rw [List.filter_append, all, none, List.append_nil]

theorem filter_append_other {b : α} (hb : b ≠ a) :
    (first ++ rest).filter (·.row = b) = rest.filter (·.row = b) := by
  have none : first.filter (·.row = b) = [] :=
    List.filter_eq_nil_iff.2 fun c hc => by simpa [same c hc] using hb.symm
  rw [List.filter_append, none, List.nil_append]

/-- The first row comes first, and no second time. -/
theorem eraseDups_append_same (others : ∀ c ∈ rest, c.row ≠ a) (some : first ≠ []) :
    ((first ++ rest).map Cell.row).eraseDups = a :: (rest.map Cell.row).eraseDups := by
  have one : (first.map Cell.row).eraseDups = [a] := by
    cases first with
    | nil => exact absurd rfl some
    | cons c first =>
      obtain ⟨rfl, same⟩ := List.forall_mem_cons.1 same
      have none : (first.map Cell.row).filter (fun b => !b == c.row) = [] := by
        refine List.filter_eq_nil_iff.2 fun b hb => ?_
        obtain ⟨d, hd, rfl⟩ := List.mem_map.1 hb
        simpa using same d hd
      rw [List.map_cons, List.eraseDups_cons, none]
      rfl
  have all : (rest.map Cell.row).removeAll (first.map Cell.row) = rest.map Cell.row := by
    refine List.filter_eq_self.2 fun b hb => ?_
    obtain ⟨d, hd, rfl⟩ := List.mem_map.1 hb
    have away : d.row ∉ first.map Cell.row := by
      intro listed
      obtain ⟨c, hc, row⟩ := List.mem_map.1 listed
      exact others d hd (row.symm.trans (same c hc))
    simpa using away
  rw [List.map_append, List.eraseDups_append, one, all, List.singleton_append]

end Blocks

/-- Cells row by row are listed in their order. -/
theorem RowByRow.flatMap_filter (h : RowByRow cells) :
    ((cells.map Cell.row).eraseDups.flatMap fun a => cells.filter (·.row = a)) = cells := by
  induction h with
  | nil => rfl
  | @row a first rest same others _ ih =>
    by_cases empty : first = []
    · rw [empty, List.nil_append, ih]
    · have later : ∀ b ∈ (rest.map Cell.row).eraseDups,
          (first ++ rest).filter (·.row = b) = rest.filter (·.row = b) := by
        intro b hb
        obtain ⟨c, hc, rfl⟩ := List.mem_map.1 (List.mem_eraseDups.1 hb)
        exact filter_append_other same (others c hc)
      rw [eraseDups_append_same same others empty, List.flatMap_cons,
        filter_append_same same others, List.flatMap_congr later, ih]

/-! ## What a table lists -/

theorem pairwise_entries (t : SparseTable α β ν) : t.entries.Pairwise Apart := by
  refine List.pairwise_flatMap.2 ⟨fun a _ => t.distinct.filter _, ?_⟩
  refine t.rowKeys_nodup.imp fun differ c hc d hd same => differ ?_
  simp only [List.mem_filter, decide_eq_true_eq] at hc hd
  exact hc.2.symm.trans (same.1.trans hd.2)

variable [DecidableEq β]

theorem entries_perm (t : SparseTable α β ν) : t.entries.Perm t.cells := by
  refine (List.perm_ext_iff_of_nodup (nodup_of_pairwise t.pairwise_entries)
    (nodup_of_pairwise t.distinct)).2 fun c => ?_
  rw [mem_entries, get?_eq_some_iff]

/-! ## Insertion of cells -/

theorem ofCells_concat (cells : List (Cell α β ν)) (c : Cell α β ν) :
    ofCells (cells ++ [c]) = (ofCells cells).insert c.row c.column c.value := by
  rw [ofCells, List.foldl_append]
  rfl

theorem insert_eq_append {a : α} {b : β} {v : ν} (h : t.get? a b = none) :
    t.insert a b v = t.append a b v h := dif_pos h

theorem eraseDups_concat {κ : Type} [DecidableEq κ] (keys : List κ) (k : κ) :
    (keys ++ [k]).eraseDups = addKey keys.eraseDups k := by
  unfold addKey
  rw [List.eraseDups_append]
  by_cases old : k ∈ keys
  · rw [if_pos (List.mem_eraseDups.2 old)]
    simp [List.removeAll, old]
  · rw [if_neg fun h => old (List.mem_eraseDups.1 h)]
    simp [List.removeAll, old, List.eraseDups_cons]

/-- Each cell comes last, as it is apart from those before it. -/
theorem ofCells_holds (h : cells.Pairwise Apart) :
    (ofCells cells).cells = cells ∧
      (ofCells cells).rowKeys = (cells.map Cell.row).eraseDups := by
  induction cells using List.reverseRecOn with
  | nil => exact ⟨rfl, rfl⟩
  | append_singleton cells c ih =>
    obtain ⟨first, _, apart⟩ := List.pairwise_append.1 h
    obtain ⟨held, keys⟩ := ih first
    have absent : (ofCells cells).get? c.row c.column = none :=
      get?_eq_none_iff.2 fun d hd => apart d (held ▸ hd) c (List.mem_singleton_self c)
    rw [ofCells_concat, insert_eq_append absent, List.map_append, List.map_singleton,
      eraseDups_concat, ← keys]
    exact ⟨congrArg (· ++ [c]) held, rfl⟩

theorem entries_ofCells (apart : cells.Pairwise Apart) (h : RowByRow cells) :
    (ofCells cells).entries = cells := by
  rw [entries, (ofCells_holds apart).1, (ofCells_holds apart).2, h.flatMap_filter]

/-! ## Other names -/

section Names
variable {γ δ : Type} {f : α → Option γ} {g : β → Option δ}

/-- The cells of a table under other names, without those whose row or column has none. -/
def named (t : SparseTable α β ν) (f : α → Option γ) (g : β → Option δ) : List (Cell γ δ ν) :=
  t.entries.filterMap (Cell.rename? f g)

theorem mem_named {c : Cell γ δ ν} : c ∈ t.named f g ↔
    ∃ a b, f a = some c.row ∧ g b = some c.column ∧ t.get? a b = some c.value := by
  simp only [named, List.mem_filterMap, Cell.rename?_eq_some_iff, mem_entries]
  constructor
  · rintro ⟨e, he, hi, hj, hv⟩
    exact ⟨e.row, e.column, hi, hj, hv ▸ he⟩
  · rintro ⟨a, b, hi, hj, he⟩
    exact ⟨⟨a, b, c.value⟩, he, hi, hj, rfl⟩

omit [DecidableEq β] in
theorem pairwise_named (hf : Unambiguous f) (hg : Unambiguous g) :
    (t.named f g).Pairwise Apart := by
  refine List.pairwise_filterMap.2 (t.pairwise_entries.imp ?_)
  intro e e' apart c hc c' hc' same
  obtain ⟨hi, hj, _⟩ := Cell.rename?_eq_some_iff.1 hc
  obtain ⟨hi', hj', _⟩ := Cell.rename?_eq_some_iff.1 hc'
  exact apart ⟨hf (same.1 ▸ hi) hi', hg (same.2 ▸ hj) hj'⟩

omit [DecidableEq β] in
theorem rowByRow_named (hf : Unambiguous f) : RowByRow (t.named f g) :=
  t.rowByRow_entries.filterMap hf fun hc => (Cell.rename?_eq_some_iff.1 hc).1

/-- A table under names that all of its rows and columns have is as large. -/
theorem length_named (h : ∀ a b v, t.get? a b = some v → (f a).isSome ∧ (g b).isSome) :
    (t.named f g).length = t.size := by
  have all : (t.named f g).length = t.entries.length := by
    refine List.filterMap_length_eq_length.2 fun e he => ?_
    obtain ⟨hi, hj⟩ := h e.row e.column e.value (mem_entries.1 he)
    obtain ⟨i, hi⟩ := Option.isSome_iff_exists.1 hi
    obtain ⟨j, hj⟩ := Option.isSome_iff_exists.1 hj
    exact Option.isSome_iff_exists.2 ⟨⟨i, j, e.value⟩, Cell.rename?_eq_some_iff.2 ⟨hi, hj, rfl⟩⟩
  rw [all, t.entries_perm.length_eq, size]

variable [DecidableEq γ] [DecidableEq δ]

theorem get?_named (hf : Unambiguous f) (hg : Unambiguous g) {i : γ} {j : δ} {v : ν} :
    (ofCells (t.named f g)).get? i j = some v ↔
      ∃ a b, f a = some i ∧ g b = some j ∧ t.get? a b = some v := by
  rw [get?_eq_some_iff, (ofCells_holds (pairwise_named hf hg)).1, mem_named]

theorem size_named (hf : Unambiguous f) (hg : Unambiguous g)
    (h : ∀ a b v, t.get? a b = some v → (f a).isSome ∧ (g b).isSome) :
    (ofCells (t.named f g)).size = t.size := by
  rw [size, (ofCells_holds (pairwise_named hf hg)).1, length_named h]

omit [DecidableEq β] in
/-- Names that are kept change nothing, not even the order. -/
theorem named_named (hf : Unambiguous f) (hg : Unambiguous g) {f' : γ → Option γ}
    {g' : δ → Option δ}
    (kept : ∀ c ∈ t.named f g, f' c.row = some c.row ∧ g' c.column = some c.column) :
    (ofCells (t.named f g)).named f' g' = t.named f g := by
  have same : (t.named f g).filterMap (Cell.rename? f' g') = (t.named f g).filterMap some := by
    refine List.filterMap_congr fun c hc => ?_
    obtain ⟨hi, hj⟩ := kept c hc
    exact Cell.rename?_eq_some_iff.2 ⟨hi, hj, rfl⟩
  rw [named, entries_ofCells (pairwise_named hf hg) (rowByRow_named hf), same,
    List.filterMap_some]

end Names

end PatternGroups.SparseTable
