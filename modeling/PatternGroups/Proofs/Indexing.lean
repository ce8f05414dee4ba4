import PatternGroups.Proofs.Rows

/-!
# The indexes of a sparse table

A sparse table has each cell once, and finds rows and columns among them. With two indexes it is the
same table: whatever is done to the indexes, they stay those of a sparse table to which the same is
done, in the same order throughout.

* `rowIndex_insert`, `rowIndex_erase`, `rowIndex_eraseRow`, `rowIndex_eraseColumn`: one index;
* `index_insert`, `index_remove`, `index_pop`, `index_removeRow`, `index_removeColumn`: both.
-/

namespace PatternGroups

variable {α β ν : Type} [DecidableEq α] [DecidableEq β] {a : α} {b : β} {v : ν}

namespace IndexedTable

/-- The table with rows and columns exchanged. -/
def swap (t : IndexedTable α β ν) : IndexedTable β α ν := ⟨t.columns, t.rows⟩

theorem removeColumn_eq (t : IndexedTable α β ν) :
    t.removeColumn b = (t.swap.removeRow b).swap := by
  unfold removeColumn removeRow swap
  cases t.columns.get? b with
  | none => rfl
  | some items => rfl

end IndexedTable

namespace SparseTable

open IndexedTable (Index removeColumn_eq)

variable {t : SparseTable α β ν}

/-! ## One index -/

omit [DecidableEq β] in
theorem get?_rowIndex :
    t.rowIndex.get? a = if a ∈ t.rowKeys then some (t.rowMap a) else none :=
  OrderedMap.get?_tabulate

theorem item?_rowIndex : t.rowIndex.item? a b = t.get? a b := by
  rw [Index.item?, get?_rowIndex]
  split
  · exact get?_rowMap
  · rename_i absent
    rw [← get?_rowMap, rowMap_eq_empty absent]
    rfl

theorem rowIndex_insert : (t.insert a b v).rowIndex = t.rowIndex.put a b v := by
  have items : (t.rowIndex.get? a).getD .empty = t.rowMap a := by
    rw [get?_rowIndex]
    split
    · rfl
    · rename_i absent
      exact (rowMap_eq_empty absent).symm
  have same : ∀ c, (t.insert a b v).rowMap c =
      if c = a then (t.rowMap a).insert b v else t.rowMap c := by
    intro c
    rw [rowMap_insert]
    split
    · rename_i here
      rw [here]
    · rfl
  rw [Index.put, items]
  by_cases present : a ∈ t.rowKeys
  · have keys : (t.insert a b v).rowKeys = t.rowKeys := by
      rw [rowKeys_insert, addKey, if_pos present]
    rw [rowIndex, rowIndex, OrderedMap.insert_tabulate present]
    exact OrderedMap.tabulate_congr keys fun c _ => same c
  · have keys : (t.insert a b v).rowKeys = t.rowKeys ++ [a] := by
      rw [rowKeys_insert, addKey, if_neg present]
    have nodup : (t.rowKeys ++ [a]).Nodup := keys ▸ (t.insert a b v).rowKeys_nodup
    rw [rowIndex, rowIndex, OrderedMap.insert_tabulate_new present nodup]
    exact OrderedMap.tabulate_congr keys fun c _ => same c

section OneRow
variable {p : α → β → Bool} (others : ∀ c, c ≠ a → (t.keep p).rowMap c = t.rowMap c)
include others

/-- Only one row changes, and nothing is left of it. -/
theorem rowIndex_keep_of_isEmpty (gone : ((t.keep p).rowMap a).isEmpty = true) :
    (t.keep p).rowIndex = t.rowIndex.erase a := by
  have keys : (t.keep p).rowKeys = t.rowKeys.filter (· ≠ a) := by
    rw [rowKeys_keep]
    refine List.filter_congr fun c hc => ?_
    by_cases here : c = a
    · simp [here, gone]
    · simp [here, others c here, mem_rowKeys_iff_rowMap.1 hc]
  rw [rowIndex, rowIndex, OrderedMap.erase_tabulate (t.rowKeys_nodup.filter _)]
  refine OrderedMap.tabulate_congr keys fun c hc => others c ?_
  rw [keys, List.mem_filter] at hc
  exact of_decide_eq_true hc.2

/-- Only one row changes, and something is left of it. -/
theorem rowIndex_keep_of_not_isEmpty (left : ((t.keep p).rowMap a).isEmpty = false) :
    (t.keep p).rowIndex = t.rowIndex.insert a ((t.keep p).rowMap a) := by
  have keys : (t.keep p).rowKeys = t.rowKeys := by
    rw [rowKeys_keep]
    refine List.filter_eq_self.2 fun c hc => ?_
    by_cases here : c = a
    · simp [here, left]
    · simp [others c here, mem_rowKeys_iff_rowMap.1 hc]
  have present : a ∈ t.rowKeys := keys ▸ mem_rowKeys_iff_rowMap.2 left
  rw [rowIndex, rowIndex, OrderedMap.insert_tabulate present]
  refine OrderedMap.tabulate_congr keys fun c _ => ?_
  by_cases here : c = a
  · rw [if_pos here, here]
  · rw [if_neg here, others c here]

end OneRow

theorem rowIndex_erase : (t.erase a b).rowIndex = t.rowIndex.drop a b := by
  have others (c : α) (h : c ≠ a) : (t.erase a b).rowMap c = t.rowMap c := by
    rw [rowMap_erase, if_neg h]
  have rest : (t.erase a b).rowMap a = (t.rowMap a).erase b := by rw [rowMap_erase, if_pos rfl]
  rw [Index.drop, get?_rowIndex]
  by_cases present : a ∈ t.rowKeys
  · rw [if_pos present]
    dsimp only
    rw [← rest]
    cases left : ((t.erase a b).rowMap a).isEmpty with
    | true => exact rowIndex_keep_of_isEmpty others left
    | false => exact rowIndex_keep_of_not_isEmpty others left
  · have nothing : t.erase a b = t := by
      refine keep_eq_self fun cell hc => ?_
      have elsewhere : cell.row ≠ a := fun row => present (t.mem_rowKeys.2 ⟨cell, hc, row⟩)
      simp [elsewhere]
    rw [if_neg present, nothing]

theorem rowIndex_eraseRow : (t.eraseRow a).rowIndex = t.rowIndex.erase a := by
  have gone : ((t.eraseRow a).rowMap a).isEmpty = true := by
    rw [OrderedMap.isEmpty, entries_rowMap, eraseRow, row_keep]
    simp
  exact rowIndex_keep_of_isEmpty (fun c => rowMap_eraseRow) gone

omit [DecidableEq β] in
theorem rowIndex_erase_of_absent (h : a ∉ t.rowKeys) : t.rowIndex.erase a = t.rowIndex := by
  rw [rowIndex, OrderedMap.erase_tabulate (t.rowKeys_nodup.filter _)]
  refine OrderedMap.tabulate_congr (List.filter_eq_self.2 fun c hc => ?_) fun _ _ => rfl
  exact decide_eq_true (ne_of_mem_of_not_mem hc h)

theorem rowIndex_eraseColumn : (t.eraseColumn b).rowIndex =
    ((t.column b).map Prod.fst).foldl (fun rows a => rows.drop a b) t.rowIndex := by
  have each (rows : List α) : (rows.foldl (fun t a => t.erase a b) t).rowIndex =
      rows.foldl (fun rows a => rows.drop a b) t.rowIndex := by
    induction rows generalizing t with
    | nil => rfl
    | cons a rest ih => rw [List.foldl_cons, List.foldl_cons, ih, rowIndex_erase]
  rw [eraseColumn_eq, each]

/-! ## Both indexes -/

theorem index_insert : t.index.insert a b v = (t.get? a b, (t.insert a b v).index) := by
  rw [IndexedTable.insert, index, index, item?_rowIndex, transpose_insert, rowIndex_insert,
    rowIndex_insert]

theorem index_remove : t.index.remove a b = (t.get? a b, (t.erase a b).index) := by
  have erased : (t.erase a b).transpose = t.transpose.erase b a := by
    rw [erase, transpose_keep]
    exact keep_congr fun cell _ => by rw [Bool.and_comm]
  have found : (t.rowIndex.get? a).bind (·.get? b) = t.get? a b := item?_rowIndex
  rw [IndexedTable.remove, index, index, erased, rowIndex_erase, rowIndex_erase, ← found]
  cases row : t.rowIndex.get? a with
  | none =>
    have same : t.rowIndex.drop a b = t.rowIndex := by rw [Index.drop, row]
    rw [same]
    rfl
  | some items => rfl

/-- The first item is that of the first row. -/
theorem index_pop : t.index.pop =
    match t.pop? with
    | none => (none, t.index)
    | some (cell, rest) => (some (cell.row, cell.column, cell.value), rest.index) := by
  have first : t.index.rows.entries.head? = t.rowKeys.head?.map fun a => (a, t.rowMap a) :=
    List.head?_map
  rw [IndexedTable.pop, pop?, entries, first]
  cases keys : t.rowKeys with
  | nil => rfl
  | cons a others =>
    have nonempty : t.cells.filter (·.row = a) ≠ [] := by
      obtain ⟨cell, hc, row⟩ := t.mem_rowKeys.1 (keys ▸ List.mem_cons_self : a ∈ t.rowKeys)
      exact List.ne_nil_of_mem (List.mem_filter.2 ⟨hc, decide_eq_true row⟩)
    obtain ⟨cell, rest, row⟩ := List.exists_cons_of_ne_nil nonempty
    have listed : cell ∈ t.cells.filter (·.row = a) := row ▸ List.mem_cons_self
    obtain ⟨member, rfl⟩ : cell ∈ t.cells ∧ cell.row = a := by simpa using listed
    have value : t.get? cell.row cell.column = some cell.value := get?_eq_some_iff.2 member
    have items : (t.rowMap cell.row).entries.head? = some (cell.column, cell.value) := by
      rw [entries_rowMap, SparseTable.row, row]
      rfl
    rw [List.flatMap_cons, row, List.cons_append, List.head?_cons, List.head?_cons]
    simp only [Option.map_some, items, index_remove, value]

theorem index_removeRow : t.index.removeRow a = (t.eraseRow a).index := by
  have erased : (t.eraseRow a).transpose = t.transpose.eraseColumn a := transpose_keep _
  have items : (t.rowMap a).keys = (t.transpose.column a).map Prod.fst := by
    rw [column_transpose]
    rfl
  rw [IndexedTable.removeRow, index, index, erased, rowIndex_eraseRow, rowIndex_eraseColumn,
    get?_rowIndex]
  by_cases present : a ∈ t.rowKeys
  · rw [if_pos present, ← items]
  · rw [if_neg present, ← items, rowMap_eq_empty present, rowIndex_erase_of_absent present]
    rfl

theorem swap_index : t.index.swap = t.transpose.index := by
  rw [index, index, transpose_transpose]
  rfl

theorem index_removeColumn : t.index.removeColumn b = (t.eraseColumn b).index := by
  have erased : (t.eraseColumn b).transpose = t.transpose.eraseRow b := transpose_keep _
  calc t.index.removeColumn b
    _ = (t.transpose.index.removeRow b).swap := by rw [removeColumn_eq, swap_index]
    _ = (t.eraseColumn b).index := by
        rw [index_removeRow, swap_index, ← erased, transpose_transpose]

end SparseTable

end PatternGroups
