import PatternGroups.Proofs.Moves
import PatternGroups.Proofs.OrderedMaps

/-!
# Rows of sparse tables

* `transpose_keep`, `transpose_insert`: what holds of rows holds of columns;
* `keep_keep`, `eraseColumn_eq`: removals one after the other;
* `get?_rowMap`: a row as an ordered map;
* `rowMap_insert`, `rowMap_erase`, `rowKeys_insert`, `rowKeys_keep`: what becomes of the rows.
-/

namespace PatternGroups.SparseTable

variable {α β ν : Type} {t u : SparseTable α β ν} {a c : α} {b : β} {v : ν}

theorem eq_of_parts (cells : t.cells = u.cells) (rows : t.rowKeys = u.rowKeys)
    (columns : t.columnKeys = u.columnKeys) : t = u := by
  cases t
  cases u
  cases cells
  cases rows
  cases columns
  rfl

/-! ## Columns as rows -/

theorem transpose_transpose : t.transpose.transpose = t := by
  apply eq_of_parts
  · simp only [transpose, List.map_map]
    exact List.map_id' t.cells
  · rfl
  · rfl

variable [DecidableEq α] [DecidableEq β]

theorem get?_transpose : t.transpose.get? b a = t.get? a b := by
  apply Option.ext
  intro v
  rw [get?_eq_some_iff, get?_eq_some_iff]
  simp only [transpose, List.mem_map]
  constructor
  · rintro ⟨cell, h, same⟩
    cases same
    exact h
  · exact fun h => ⟨_, h, rfl⟩

omit [DecidableEq β] in
theorem column_transpose : t.transpose.column a = t.row a := by
  simp only [transpose, column, row, List.filter_map, List.map_map]
  rfl

theorem flip_put (cell : Cell α β ν) : (cell.put a b v).flip = cell.flip.put b a v := by
  have place : cell.flip.isAt b a = cell.isAt a b := Bool.and_comm _ _
  unfold Cell.put
  rw [place]
  cases cell.isAt a b with
  | true => rfl
  | false => rfl

theorem transpose_keep (p : α → β → Bool) :
    (t.keep p).transpose = t.transpose.keep fun b a => p a b := by
  have cells : (t.keep p).transpose.cells = (t.transpose.keep fun b a => p a b).cells := by
    simp only [keep, transpose, List.filter_map]
    rfl
  apply eq_of_parts cells
  · simp only [keep, transpose, List.filter_map, List.any_map]
    rfl
  · simp only [keep, transpose, List.filter_map, List.any_map]
    rfl

theorem transpose_insert : (t.insert a b v).transpose = t.transpose.insert b a v := by
  unfold insert
  by_cases absent : t.get? a b = none
  · rw [dif_pos absent, dif_pos (get?_transpose.trans absent)]
    apply eq_of_parts
    · simp only [append, transpose, List.map_append, List.map_singleton]
      rfl
    · rfl
    · rfl
  · have present : t.transpose.get? b a ≠ none := by rwa [get?_transpose]
    rw [dif_neg absent, dif_neg present]
    apply eq_of_parts
    · simp only [replace, transpose, List.map_map]
      exact List.map_congr_left fun cell _ => flip_put cell
    · rfl
    · rfl

/-! ## Removals -/

theorem keep_congr {p q : α → β → Bool}
    (h : ∀ cell ∈ t.cells, p cell.row cell.column = q cell.row cell.column) :
    t.keep p = t.keep q := by
  have cells : t.cells.filter (fun cell => p cell.row cell.column) =
      t.cells.filter fun cell => q cell.row cell.column := List.filter_congr h
  apply eq_of_parts
  · exact cells
  · simp only [keep, cells]
  · simp only [keep, cells]

theorem keep_eq_self {p : α → β → Bool} (h : ∀ cell ∈ t.cells, p cell.row cell.column = true) :
    t.keep p = t := by
  have cells : t.cells.filter (fun cell => p cell.row cell.column) = t.cells :=
    List.filter_eq_self.2 h
  apply eq_of_parts
  · exact cells
  · simp only [keep, cells, List.filter_eq_self, t.mem_rowKeys, List.any_eq_true, decide_eq_true_eq]
    exact fun _ => id
  · simp only [keep, cells, List.filter_eq_self, t.mem_columnKeys, List.any_eq_true,
      decide_eq_true_eq]
    exact fun _ => id

theorem keep_keep (p q : α → β → Bool) :
    (t.keep p).keep q = t.keep fun a b => p a b && q a b := by
  have cells : (t.cells.filter fun cell => p cell.row cell.column).filter
      (fun cell => q cell.row cell.column) =
        t.cells.filter fun cell => p cell.row cell.column && q cell.row cell.column := by
    simp only [List.filter_filter, Bool.and_comm]
  -- A key with a cell that is kept twice has one that is kept once.
  have twice {test : Cell α β ν → Bool} (h : (t.cells.filter fun cell =>
      p cell.row cell.column && q cell.row cell.column).any test = true) :
      (t.cells.filter fun cell => p cell.row cell.column).any test = true := by
    obtain ⟨cell, hc, holds⟩ := List.any_eq_true.1 h
    simp only [List.mem_filter, Bool.and_eq_true] at hc
    exact List.any_eq_true.2 ⟨cell, List.mem_filter.2 ⟨hc.1, hc.2.1⟩, holds⟩
  have both {test : Cell α β ν → Bool} : ((t.cells.filter fun cell =>
        p cell.row cell.column && q cell.row cell.column).any test &&
      (t.cells.filter fun cell => p cell.row cell.column).any test) =
        (t.cells.filter fun cell => p cell.row cell.column && q cell.row cell.column).any test :=
    Bool.and_eq_left_iff_imp.2 twice
  apply eq_of_parts
  · exact cells
  · simp only [keep, cells, List.filter_filter, both]
  · simp only [keep, cells, List.filter_filter, both]

/-- Cells removed from several rows of a column. -/
theorem foldl_erase (rows : List α) : rows.foldl (fun t a => t.erase a b) t =
    t.keep fun c d => !(decide (c ∈ rows) && decide (d = b)) := by
  induction rows generalizing t with
  | nil => exact (keep_eq_self (by simp)).symm
  | cons a rest ih =>
    rw [List.foldl_cons, ih, erase, keep_keep]
    refine keep_congr fun cell _ => ?_
    by_cases first : cell.row = a
    · by_cases column : cell.column = b
      · simp [first, column]
      · simp [column]
    · simp [first]

theorem eraseColumn_eq : t.eraseColumn b =
    ((t.column b).map Prod.fst).foldl (fun t a => t.erase a b) t := by
  rw [foldl_erase]
  refine keep_congr fun cell hc => ?_
  have listed : cell.column = b → cell.row ∈ (t.column b).map Prod.fst := by
    rintro rfl
    exact mem_map_column.2 ⟨cell.value, get?_eq_some_iff.2 hc⟩
  by_cases here : cell.column = b
  · simp only [here, listed here, ne_eq, not_true, decide_false, decide_true, Bool.and_self,
      Bool.not_true]
  · simp [here]

/-! ## Rows as maps -/

omit [DecidableEq β] in
theorem entries_rowMap : (t.rowMap a).entries = t.row a := rfl

theorem get?_rowMap : (t.rowMap a).get? b = t.get? a b := by
  apply Option.ext
  intro v
  rw [OrderedMap.get?_eq_some_iff, ← mem_row]
  rfl

omit [DecidableEq β] in
theorem mem_rowKeys_iff_rowMap : a ∈ t.rowKeys ↔ (t.rowMap a).isEmpty = false := by
  rw [t.mem_rowKeys, OrderedMap.isEmpty, entries_rowMap, row, List.isEmpty_eq_false_iff]
  simp

omit [DecidableEq β] in
theorem rowMap_eq_empty (h : a ∉ t.rowKeys) : t.rowMap a = .empty := by
  rw [mem_rowKeys_iff_rowMap, Bool.not_eq_false] at h
  exact OrderedMap.isEmpty_iff.1 h

theorem row_keep (p : α → β → Bool) :
    (t.keep p).row a = (t.row a).filter fun e => p a e.1 := by
  simp only [row, keep, List.filter_map, List.filter_filter, Function.comp_def]
  congr 1
  refine List.filter_congr fun cell _ => ?_
  by_cases here : cell.row = a
  · simp [here]
  · simp [here]

theorem rowKeys_keep (p : α → β → Bool) :
    (t.keep p).rowKeys = t.rowKeys.filter fun a => !((t.keep p).rowMap a).isEmpty := by
  refine List.filter_congr fun a _ => ?_
  rw [Bool.eq_iff_iff, Bool.not_eq_true', ← mem_rowKeys_iff_rowMap, mem_rowKeys]
  simp [keep, and_assoc]

theorem column_keep (p : α → β → Bool) (b : β) :
    (t.keep p).column b = (t.column b).filter fun e => p e.1 b := by
  have row (u : SparseTable α β ν) : u.transpose.row b = u.column b := by
    rw [← column_transpose, transpose_transpose]
  rw [← row, ← row, transpose_keep, row_keep]

theorem entries_keep (p : α → β → Bool) :
    (t.keep p).entries = t.entries.filter fun c => p c.row c.column := by
  -- A row that nothing is kept of lists nothing.
  have emptied {a : α} (gone : (t.keep p).cells.any (·.row = a) = false) :
      (t.keep p).cells.filter (·.row = a) = [] :=
    List.filter_eq_nil_iff.2 fun c hc => List.any_eq_false.1 gone c hc
  have rows (keys : List α) :
      (keys.filter fun a => (t.keep p).cells.any (·.row = a)).flatMap
          (fun a => (t.keep p).cells.filter (·.row = a)) =
        (keys.flatMap fun a => t.cells.filter (·.row = a)).filter fun c => p c.row c.column := by
    induction keys with
    | nil => rfl
    | cons a keys ih =>
      have row : (t.keep p).cells.filter (·.row = a) =
          (t.cells.filter (·.row = a)).filter fun c => p c.row c.column := by
        simp only [keep, List.filter_filter, Bool.and_comm]
      rw [List.flatMap_cons, List.filter_append, ← ih, ← row, List.filter_cons]
      split
      · rw [List.flatMap_cons]
      · rename_i gone
        rw [emptied (by simpa using gone), List.nil_append]
  exact rows t.rowKeys

theorem rowMap_erase : (t.erase a b).rowMap c =
    if c = a then (t.rowMap c).erase b else t.rowMap c := by
  apply OrderedMap.eq_of_entries
  have kept : ((t.erase a b).rowMap c).entries =
      (t.row c).filter fun e => !(decide (c = a) && decide (e.1 = b)) := row_keep _
  rw [kept]
  split
  · rename_i here
    simp [here, OrderedMap.erase, rowMap]
  · rename_i elsewhere
    simp [elsewhere, rowMap]

theorem rowMap_eraseRow (h : c ≠ a) : (t.eraseRow a).rowMap c = t.rowMap c := by
  apply OrderedMap.eq_of_entries
  have kept : ((t.eraseRow a).rowMap c).entries = (t.row c).filter fun _ => decide (c ≠ a) :=
    row_keep _
  rw [kept]
  simp [h, rowMap]

theorem rowKeys_insert : (t.insert a b v).rowKeys = addKey t.rowKeys a := by
  unfold insert
  split
  · rfl
  · rename_i present
    obtain ⟨w, hw⟩ := Option.ne_none_iff_exists'.1 present
    have row : a ∈ t.rowKeys := mem_rowKeys_iff.2 ⟨b, w, hw⟩
    rw [addKey, if_pos row]
    rfl

theorem rowMap_insert : (t.insert a b v).rowMap c =
    if c = a then (t.rowMap c).insert b v else t.rowMap c := by
  have key : b ∈ (t.rowMap a).keys ↔ t.get? a b ≠ none := by
    rw [OrderedMap.mem_keys_iff, get?_rowMap, Option.ne_none_iff_exists']
  apply OrderedMap.eq_of_entries
  unfold insert
  by_cases absent : t.get? a b = none
  · rw [dif_pos absent]
    by_cases here : c = a
    · subst here
      rw [if_pos rfl, OrderedMap.entries_insert_new (by rwa [key, not_not])]
      simp [rowMap, row, append]
    · simp [here, Ne.symm here, rowMap, row, append]
  · rw [dif_neg absent]
    have put (cell : Cell α β ν) :
        ((cell.put a b v).column, (cell.put a b v).value) =
          if cell.row = a then OrderedMap.put b v (cell.column, cell.value)
          else (cell.column, cell.value) := by
      by_cases inRow : cell.row = a
      · by_cases inColumn : cell.column = b
        · simp [Cell.put, Cell.isAt, OrderedMap.put, inRow, inColumn]
        · simp [Cell.put, Cell.isAt, OrderedMap.put, inRow, inColumn]
      · simp [Cell.put, Cell.isAt, inRow]
    have replaced : ((t.replace a b v).rowMap c).entries =
        (t.cells.filter (·.row = c)).map fun cell =>
          if cell.row = a then OrderedMap.put b v (cell.column, cell.value)
          else (cell.column, cell.value) := by
      simp only [rowMap, row, replace, List.filter_map, List.map_map, Function.comp_def,
        Cell.put_row, put]
    rw [replaced]
    by_cases here : c = a
    · subst here
      rw [if_pos rfl, OrderedMap.entries_insert (key.2 absent), entries_rowMap, row, List.map_map]
      refine List.map_congr_left fun cell hc => ?_
      rw [if_pos (by simpa using (List.mem_filter.1 hc).2)]
      rfl
    · rw [if_neg here, entries_rowMap, row]
      refine List.map_congr_left fun cell hc => ?_
      have inRow : cell.row = c := by simpa using (List.mem_filter.1 hc).2
      rw [if_neg (inRow ▸ here)]

end PatternGroups.SparseTable
