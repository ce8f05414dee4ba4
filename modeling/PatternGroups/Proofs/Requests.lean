import PatternGroups.Proofs.Indexing

/-!
# Tables with two indexes as plain maps

However requests follow each other, they are answered as a plain map from pairs of keys would answer
them, and the indexes agree after each of them.

* `mismatch?_eq_none_iff`: the check finds nothing exactly if the indexes agree;
* `Consistent.represents`: what indexes that agree say of the map;
* `step_answer`, `run_answers`: one request, and any number of them;
* `refines_answers`: replies and table are those of a plain map.
-/

namespace PatternGroups

namespace IndexedTable

variable {α β κ μ ν φ : Type}

/-! ## Indexes that agree -/

section Indexes
variable [DecidableEq κ] [DecidableEq μ] {index : Index κ μ ν} {k : κ} {l : μ} {v : ν}

/-- No key is without items. -/
def Index.Full (index : Index κ μ ν) : Prop :=
  ∀ k items, index.get? k = some items → items.isEmpty = false

theorem Index.item?_eq_some_iff : index.item? k l = some v ↔
    ∃ items, (k, items) ∈ index.entries ∧ (l, v) ∈ items.entries := by
  simp only [item?, Option.bind_eq_some_iff, OrderedMap.get?_eq_some_iff]

theorem Index.Full.exists_item (h : index.Full) {items : OrderedMap μ ν}
    (hk : index.get? k = some items) : ∃ l v, items.get? l = some v := by
  obtain ⟨⟨l, v⟩, rest, first⟩ := List.exists_cons_of_ne_nil
    (List.isEmpty_eq_false_iff.1 (h k items hk))
  exact ⟨l, v, OrderedMap.get?_eq_some_iff.2 (first ▸ List.mem_cons_self)⟩

theorem Index.Full.contains_iff (h : index.Full) :
    index.contains k = true ↔ ∃ l v, index.item? k l = some v := by
  rw [OrderedMap.contains_iff]
  constructor
  · rintro ⟨items, hk⟩
    obtain ⟨l, v, hl⟩ := h.exists_item hk
    exact ⟨l, v, by rw [item?, hk]; exact hl⟩
  · rintro ⟨l, v, found⟩
    obtain ⟨items, hk, _⟩ := Option.bind_eq_some_iff.1 found
    exact ⟨items, hk⟩

theorem Index.mismatch?_eq_none_iff [DecidableEq ν] {unused : κ → φ} {unmatched : κ → μ → φ}
    {mirror : Index μ κ ν} : index.mismatch? unused unmatched mirror = none ↔
      index.Full ∧ ∀ k l v, index.item? k l = some v → mirror.item? l k = some v := by
  have one {k : κ} {items : OrderedMap μ ν} :
      (if items.isEmpty then some (unused k)
        else items.entries.findSome? fun (l, v) =>
          if mirror.item? l k ≠ some v then some (unmatched k l) else none) = none ↔
        items.isEmpty = false ∧ ∀ l v, (l, v) ∈ items.entries → mirror.item? l k = some v := by
    cases items.isEmpty with
    | true => simp
    | false => simp
  simp only [mismatch?, List.findSome?_eq_none_iff, Prod.forall, one, Index.Full,
    OrderedMap.get?_eq_some_iff, item?_eq_some_iff]
  constructor
  · intro h
    refine ⟨fun k items hk => (h k items hk).1, ?_⟩
    rintro k l v ⟨items, hk, hl⟩
    exact (h k items hk).2 l v hl
  · rintro ⟨full, matched⟩ k items hk
    exact ⟨full k items hk, fun l v hl => matched k l v ⟨items, hk, hl⟩⟩

end Indexes

variable [DecidableEq α] [DecidableEq β] {t : IndexedTable α β ν}

/-- The indexes have the same items, and no key without any. -/
structure Consistent (t : IndexedTable α β ν) : Prop where
  rows : t.rows.Full
  columns : t.columns.Full
  same : ∀ a b, t.columns.item? b a = t.rows.item? a b

theorem mismatch?_eq_none_iff [DecidableEq ν] : t.mismatch? = none ↔ t.Consistent := by
  rw [mismatch?, Option.or_eq_none_iff, Index.mismatch?_eq_none_iff, Index.mismatch?_eq_none_iff]
  constructor
  · rintro ⟨⟨rows, inColumns⟩, columns, inRows⟩
    exact ⟨rows, columns, fun a b => Option.ext fun v => ⟨inRows b a v, inColumns a b v⟩⟩
  · rintro ⟨rows, columns, same⟩
    exact ⟨⟨rows, fun a b v found => same a b ▸ found⟩, columns,
      fun b a v found => same a b ▸ found⟩

/-! ## Plain maps -/

/-- A map from pairs of keys to items. -/
abbrev PlainMap (α β ν : Type) := α → β → Option ν

namespace PlainMap

def empty : PlainMap α β ν := fun _ _ => none

/-- The map with an item for a pair. -/
def set (m : PlainMap α β ν) (a : α) (b : β) (v : ν) : PlainMap α β ν :=
  fun c d => if c = a ∧ d = b then some v else m c d

/-- The map without the pairs that a test fails. -/
def keep (m : PlainMap α β ν) (p : α → β → Bool) : PlainMap α β ν :=
  fun c d => if p c d then m c d else none

/-- What a request does and how it is answered. Any item can be popped if there is one. -/
inductive Step (m : PlainMap α β ν) : Request α β ν → Reply α β ν → PlainMap α β ν → Prop
  | insert (a : α) (b : β) (v : ν) : Step m (.insert a b v) (.item (m a b)) (m.set a b v)
  | remove (a : α) (b : β) :
      Step m (.remove a b) (.item (m a b)) (m.keep fun c d => !(c = a && d = b))
  | popNone : (∀ a b, m a b = none) → Step m .pop (.popped none) m
  | pop {a : α} {b : β} {v : ν} : m a b = some v →
      Step m .pop (.popped (some (a, b, v))) (m.keep fun c d => !(c = a && d = b))
  | removeRow (a : α) : Step m (.removeRow a) .done (m.keep fun c _ => c ≠ a)
  | removeColumn (b : β) : Step m (.removeColumn b) .done (m.keep fun _ d => d ≠ b)

inductive Run : PlainMap α β ν → List (Request α β ν) → List (Reply α β ν) → PlainMap α β ν → Prop
  | nil (m : PlainMap α β ν) : Run m [] [] m
  | cons {m n k : PlainMap α β ν} {request : Request α β ν} {reply : Reply α β ν}
      {requests : List (Request α β ν)} {replies : List (Reply α β ν)} :
      Step m request reply n → Run n requests replies k →
      Run m (request :: requests) (reply :: replies) k

end PlainMap

/-- A map from keys is listed, or there is nothing in it to list. -/
def Lists (listed : Option (OrderedMap κ ν)) (f : κ → Option ν) : Prop :=
  (listed = none ↔ ∀ k, f k = none) ∧
    ∀ items, listed = some items → ∀ k v, (k, v) ∈ items.entries ↔ f k = some v

/-- All that a table says of a map. -/
structure Represents [DecidableEq ν] (t : IndexedTable α β ν) (m : PlainMap α β ν) : Prop where
  get : ∀ a b, t.get? a b = m a b
  contains : ∀ a b, t.contains a b = (m a b).isSome
  row : ∀ a, Lists (t.row? a) (m a)
  column : ∀ b, Lists (t.column? b) fun a => m a b
  hasRow : ∀ a, t.hasRow a = true ↔ ∃ b v, m a b = some v
  hasColumn : ∀ b, t.hasColumn b = true ↔ ∃ a v, m a b = some v
  size : ∃ pairs : List (α × β), pairs.Nodup ∧ (∀ a b, (a, b) ∈ pairs ↔ (m a b).isSome = true) ∧
    t.size = pairs.length
  isEmpty : t.isEmpty = decide (t.size = 0)
  consistent : t.mismatch? = none

theorem Index.Full.lists {index : Index κ μ ν} [DecidableEq κ] [DecidableEq μ] (h : index.Full)
    (k : κ) : Lists (index.get? k) (index.item? k) := by
  constructor
  · constructor
    · intro none l
      rw [item?, none]
      rfl
    · intro none
      cases hk : index.get? k with
      | none => rfl
      | some items =>
        obtain ⟨l, v, hl⟩ := h.exists_item hk
        have found : index.item? k l = some v := by rw [item?, hk]; exact hl
        rw [none] at found
        cases found
  · intro items hk l v
    rw [item?, hk, Option.bind_some, OrderedMap.get?_eq_some_iff]

/-- The pairs with items, row by row. -/
def pairs (t : IndexedTable α β ν) : List (α × β) :=
  t.rows.entries.flatMap fun (a, items) => items.keys.map (a, ·)

theorem mem_pairs {a : α} {b : β} : (a, b) ∈ t.pairs ↔ (t.get? a b).isSome = true := by
  rw [Option.isSome_iff_exists]
  simp only [pairs, List.mem_flatMap, List.mem_map, Prod.exists, Prod.mk.injEq, get?,
    Index.item?_eq_some_iff, OrderedMap.mem_keys_iff, OrderedMap.get?_eq_some_iff]
  constructor
  · rintro ⟨_, items, ha, _, ⟨v, hb⟩, rfl, rfl⟩
    exact ⟨v, items, ha, hb⟩
  · rintro ⟨v, items, ha, hb⟩
    exact ⟨a, items, ha, b, ⟨v, hb⟩, rfl, rfl⟩

omit [DecidableEq α] [DecidableEq β] in
theorem nodup_pairs (t : IndexedTable α β ν) : t.pairs.Nodup := by
  refine List.nodup_flatMap.2 ⟨fun e _ => ?_, ?_⟩
  · have keys : e.2.keys.Nodup := List.pairwise_map.2 e.2.distinct
    exact keys.map fun b c same => congrArg Prod.snd same
  · refine t.rows.distinct.imp fun {d e} differ p hd he => ?_
    obtain ⟨b, _, rfl⟩ := List.mem_map.1 hd
    obtain ⟨c, _, same⟩ := List.mem_map.1 he
    exact differ (congrArg Prod.fst same).symm

omit [DecidableEq α] [DecidableEq β] in
theorem size_eq (t : IndexedTable α β ν) : t.size = t.pairs.length := by
  have sum (entries : List (α × OrderedMap β ν)) (n : Nat) :
      entries.foldl (fun n e => n + e.2.size) n =
        n + (entries.flatMap fun e => e.2.keys.map (e.1, ·)).length := by
    induction entries generalizing n with
    | nil => rfl
    | cons e rest ih =>
      rw [List.foldl_cons, ih, List.flatMap_cons, List.length_append, List.length_map,
        OrderedMap.keys, List.length_map, OrderedMap.size, Nat.add_assoc]
  exact (sum t.rows.entries 0).trans (Nat.zero_add _)

theorem Consistent.isEmpty_eq (h : t.Consistent) : t.isEmpty = decide (t.size = 0) := by
  rw [Bool.eq_iff_iff, decide_eq_true_eq, size_eq, List.length_eq_zero_iff, isEmpty]
  constructor
  · intro none
    rw [pairs, OrderedMap.isEmpty_iff.1 none]
    rfl
  · intro none
    by_contra some
    rw [OrderedMap.isEmpty, List.isEmpty_iff] at some
    obtain ⟨⟨a, items⟩, _, first⟩ := List.exists_cons_of_ne_nil some
    have ha : t.rows.get? a = .some items :=
      OrderedMap.get?_eq_some_iff.2 (first ▸ List.mem_cons_self)
    obtain ⟨b, v, hb⟩ := h.rows.exists_item ha
    have found : (a, b) ∈ t.pairs := by
      rw [mem_pairs, get?, Index.item?, ha, Option.bind_some, hb]
      rfl
    rw [none] at found
    cases found

/-- Indexes that agree tell one map. -/
theorem Consistent.represents [DecidableEq ν] (h : t.Consistent) : t.Represents t.get? := by
  constructor
  · exact fun _ _ => rfl
  · exact fun _ _ => rfl
  · exact fun a => h.rows.lists a
  · intro b
    have mirrored : t.columns.item? b = fun a => t.get? a b := funext fun a => h.same a b
    exact mirrored ▸ h.columns.lists b
  · exact fun a => h.rows.contains_iff
  · intro b
    have listed := h.columns.contains_iff (k := b)
    simp only [h.same] at listed
    exact listed
  · exact ⟨t.pairs, t.nodup_pairs, fun _ _ => mem_pairs, t.size_eq⟩
  · exact h.isEmpty_eq
  · exact mismatch?_eq_none_iff.2 h

end IndexedTable

/-! ## Requests -/

namespace SparseTable

open IndexedTable

variable {α β ν : Type} [DecidableEq α] [DecidableEq β] {t u : SparseTable α β ν}

omit [DecidableEq β] in
theorem full_rowIndex (t : SparseTable α β ν) : t.rowIndex.Full := by
  intro a items ha
  rw [get?_rowIndex] at ha
  split at ha
  · rename_i present
    cases ha
    exact mem_rowKeys_iff_rowMap.1 present
  · cases ha

theorem consistent_index (t : SparseTable α β ν) : t.index.Consistent := by
  refine ⟨t.full_rowIndex, t.transpose.full_rowIndex, fun a b => ?_⟩
  rw [index, item?_rowIndex, item?_rowIndex, get?_transpose]

theorem mismatch?_index [DecidableEq ν] (t : SparseTable α β ν) : t.index.mismatch? = none :=
  mismatch?_eq_none_iff.2 t.consistent_index

theorem get?_index (t : SparseTable α β ν) : t.index.get? = t.get? := by
  funext a b
  exact item?_rowIndex

theorem set_get? (t : SparseTable α β ν) (a : α) (b : β) (v : ν) :
    PlainMap.set t.get? a b v = (t.insert a b v).get? := by
  funext c d
  exact (t.get?_insert a c b d v).symm

theorem keep_get? (t : SparseTable α β ν) (p : α → β → Bool) :
    PlainMap.keep t.get? p = (t.keep p).get? := by
  funext a b
  exact (t.get?_keep p a b).symm

theorem get?_of_pop?_none (h : t.pop? = none) (a : α) (b : β) : t.get? a b = none := by
  rw [pop?, Option.map_eq_none_iff, List.head?_eq_none_iff] at h
  rw [Option.eq_none_iff_forall_ne_some]
  intro v found
  have listed : ⟨a, b, v⟩ ∈ t.entries := mem_entries.2 found
  rw [h] at listed
  cases listed

theorem get?_of_pop?_some {cell : Cell α β ν} (h : t.pop? = some (cell, u)) :
    t.get? cell.row cell.column = some cell.value ∧ u = t.erase cell.row cell.column := by
  obtain ⟨_, first, same⟩ := Option.map_eq_some_iff.1 h
  cases same
  exact ⟨mem_entries.1 (List.mem_of_head? first), rfl⟩

/-- A request does to a table what it does to a plain map. -/
theorem step_answer (t : SparseTable α β ν) (request : Request α β ν) :
    ∃ u : SparseTable α β ν, (t.index.answer request).2 = u.index ∧
      PlainMap.Step t.get? request (t.index.answer request).1 u.get? := by
  cases request with
  | insert a b v =>
    rw [answer, index_insert]
    exact ⟨_, rfl, t.set_get? a b v ▸ .insert a b v⟩
  | remove a b =>
    rw [answer, index_remove]
    exact ⟨_, rfl, t.keep_get? _ ▸ .remove a b⟩
  | pop =>
    rw [answer, index_pop]
    cases popped : t.pop? with
    | none => exact ⟨t, rfl, .popNone (get?_of_pop?_none popped)⟩
    | some e =>
      obtain ⟨cell, rest⟩ := e
      obtain ⟨found, rfl⟩ := get?_of_pop?_some popped
      exact ⟨_, rfl, t.keep_get? _ ▸ .pop found⟩
  | removeRow a =>
    exact ⟨t.eraseRow a, index_removeRow, t.keep_get? _ ▸ .removeRow a⟩
  | removeColumn b =>
    exact ⟨t.eraseColumn b, index_removeColumn, t.keep_get? _ ▸ .removeColumn b⟩

theorem run_answers (t : SparseTable α β ν) (requests : List (Request α β ν)) :
    ∃ u : SparseTable α β ν, (t.index.answers requests).2 = u.index ∧
      PlainMap.Run t.get? requests (t.index.answers requests).1 u.get? := by
  induction requests generalizing t with
  | nil => exact ⟨t, rfl, .nil t.get?⟩
  | cons request rest ih =>
    obtain ⟨next, table, step⟩ := t.step_answer request
    obtain ⟨u, last, run⟩ := ih next
    rw [← table] at last run
    exact ⟨u, last, .cons step run⟩

end SparseTable

namespace IndexedTable

variable {α β ν : Type} [DecidableEq α] [DecidableEq β] [DecidableEq ν]

/-- Requests to an empty table are answered as by a plain map, and the table then represents this
map; in particular the check of its indexes finds nothing after any of the requests. -/
theorem refines_answers (requests : List (Request α β ν)) :
    ∃ m, PlainMap.Run .empty requests (empty.answers requests).1 m ∧
      (empty.answers requests).2.Represents m := by
  obtain ⟨u, table, run⟩ := SparseTable.empty.run_answers requests
  have start : (SparseTable.empty : SparseTable α β ν).index = empty := rfl
  rw [start] at table run
  rw [table]
  exact ⟨u.get?, run, u.get?_index ▸ u.consistent_index.represents⟩

/-- Of two rows that meet in a column, the first is emptied by the removal of its item, and the
second with the column. -/
example : (empty.answers [.insert 0 2 "a", .insert 1 2 "b", .insert 1 3 "c", .remove 0 2,
      .insert 1 2 "d", .removeColumn 2, .pop, .pop]).1 =
    [.item none, .item none, .item none, .item (some "a"), .item (some "b"), .done,
      .popped (some (1, 3, "c")), .popped none] := by
  decide

end IndexedTable

end PatternGroups
