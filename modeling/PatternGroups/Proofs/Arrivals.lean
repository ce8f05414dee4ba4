import Mathlib.Order.Bounds.Basic
import PatternGroups.Proofs.Cells
import PatternGroups.Proofs.Requests

/-!
# The order of rows and columns

A request does one of two things to each list of keys: a key comes to its end, or keys leave it and
the others stay as they stand. So keys are listed in the order of the last step at which each of them
came, whatever came and left in between.

* `Turns`, `ListedUpTo.turn`, `listedByStep_of_turns`: lists that keys come to and leave;
* `Changes`, `exists_changes`: what a request does to a table, and what that does to its lists;
* `inserts_iff`: a pair comes when it is inserted and was not there;
* `sameOrder_insert`, `thinned_keep`, `pop_index`: values that are replaced, pairs that are removed,
  the pair that is popped;
* `order_afterAll`: the order in which a table lists what it holds.
-/

namespace PatternGroups

/-! ## Lists that keys come to and leave -/

section Lists

variable {κ : Type} {keys others : List κ}

/-- Some keys leave a list, or one comes to its end. -/
def Turns (keys others : List κ) : Prop :=
  others.Sublist keys ∨ ∃ k, k ∉ keys ∧ others = keys ++ [k]

/-- Keys are listed by the last step at which each of them came. -/
def ListedByStep (comes : κ → Nat → Prop) (keys : List κ) : Prop :=
  ∃ step : κ → Nat, (∀ k ∈ keys, IsGreatest {i | comes k i} (step k)) ∧
    keys.Pairwise fun k l => step k < step l

/-- The same as far as the first steps go, with the step of each key. -/
def ListedUpTo (comes : κ → Nat → Prop) (n : Nat) (step : κ → Nat) (keys : List κ) : Prop :=
  (∀ k ∈ keys, IsGreatest {i | i < n ∧ comes k i} (step k)) ∧
    keys.Pairwise fun k l => step k < step l

section Steps

variable {comes : κ → Nat → Prop}

theorem ListedUpTo.turn {n : Nat} {step : κ → Nat} (h : ListedUpTo comes n step keys)
    (turns : Turns keys others) (comes_iff : ∀ k, comes k n ↔ k ∉ keys ∧ k ∈ others) :
    ∃ step, ListedUpTo comes (n + 1) step others := by
  classical
  obtain ⟨last, ascending⟩ := h
  -- A key that is listed does not come once more.
  have old : ∀ k ∈ keys, IsGreatest {i | i < n + 1 ∧ comes k i} (step k) := by
    intro k hk
    obtain ⟨⟨before, came⟩, greatest⟩ := last k hk
    refine ⟨⟨by omega, came⟩, fun i hi => ?_⟩
    have other : i ≠ n := by
      rintro rfl
      exact ((comes_iff k).1 hi.2).1 hk
    exact greatest ⟨by have := hi.1; omega, hi.2⟩
  rcases turns with gone | ⟨a, new, same⟩
  · exact ⟨step, fun k hk => old k (gone.subset hk), ascending.sublist gone⟩
  · have ne {k : κ} (hk : k ∈ keys) : k ≠ a := ne_of_mem_of_not_mem hk new
    have came : comes a n := (comes_iff a).2 ⟨new, by simp [same]⟩
    refine ⟨fun k => if k = a then n else step k, fun k hk => ?_, ?_⟩
    · simp only [same, List.mem_append, List.mem_singleton] at hk
      rcases hk with hk | rfl
      · simpa [ne hk] using old k hk
      · refine ⟨⟨by simp, by simpa using came⟩, fun i hi => ?_⟩
        have := hi.1
        simp
        omega
    · rw [same]
      refine List.pairwise_append.2 ⟨ascending.imp_of_mem fun hk hl less => ?_, by simp,
        fun k hk l hl => ?_⟩
      · simpa [ne hk, ne hl] using less
      · obtain rfl := List.mem_singleton.1 hl
        simpa [ne hk] using (last k hk).1.1

variable (listed : Nat → List κ) (start : listed 0 = [])
  (turns : ∀ i, Turns (listed i) (listed (i + 1)))
  (comes_iff : ∀ k i, comes k i ↔ k ∉ listed i ∧ k ∈ listed (i + 1))
include start turns comes_iff

theorem exists_listedUpTo (n : Nat) : ∃ step, ListedUpTo comes n step (listed n) := by
  induction n with
  | zero => exact ⟨fun _ => 0, by simp [start], by simp [start]⟩
  | succ n ih =>
    obtain ⟨step, h⟩ := ih
    exact h.turn (turns n) fun k => comes_iff k n

theorem listedByStep_of_turns {count : Nat} (still : ∀ i, count ≤ i → listed (i + 1) = listed i) :
    ListedByStep comes (listed count) := by
  obtain ⟨step, last, ascending⟩ := exists_listedUpTo listed start turns comes_iff count
  refine ⟨step, fun k hk => ⟨(last k hk).1.2, fun i hi => (last k hk).2 ⟨?_, hi⟩⟩, ascending⟩
  by_contra late
  obtain ⟨absent, present⟩ := (comes_iff k i).1 hi
  rw [still i (by omega)] at present
  exact absent present

end Steps

end Lists

namespace SparseTable

variable {α β ν κ : Type} [DecidableEq α] [DecidableEq β] {t u : SparseTable α β ν}

/-! ## What becomes of lists -/

/-- A pair is inserted, or some are kept. -/
inductive Changes (t : SparseTable α β ν) : SparseTable α β ν → Prop
  | insert (a : α) (b : β) (v : ν) : Changes t (t.insert a b v)
  | keep (p : α → β → Bool) : Changes t (t.keep p)

theorem turns_addKey [DecidableEq κ] (keys : List κ) (k : κ) : Turns keys (addKey keys k) := by
  unfold addKey
  split
  · exact .inl (.refl _)
  · rename_i new
    exact .inr ⟨k, new, rfl⟩

namespace Changes

variable (h : t.Changes u)
include h

theorem transpose : t.transpose.Changes u.transpose := by
  cases h with
  | insert a b v => rw [transpose_insert]; exact .insert b a v
  | keep p => rw [transpose_keep]; exact .keep _

theorem rowKeys : Turns t.rowKeys u.rowKeys := by
  cases h with
  | insert a b v => rw [rowKeys_insert]; exact turns_addKey _ a
  | keep p => rw [rowKeys_keep]; exact .inl List.filter_sublist

theorem row (c : α) : Turns (t.rowMap c).keys (u.rowMap c).keys := by
  cases h with
  | insert a b v =>
    rw [rowMap_insert]
    split
    · rw [OrderedMap.keys_insert]
      exact turns_addKey _ b
    · exact .inl (.refl _)
  | keep p =>
    refine .inl (List.Sublist.map Prod.fst ?_)
    rw [entries_rowMap, entries_rowMap, row_keep]
    exact List.filter_sublist

end Changes

end SparseTable

namespace IndexedTable

variable {α β ν : Type} [DecidableEq α] [DecidableEq β] {requests : List (Request α β ν)} {a : α}
  {b : β} {i : Nat}

/-! ## Histories -/

/-- A request that only removes. -/
def Request.Removes : Request α β ν → Prop
  | .insert _ _ _ => False
  | _ => True

/-- The table after requests to an empty one. -/
def afterAll (requests : List (Request α β ν)) : IndexedTable α β ν := (empty.answers requests).2

/-- A request inserts a pair that is not there. -/
def Inserts (requests : List (Request α β ν)) (a : α) (b : β) (i : Nat) : Prop :=
  ∃ v, requests[i]? = some (.insert a b v) ∧ (afterAll (requests.take i)).get? a b = none

/-- A row has no pair before a request, and one after it. -/
def RowComes (requests : List (Request α β ν)) (a : α) (i : Nat) : Prop :=
  (∀ b, (afterAll (requests.take i)).get? a b = none) ∧
    ∃ b v, (afterAll (requests.take (i + 1))).get? a b = some v

/-- A column has no pair before a request, and one after it. -/
def ColumnComes (requests : List (Request α β ν)) (b : β) (i : Nat) : Prop :=
  (∀ a, (afterAll (requests.take i)).get? a b = none) ∧
    ∃ a v, (afterAll (requests.take (i + 1))).get? a b = some v

theorem answers_append (t : IndexedTable α β ν) (first second : List (Request α β ν)) :
    (t.answers (first ++ second)).2 = ((t.answers first).2.answers second).2 := by
  induction first generalizing t with
  | nil => rfl
  | cons request first ih => exact ih _

theorem afterAll_concat (requests : List (Request α β ν)) (request : Request α β ν) :
    afterAll (requests ++ [request]) = ((afterAll requests).answer request).2 :=
  answers_append _ _ _

theorem afterAll_take_of_le (h : requests.length ≤ i) : afterAll (requests.take i) =
    afterAll requests := by rw [List.take_of_length_le h]

theorem exists_afterAll (requests : List (Request α β ν)) :
    ∃ t : SparseTable α β ν, afterAll requests = t.index :=
  ⟨_, (SparseTable.empty.run_answers requests).choose_spec.1⟩

/-- What a request does: it inserts a pair, or it removes some. -/
theorem answer_cases (t : SparseTable α β ν) (request : Request α β ν) :
    (∃ a b v, request = .insert a b v ∧ (t.index.answer request).2 = (t.insert a b v).index) ∨
      request.Removes ∧ ∃ p, (t.index.answer request).2 = (t.keep p).index := by
  cases request with
  | insert a b v => exact .inl ⟨a, b, v, rfl, by rw [answer, SparseTable.index_insert]⟩
  | remove a b => exact .inr ⟨trivial, _, by rw [answer, SparseTable.index_remove]; rfl⟩
  | pop =>
    refine .inr ⟨trivial, ?_⟩
    rw [answer, SparseTable.index_pop]
    cases popped : t.pop? with
    | none => exact ⟨fun _ _ => true, by rw [SparseTable.keep_eq_self fun _ _ => rfl]⟩
    | some e =>
      obtain ⟨cell, rest⟩ := e
      obtain ⟨_, rfl⟩ := SparseTable.get?_of_pop?_some popped
      exact ⟨_, rfl⟩
  | removeRow a => exact .inr ⟨trivial, _, SparseTable.index_removeRow⟩
  | removeColumn b => exact .inr ⟨trivial, _, SparseTable.index_removeColumn⟩

/-- One step of a history; after its end nothing is changed. -/
theorem exists_step (requests : List (Request α β ν)) (i : Nat) :
    ∃ t u : SparseTable α β ν, afterAll (requests.take i) = t.index ∧
      afterAll (requests.take (i + 1)) = u.index ∧
      ((∃ a b v, requests[i]? = some (.insert a b v) ∧ u = t.insert a b v) ∨
        (∀ a b v, requests[i]? ≠ some (.insert a b v)) ∧ ∃ p, u = t.keep p) := by
  obtain ⟨t, before⟩ := exists_afterAll (requests.take i)
  rw [List.take_add_one]
  cases next : requests[i]? with
  | none =>
    refine ⟨t, t.keep fun _ _ => true, before, ?_, .inr ⟨by simp, _, rfl⟩⟩
    rw [Option.toList_none, List.append_nil, before, SparseTable.keep_eq_self fun _ _ => rfl]
  | some request =>
    rw [Option.toList_some, afterAll_concat, before]
    rcases answer_cases t request with ⟨a, b, v, rfl, after⟩ | ⟨removes, p, after⟩
    · exact ⟨t, _, rfl, after, .inl ⟨a, b, v, rfl, rfl⟩⟩
    · refine ⟨t, _, rfl, after, .inr ⟨?_, p, rfl⟩⟩
      rintro a b v same
      obtain rfl := Option.some.inj same
      exact removes

theorem exists_changes (requests : List (Request α β ν)) (i : Nat) :
    ∃ t u : SparseTable α β ν, afterAll (requests.take i) = t.index ∧
      afterAll (requests.take (i + 1)) = u.index ∧ t.Changes u := by
  obtain ⟨t, u, before, after, ⟨a, b, v, _, rfl⟩ | ⟨_, p, rfl⟩⟩ := exists_step requests i
  · exact ⟨t, _, before, after, .insert a b v⟩
  · exact ⟨t, _, before, after, .keep p⟩

/-- A pair that is there and was not has been inserted. -/
theorem inserts_iff : Inserts requests a b i ↔ (afterAll (requests.take i)).get? a b = none ∧
    ∃ v, (afterAll (requests.take (i + 1))).get? a b = some v := by
  obtain ⟨t, u, before, after, step⟩ := exists_step requests i
  rw [Inserts, before, after, SparseTable.get?_index, SparseTable.get?_index]
  constructor
  · rintro ⟨v, request, absent⟩
    rcases step with ⟨c, d, w, other, rfl⟩ | ⟨none, _⟩
    · cases request.symm.trans other
      exact ⟨absent, v, by rw [SparseTable.get?_insert, if_pos ⟨rfl, rfl⟩]⟩
    · exact absurd request (none a b v)
  · rintro ⟨absent, v, present⟩
    rcases step with ⟨c, d, w, request, rfl⟩ | ⟨_, p, rfl⟩
    · rw [SparseTable.get?_insert] at present
      split at present
      · rename_i here
        obtain ⟨rfl, rfl⟩ := here
        exact ⟨w, request, absent⟩
      · rw [absent] at present
        cases present
    · rw [SparseTable.get?_keep, absent] at present
      simp at present

/-! ## What indexes list -/

section Listed

variable {t : SparseTable α β ν}

theorem rowKeys_index : t.index.rows.keys = t.rowKeys := by
  apply OrderedMap.keys_tabulate
  exact t.rowKeys_nodup

theorem columnKeys_index : t.index.columns.keys = t.columnKeys := by
  apply OrderedMap.keys_tabulate
  exact t.columnKeys_nodup

theorem row?_index : t.index.row? a = if a ∈ t.rowKeys then some (t.rowMap a) else none :=
  SparseTable.get?_rowIndex

/-- The items of a row or column; none if it is not there. -/
def itemsOf {κ : Type} (listed : Option (OrderedMap κ ν)) : List (κ × ν) :=
  listed.elim [] (·.entries)

def keysOf {κ : Type} (listed : Option (OrderedMap κ ν)) : List κ := (itemsOf listed).map Prod.fst

theorem itemsOf_row?_index : itemsOf (t.index.row? a) = t.row a := by
  rw [row?_index]
  split
  · rfl
  · rename_i absent
    rw [← SparseTable.entries_rowMap, SparseTable.rowMap_eq_empty absent]
    rfl

theorem itemsOf_column?_index : itemsOf (t.index.column? b) = t.column b := by
  have columns : t.index.column? b = t.transpose.index.row? b := rfl
  rw [columns, itemsOf_row?_index, ← SparseTable.column_transpose, SparseTable.transpose_transpose]

theorem keysOf_row?_index : keysOf (t.index.row? a) = (t.rowMap a).keys :=
  congrArg (List.map Prod.fst) itemsOf_row?_index

theorem keysOf_column?_index : keysOf (t.index.column? b) = (t.transpose.rowMap b).keys :=
  keysOf_row?_index (t := t.transpose)

end Listed

theorem mem_rows_keys {requests : List (Request α β ν)} :
    a ∈ (afterAll requests).rows.keys ↔ ∃ b v, (afterAll requests).get? a b = some v := by
  obtain ⟨t, table⟩ := exists_afterAll requests
  rw [table, rowKeys_index, SparseTable.mem_rowKeys_iff, SparseTable.get?_index]

theorem mem_columns_keys {requests : List (Request α β ν)} :
    b ∈ (afterAll requests).columns.keys ↔ ∃ a v, (afterAll requests).get? a b = some v := by
  obtain ⟨t, table⟩ := exists_afterAll requests
  rw [table, columnKeys_index, SparseTable.mem_columnKeys_iff, SparseTable.get?_index]

theorem mem_keysOf_row? {requests : List (Request α β ν)} :
    b ∈ keysOf ((afterAll requests).row? a) ↔ ∃ v, (afterAll requests).get? a b = some v := by
  obtain ⟨t, table⟩ := exists_afterAll requests
  simp only [table, keysOf_row?_index, OrderedMap.mem_keys_iff, SparseTable.get?_rowMap,
    SparseTable.get?_index]

theorem mem_keysOf_column? {requests : List (Request α β ν)} :
    a ∈ keysOf ((afterAll requests).column? b) ↔ ∃ v, (afterAll requests).get? a b = some v := by
  obtain ⟨t, table⟩ := exists_afterAll requests
  simp only [table, keysOf_column?_index, OrderedMap.mem_keys_iff, SparseTable.get?_rowMap,
    SparseTable.get?_transpose, SparseTable.get?_index]

/-! ## Histories of lists -/

theorem listedByStep_afterAll {κ : Type} (listed : IndexedTable α β ν → List κ)
    {comes : κ → Nat → Prop} (requests : List (Request α β ν)) (start : listed empty = [])
    (turns : ∀ {t u : SparseTable α β ν}, t.Changes u → Turns (listed t.index) (listed u.index))
    (comes_iff : ∀ k i, comes k i ↔ k ∉ listed (afterAll (requests.take i)) ∧
      k ∈ listed (afterAll (requests.take (i + 1)))) :
    ListedByStep comes (listed (afterAll requests)) := by
  have turns' (i : Nat) : Turns (listed (afterAll (requests.take i)))
      (listed (afterAll (requests.take (i + 1)))) := by
    obtain ⟨t, u, before, after, changes⟩ := exists_changes requests i
    simpa only [before, after] using turns changes
  have still (i : Nat) (late : requests.length ≤ i) :
      listed (afterAll (requests.take (i + 1))) = listed (afterAll (requests.take i)) := by
    rw [afterAll_take_of_le late, afterAll_take_of_le (by omega)]
  have all := listedByStep_of_turns (fun i => listed (afterAll (requests.take i))) start turns'
    comes_iff still
  rwa [List.take_length] at all

theorem listedByStep_rows_keys (requests : List (Request α β ν)) :
    ListedByStep (RowComes requests) (afterAll requests).rows.keys := by
  apply listedByStep_afterAll (fun t => t.rows.keys) requests rfl
  · intro t u changes
    simpa only [rowKeys_index] using changes.rowKeys
  · intro a i
    simp only [RowComes, mem_rows_keys, not_exists, Option.eq_none_iff_forall_ne_some, ne_eq]

theorem listedByStep_columns_keys (requests : List (Request α β ν)) :
    ListedByStep (ColumnComes requests) (afterAll requests).columns.keys := by
  apply listedByStep_afterAll (fun t => t.columns.keys) requests rfl
  · intro t u changes
    rw [columnKeys_index, columnKeys_index]
    exact changes.transpose.rowKeys
  · intro b i
    simp only [ColumnComes, mem_columns_keys, not_exists, Option.eq_none_iff_forall_ne_some, ne_eq]

theorem listedByStep_row (requests : List (Request α β ν)) (a : α) :
    ListedByStep (Inserts requests a) (keysOf ((afterAll requests).row? a)) := by
  apply listedByStep_afterAll (fun t => keysOf (t.row? a)) requests rfl
  · intro t u changes
    simpa only [keysOf_row?_index] using changes.row a
  · intro b i
    simp only [inserts_iff, mem_keysOf_row?, not_exists, Option.eq_none_iff_forall_ne_some, ne_eq]

theorem listedByStep_column (requests : List (Request α β ν)) (b : β) :
    ListedByStep (fun a => Inserts requests a b) (keysOf ((afterAll requests).column? b)) := by
  apply listedByStep_afterAll (fun t => keysOf (t.column? b)) requests rfl
  · intro t u changes
    simpa only [keysOf_column?_index] using changes.transpose.row b
  · intro a i
    simp only [inserts_iff, mem_keysOf_column?, not_exists, Option.eq_none_iff_forall_ne_some,
      ne_eq]

/-! ## What stays in its place -/

/-- A table lists the same pairs as another one, in the same order. -/
structure SameOrder (t u : IndexedTable α β ν) : Prop where
  rows : u.rows.keys = t.rows.keys
  columns : u.columns.keys = t.columns.keys
  row : ∀ a, keysOf (u.row? a) = keysOf (t.row? a)
  column : ∀ b, keysOf (u.column? b) = keysOf (t.column? b)
  pairs : u.pairs = t.pairs

/-- A table lists what another one lists, in the same order, as far as it is still there. -/
structure Thinned (t u : IndexedTable α β ν) : Prop where
  rows : u.rows.keys = t.rows.keys.filter u.hasRow
  columns : u.columns.keys = t.columns.keys.filter u.hasColumn
  row : ∀ a, itemsOf (u.row? a) = (itemsOf (t.row? a)).filter fun e => u.contains a e.1
  column : ∀ b, itemsOf (u.column? b) = (itemsOf (t.column? b)).filter fun e => u.contains e.1 b
  entries : u.entries = t.entries.filter fun e => u.contains e.1 e.2.1

section Kept

variable {t : SparseTable α β ν} {v w : ν} (p : α → β → Bool)

theorem pairs_index : t.index.pairs = t.rowKeys.flatMap fun a => (t.rowMap a).keys.map (a, ·) := by
  apply List.flatMap_map

theorem entries_index : t.index.entries = t.entries.map fun c => (c.row, c.column, c.value) := by
  have listed : t.index.entries = t.rowKeys.flatMap fun a => (t.row a).map (a, ·) := by
    apply List.flatMap_map
  rw [listed, SparseTable.entries, List.map_flatMap]
  refine List.flatMap_congr fun a _ => ?_
  rw [SparseTable.row, List.map_map]
  refine List.map_congr_left fun c hc => ?_
  have row : c.row = a := of_decide_eq_true (List.mem_filter.1 hc).2
  simp [row]

theorem addKey_of_mem {κ : Type} [DecidableEq κ] {keys : List κ} {k : κ} (h : k ∈ keys) :
    SparseTable.addKey keys k = keys := if_pos h

theorem rowKeys_replaced (present : t.get? a b = some w) :
    (t.insert a b v).rowKeys = t.rowKeys := by
  rw [SparseTable.rowKeys_insert]
  exact addKey_of_mem (SparseTable.mem_rowKeys_iff.2 ⟨b, w, present⟩)

theorem keys_rowMap_replaced (present : t.get? a b = some w) (c : α) :
    ((t.insert a b v).rowMap c).keys = (t.rowMap c).keys := by
  rw [SparseTable.rowMap_insert]
  split
  · rename_i here
    subst here
    have listed : b ∈ (t.rowMap c).keys :=
      OrderedMap.mem_keys_iff.2 ⟨w, SparseTable.get?_rowMap.trans present⟩
    rw [OrderedMap.keys_insert, if_pos listed]
  · rfl

theorem sameOrder_insert (present : t.get? a b = some w) :
    SameOrder t.index (t.insert a b v).index := by
  have mirrored : t.transpose.get? b a = some w := SparseTable.get?_transpose.trans present
  constructor
  · rw [rowKeys_index, rowKeys_index, rowKeys_replaced present]
  · have columns := rowKeys_replaced (v := v) mirrored
    rw [← SparseTable.transpose_insert] at columns
    rw [columnKeys_index, columnKeys_index]
    exact columns
  · intro c
    rw [keysOf_row?_index, keysOf_row?_index, keys_rowMap_replaced present]
  · intro d
    rw [keysOf_column?_index, keysOf_column?_index, SparseTable.transpose_insert,
      keys_rowMap_replaced mirrored]
  · simp only [pairs_index, rowKeys_replaced present, keys_rowMap_replaced present]

/-- A part of a list that some test tells is told by membership too. -/
theorem filter_contains {κ : Type} [DecidableEq κ] {keys others : List κ} {test : κ → Bool}
    (h : others = keys.filter test) : others = keys.filter others.contains := by
  rw [h]
  refine List.filter_congr fun k hk => ?_
  simp [hk]

theorem contains_keep : (t.keep p).index.contains a b = (p a b && t.index.contains a b) := by
  rw [contains, contains, SparseTable.get?_index, SparseTable.get?_index, SparseTable.get?_keep]
  cases p a b with
  | true => rfl
  | false => rfl

theorem contains_index : t.index.contains a b = true ↔ ∃ v, t.get? a b = some v := by
  rw [contains, SparseTable.get?_index, Option.isSome_iff_exists]

theorem row_thinned (a : α) :
    (t.keep p).row a = (t.row a).filter fun e => (t.keep p).index.contains a e.1 := by
  rw [SparseTable.row_keep]
  refine List.filter_congr fun e he => ?_
  have there : t.index.contains a e.1 = true := contains_index.2 ⟨e.2, SparseTable.mem_row.1 he⟩
  rw [contains_keep, there, Bool.and_true]

theorem rowKeys_thinned : (t.keep p).rowKeys = t.rowKeys.filter (t.keep p).rowKeys.contains :=
  filter_contains (SparseTable.rowKeys_keep p)

theorem hasRow_index : t.index.hasRow = t.rowKeys.contains := by
  funext a
  exact congrArg (List.contains · a) rowKeys_index

theorem hasColumn_index : t.index.hasColumn = t.columnKeys.contains := by
  funext b
  exact congrArg (List.contains · b) columnKeys_index

theorem thinned_keep : Thinned t.index (t.keep p).index := by
  constructor
  · rw [rowKeys_index, rowKeys_index, hasRow_index]
    exact rowKeys_thinned p
  · have columns := rowKeys_thinned (t := t.transpose) fun b a => p a b
    rw [← SparseTable.transpose_keep] at columns
    rw [columnKeys_index, columnKeys_index, hasColumn_index]
    exact columns
  · intro a
    rw [itemsOf_row?_index, itemsOf_row?_index, row_thinned]
  · intro b
    rw [itemsOf_column?_index, itemsOf_column?_index, SparseTable.column_keep]
    refine List.filter_congr fun e he => ?_
    have there : t.index.contains e.1 b = true :=
      contains_index.2 ⟨e.2, SparseTable.mem_column.1 he⟩
    rw [contains_keep, there, Bool.and_true]
  · rw [entries_index, entries_index, SparseTable.entries_keep, List.filter_map]
    congr 1
    refine List.filter_congr fun c hc => ?_
    have there : t.index.contains c.row c.column = true :=
      contains_index.2 ⟨c.value, SparseTable.mem_entries.1 hc⟩
    simp only [Function.comp_apply]
    rw [contains_keep, there, Bool.and_true]

/-- The first of all pairs is popped. -/
theorem pop_index : t.index.pop.1 = t.index.entries.head? ∧
    t.index.pop.2.entries = t.index.entries.tail := by
  have apart := SparseTable.pairwise_entries t
  simp only [SparseTable.index_pop, SparseTable.pop?, entries_index]
  cases listed : t.entries with
  | nil =>
    refine ⟨rfl, ?_⟩
    rw [List.head?_nil, Option.map_none, entries_index, listed]
    rfl
  | cons c rest =>
    rw [listed, List.pairwise_cons] at apart
    have left : (t.erase c.row c.column).entries = rest := by
      rw [SparseTable.erase, SparseTable.entries_keep, listed, List.filter_cons_of_neg (by simp)]
      refine List.filter_eq_self.2 fun d hd => ?_
      have away := apart.1 d hd
      simp only [Bool.not_eq_true', Bool.and_eq_false_iff, decide_eq_false_iff_not]
      exact not_and_or.1 fun same => away ⟨same.1.symm, same.2.symm⟩
    refine ⟨rfl, ?_⟩
    rw [List.head?_cons, Option.map_some, entries_index, left]
    rfl

end Kept

/-! ## The order of a table -/

/-- After requests to an empty table, every list has the keys that stand in the table, by the step at
which each of them last came. -/
structure ListedInOrder (requests : List (Request α β ν)) : Prop where
  mem_rows : ∀ a, a ∈ (afterAll requests).rows.keys ↔ ∃ b v, (afterAll requests).get? a b = some v
  rows : ListedByStep (RowComes requests) (afterAll requests).rows.keys
  mem_columns : ∀ b,
    b ∈ (afterAll requests).columns.keys ↔ ∃ a v, (afterAll requests).get? a b = some v
  columns : ListedByStep (ColumnComes requests) (afterAll requests).columns.keys
  mem_row : ∀ a b,
    b ∈ keysOf ((afterAll requests).row? a) ↔ ∃ v, (afterAll requests).get? a b = some v
  row : ∀ a, ListedByStep (Inserts requests a) (keysOf ((afterAll requests).row? a))
  mem_column : ∀ b a,
    a ∈ keysOf ((afterAll requests).column? b) ↔ ∃ v, (afterAll requests).get? a b = some v
  column : ∀ b, ListedByStep (fun a => Inserts requests a b) (keysOf ((afterAll requests).column? b))

theorem listedInOrder (requests : List (Request α β ν)) : ListedInOrder requests where
  mem_rows _ := mem_rows_keys
  rows := listedByStep_rows_keys requests
  mem_columns _ := mem_columns_keys
  columns := listedByStep_columns_keys requests
  mem_row _ _ := mem_keysOf_row?
  row := listedByStep_row requests
  mem_column _ _ := mem_keysOf_column?
  column := listedByStep_column requests

/-- After any requests to an empty table, the keys of the rows, of the columns, of each row and of
each column are listed by the step at which they last came. A value that is replaced moves nothing,
a removal keeps the order of what is left, and the first of all pairs is popped. -/
theorem order_afterAll (requests : List (Request α β ν)) :
    ListedInOrder requests ∧
      (∀ a b v, (afterAll requests).contains a b = true →
        SameOrder (afterAll requests) ((afterAll requests).insert a b v).2) ∧
      (∀ request : Request α β ν, request.Removes →
        Thinned (afterAll requests) ((afterAll requests).answer request).2) ∧
      (afterAll requests).pop.1 = (afterAll requests).entries.head? ∧
      (afterAll requests).pop.2.entries = (afterAll requests).entries.tail := by
  refine ⟨listedInOrder requests, ?_⟩
  obtain ⟨t, table⟩ := exists_afterAll requests
  rw [table]
  refine ⟨fun a b v present => ?_, fun request removes => ?_, pop_index⟩
  · obtain ⟨w, found⟩ := contains_index.1 present
    rw [SparseTable.index_insert]
    exact sameOrder_insert found
  · rcases answer_cases t request with ⟨a, b, v, rfl, _⟩ | ⟨_, p, after⟩
    · exact absurd removes id
    · rw [after]
      exact thinned_keep p

/-- A pair that was removed and comes again is the last of its column, in a row that stayed the
first. -/
theorem order_afterAll_back :
    let t : IndexedTable Nat Nat String :=
      afterAll [.insert 0 1 "a", .insert 0 2 "b", .insert 1 2 "c", .remove 0 2, .insert 0 2 "d"]
    t.rows.keys = [0, 1] ∧ keysOf (t.column? 2) = [1, 0] ∧
      (t.contains 0 2 = true ∧ SameOrder t (t.insert 0 2 "e").2) ∧
      (Request.Removes (.removeColumn 1 : Request Nat Nat String) ∧
        Thinned t (t.answer (.removeColumn 1)).2) :=
  ⟨by decide, by decide, ⟨by decide, (order_afterAll _).2.1 0 2 "e" (by decide)⟩,
    trivial, (order_afterAll _).2.2.1 (.removeColumn 1) trivial⟩

end IndexedTable

end PatternGroups
