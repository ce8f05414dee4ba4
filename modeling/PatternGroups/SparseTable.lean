import PatternGroups.IndexedTable

/-!
Sparse tables. A cell stands in a row and a column, and each row and each column can be listed.
Cells, rows and columns keep the order in which they appeared: a value that is replaced keeps its
place, and a removal leaves the order of the rest as it was. A row or column without cells is none.
With two indexes a table is an `IndexedTable`.

Main statements:
- `get?_insert`, `get?_keep`: what a table holds after each operation;
- `mem_row`, `mem_column`: rows and columns list what `get?` finds.
-/

namespace PatternGroups

structure SparseTable.Cell (α β ν : Type) where
  row : α
  column : β
  value : ν
deriving DecidableEq

open SparseTable in
/-- Cells in the order of their first insertion, together with the rows and the columns in the
order in which they came to hold a cell. -/
structure SparseTable (α β ν : Type) where
  cells : List (Cell α β ν)
  rowKeys : List α
  columnKeys : List β
  /-- No two cells share both keys. -/
  distinct : cells.Pairwise fun c d => ¬(c.row = d.row ∧ c.column = d.column)
  rowKeys_nodup : rowKeys.Nodup
  columnKeys_nodup : columnKeys.Nodup
  mem_rowKeys : ∀ {a}, a ∈ rowKeys ↔ ∃ c ∈ cells, c.row = a
  mem_columnKeys : ∀ {b}, b ∈ columnKeys ↔ ∃ c ∈ cells, c.column = b

namespace SparseTable

variable {α β ν : Type} [DecidableEq α] [DecidableEq β]

/-- A list of keys with one more, at its end, unless it is there already. -/
def addKey {κ : Type} [DecidableEq κ] (keys : List κ) (k : κ) : List κ :=
  if k ∈ keys then keys else keys ++ [k]

theorem mem_addKey {κ : Type} [DecidableEq κ] {keys : List κ} {k l : κ} :
    l ∈ addKey keys k ↔ l ∈ keys ∨ l = k := by
  unfold addKey
  split
  · rename_i h
    exact ⟨Or.inl, fun hl => hl.elim id (· ▸ h)⟩
  · simp

theorem addKey_nodup {κ : Type} [DecidableEq κ] {keys : List κ} {k : κ} (h : keys.Nodup) :
    (addKey keys k).Nodup := by
  unfold addKey
  split
  · exact h
  · rename_i hk
    simp only [List.nodup_append, h, List.nodup_cons, List.not_mem_nil, not_false_eq_true,
      List.nodup_nil, and_self, List.mem_singleton, true_and]
    rintro a ha b rfl rfl
    exact hk ha

/-- Whether a cell stands in a given row and column. -/
def Cell.isAt (c : Cell α β ν) (a : α) (b : β) : Bool :=
  c.row = a && c.column = b

@[simp] theorem Cell.isAt_iff {c : Cell α β ν} {a : α} {b : β} :
    c.isAt a b = true ↔ c.row = a ∧ c.column = b := by
  simp [Cell.isAt]

def empty : SparseTable α β ν where
  cells := []
  rowKeys := []
  columnKeys := []
  distinct := .nil
  rowKeys_nodup := .nil
  columnKeys_nodup := .nil
  mem_rowKeys := by simp
  mem_columnKeys := by simp

instance : Inhabited (SparseTable α β ν) := ⟨empty⟩

def get? (t : SparseTable α β ν) (a : α) (b : β) : Option ν :=
  (t.cells.find? (·.isAt a b)).map (·.value)

def size (t : SparseTable α β ν) : Nat := t.cells.length

/-- The cells of a row, in order. -/
def row (t : SparseTable α β ν) (a : α) : List (β × ν) :=
  (t.cells.filter (·.row = a)).map fun c => (c.column, c.value)

/-- The cells of a column, in order. -/
def column (t : SparseTable α β ν) (b : β) : List (α × ν) :=
  (t.cells.filter (·.column = b)).map fun c => (c.row, c.value)

def hasRow (t : SparseTable α β ν) (a : α) : Bool := t.rowKeys.contains a

def hasColumn (t : SparseTable α β ν) (b : β) : Bool := t.columnKeys.contains b

/-- All cells, row by row. -/
def entries (t : SparseTable α β ν) : List (Cell α β ν) :=
  t.rowKeys.flatMap fun a => t.cells.filter (·.row = a)

/-- The cell with another value, if it stands at a given place. -/
def Cell.put (a : α) (b : β) (v : ν) (c : Cell α β ν) : Cell α β ν :=
  if c.isAt a b then { c with value := v } else c

@[simp] theorem Cell.put_row (a : α) (b : β) (v : ν) (c : Cell α β ν) :
    (c.put a b v).row = c.row := by
  unfold Cell.put; split <;> rfl

@[simp] theorem Cell.put_column (a : α) (b : β) (v : ν) (c : Cell α β ν) :
    (c.put a b v).column = c.column := by
  unfold Cell.put; split <;> rfl

/-- Gives a new value to a cell that is there. -/
def replace (t : SparseTable α β ν) (a : α) (b : β) (v : ν) : SparseTable α β ν :=
  { t with
    cells := t.cells.map (Cell.put a b v)
    distinct := by simpa [List.pairwise_map] using t.distinct
    mem_rowKeys := by
      intro k
      simp only [t.mem_rowKeys, List.mem_map]
      exact ⟨fun ⟨c, hc, hk⟩ => ⟨_, ⟨c, hc, rfl⟩, by simpa using hk⟩,
        fun ⟨_, ⟨c, hc, hd⟩, hk⟩ => ⟨c, hc, by simpa [← hd] using hk⟩⟩
    mem_columnKeys := by
      intro k
      simp only [t.mem_columnKeys, List.mem_map]
      exact ⟨fun ⟨c, hc, hk⟩ => ⟨_, ⟨c, hc, rfl⟩, by simpa using hk⟩,
        fun ⟨_, ⟨c, hc, hd⟩, hk⟩ => ⟨c, hc, by simpa [← hd] using hk⟩⟩ }

theorem get?_eq_none_iff {t : SparseTable α β ν} {a : α} {b : β} :
    t.get? a b = none ↔ ∀ c ∈ t.cells, ¬(c.row = a ∧ c.column = b) := by
  simp [get?]

/-- Adds a cell that is not there yet. -/
def append (t : SparseTable α β ν) (a : α) (b : β) (v : ν) (h : t.get? a b = none) :
    SparseTable α β ν where
  cells := t.cells ++ [⟨a, b, v⟩]
  rowKeys := addKey t.rowKeys a
  columnKeys := addKey t.columnKeys b
  distinct := by
    refine List.pairwise_append.2 ⟨t.distinct, List.pairwise_singleton _ _, fun c hc d hd => ?_⟩
    rw [List.mem_singleton.1 hd]
    exact get?_eq_none_iff.1 h c hc
  rowKeys_nodup := addKey_nodup t.rowKeys_nodup
  columnKeys_nodup := addKey_nodup t.columnKeys_nodup
  mem_rowKeys := by
    intro k
    simp [mem_addKey, t.mem_rowKeys, or_and_right, exists_or, eq_comm]
  mem_columnKeys := by
    intro k
    simp [mem_addKey, t.mem_columnKeys, or_and_right, exists_or, eq_comm]

/-- Sets a cell: in place if it is there, else at the end of its row and its column. -/
def insert (t : SparseTable α β ν) (a : α) (b : β) (v : ν) : SparseTable α β ν :=
  if h : t.get? a b = none then t.append a b v h else t.replace a b v

/-- Removes the cells that a test fails, and the rows and columns emptied by that. -/
def keep (p : α → β → Bool) (t : SparseTable α β ν) : SparseTable α β ν :=
  let cells := t.cells.filter fun c => p c.row c.column
  { cells
    rowKeys := t.rowKeys.filter fun a => cells.any (·.row = a)
    columnKeys := t.columnKeys.filter fun b => cells.any (·.column = b)
    distinct := t.distinct.filter _
    rowKeys_nodup := t.rowKeys_nodup.filter _
    columnKeys_nodup := t.columnKeys_nodup.filter _
    mem_rowKeys := by
      intro a
      simp only [List.mem_filter, t.mem_rowKeys, List.any_eq_true, decide_eq_true_eq, cells]
      exact ⟨fun h => h.2, fun ⟨c, hc, ha⟩ => ⟨⟨c, hc.1, ha⟩, c, hc, ha⟩⟩
    mem_columnKeys := by
      intro b
      simp only [List.mem_filter, t.mem_columnKeys, List.any_eq_true, decide_eq_true_eq, cells]
      exact ⟨fun h => h.2, fun ⟨c, hc, hb⟩ => ⟨⟨c, hc.1, hb⟩, c, hc, hb⟩⟩ }

def erase (t : SparseTable α β ν) (a : α) (b : β) : SparseTable α β ν :=
  t.keep fun c d => !(c = a && d = b)

def eraseRow (t : SparseTable α β ν) (a : α) : SparseTable α β ν :=
  t.keep fun c _ => c ≠ a

def eraseColumn (t : SparseTable α β ν) (b : β) : SparseTable α β ν :=
  t.keep fun _ d => d ≠ b

/-- The first cell of the first row, and the table without it. -/
def pop? (t : SparseTable α β ν) : Option (Cell α β ν × SparseTable α β ν) :=
  t.entries.head?.map fun c => (c, t.erase c.row c.column)

/-- The table of some cells, inserted one after the other. -/
def ofCells (cells : List (Cell α β ν)) : SparseTable α β ν :=
  cells.foldl (fun t c => t.insert c.row c.column c.value) empty

/-! Indexes -/

def Cell.flip (c : Cell α β ν) : Cell β α ν := ⟨c.column, c.row, c.value⟩

/-- The table with rows and columns exchanged. -/
def transpose (t : SparseTable α β ν) : SparseTable β α ν where
  cells := t.cells.map Cell.flip
  rowKeys := t.columnKeys
  columnKeys := t.rowKeys
  distinct := by
    rw [List.pairwise_map]
    exact t.distinct.imp fun differ same => differ ⟨same.2, same.1⟩
  rowKeys_nodup := t.columnKeys_nodup
  columnKeys_nodup := t.rowKeys_nodup
  mem_rowKeys := by
    intro b
    simp only [t.mem_columnKeys, List.mem_map]
    exact ⟨fun ⟨c, hc, hb⟩ => ⟨_, ⟨c, hc, rfl⟩, hb⟩, fun ⟨_, ⟨c, hc, rfl⟩, hb⟩ => ⟨c, hc, hb⟩⟩
  mem_columnKeys := by
    intro a
    simp only [t.mem_rowKeys, List.mem_map]
    exact ⟨fun ⟨c, hc, ha⟩ => ⟨_, ⟨c, hc, rfl⟩, ha⟩, fun ⟨_, ⟨c, hc, rfl⟩, ha⟩ => ⟨c, hc, ha⟩⟩

/-- A row, as a map. -/
def rowMap (t : SparseTable α β ν) (a : α) : OrderedMap β ν where
  entries := t.row a
  distinct := by
    refine List.pairwise_map.2 ((t.distinct.filter _).imp_of_mem ?_)
    intro c d hc hd differ same
    simp only [List.mem_filter, decide_eq_true_eq] at hc hd
    exact differ ⟨hc.2.trans hd.2.symm, same⟩

/-- The items of a table by rows. -/
def rowIndex (t : SparseTable α β ν) : IndexedTable.Index α β ν :=
  .tabulate t.rowKeys t.rowKeys_nodup t.rowMap

/-- The two indexes of a table. -/
def index (t : SparseTable α β ν) : IndexedTable α β ν := ⟨t.rowIndex, t.transpose.rowIndex⟩

/-! What a table holds -/

/-- A table finds exactly the cells that it holds. -/
theorem get?_eq_some_iff {t : SparseTable α β ν} {a : α} {b : β} {v : ν} :
    t.get? a b = some v ↔ ⟨a, b, v⟩ ∈ t.cells := by
  constructor
  · intro h
    obtain ⟨c, hc, rfl⟩ := Option.map_eq_some_iff.1 h
    have hat : c.isAt a b = true := by simpa using List.find?_some hc
    obtain ⟨rfl, rfl⟩ := Cell.isAt_iff.1 hat
    exact List.mem_of_find?_eq_some hc
  · intro h
    have found : ∀ cells : List (Cell α β ν),
        cells.Pairwise (fun c d => ¬(c.row = d.row ∧ c.column = d.column)) →
        ⟨a, b, v⟩ ∈ cells → (cells.find? (·.isAt a b)).map (·.value) = some v := by
      intro cells
      induction cells with
      | nil => simp
      | cons c rest ih =>
        intro hd hm
        rw [List.pairwise_cons] at hd
        rcases List.mem_cons.1 hm with rfl | hm
        · simp [Cell.isAt]
        · have hc : c.isAt a b = false := by
            rw [Bool.eq_false_iff, Ne, Cell.isAt_iff]
            exact hd.1 _ hm
          simpa [List.find?_cons, hc] using ih hd.2 hm
    exact found t.cells t.distinct h

theorem get?_append (t : SparseTable α β ν) (a c : α) (b d : β) (v : ν) (h : t.get? a b = none) :
    (t.append a b v h).get? c d = if c = a ∧ d = b then some v else t.get? c d := by
  apply Option.ext
  intro w
  rw [get?_eq_some_iff]
  simp only [append, List.mem_append, List.mem_singleton, Cell.mk.injEq]
  split
  · rename_i hc
    obtain ⟨rfl, rfl⟩ := hc
    have := get?_eq_none_iff.1 h
    simp only [Option.some.injEq]
    exact ⟨fun hw => hw.elim (fun hw => (this _ hw ⟨rfl, rfl⟩).elim) fun hw => hw.2.2.symm,
      fun hw => .inr ⟨trivial, trivial, hw.symm⟩⟩
  · rename_i hc
    rw [get?_eq_some_iff]
    exact ⟨fun hw => hw.elim id fun hw => (hc ⟨hw.1, hw.2.1⟩).elim, .inl⟩

theorem get?_replace (t : SparseTable α β ν) (a c : α) (b d : β) (v : ν)
    (h : t.get? a b ≠ none) :
    (t.replace a b v).get? c d = if c = a ∧ d = b then some v else t.get? c d := by
  obtain ⟨u, hu⟩ := Option.ne_none_iff_exists'.1 h
  apply Option.ext
  intro w
  rw [get?_eq_some_iff]
  simp only [replace, List.mem_map]
  split
  · rename_i hc
    obtain ⟨rfl, rfl⟩ := hc
    constructor
    · rintro ⟨x, hx, hw⟩
      have hat : x.isAt c d = true :=
        Cell.isAt_iff.2
          ⟨by simpa using congrArg Cell.row hw, by simpa using congrArg Cell.column hw⟩
      simpa [Cell.put, hat] using congrArg Cell.value hw
    · intro hw
      exact ⟨_, get?_eq_some_iff.1 hu, by simp_all [Cell.put, Cell.isAt]⟩
  · rename_i hc
    rw [get?_eq_some_iff]
    constructor
    · rintro ⟨x, hx, hw⟩
      have hrow : x.row = c := by simpa using congrArg Cell.row hw
      have hcolumn : x.column = d := by simpa using congrArg Cell.column hw
      have hat : x.isAt a b = false := by
        rw [Bool.eq_false_iff, Ne, Cell.isAt_iff, hrow, hcolumn]
        exact hc
      rw [Cell.put, hat] at hw
      exact hw ▸ hx
    · intro hw
      have hat : (⟨c, d, w⟩ : Cell α β ν).isAt a b = false := by
        rw [Bool.eq_false_iff, Ne, Cell.isAt_iff]
        exact hc
      exact ⟨_, hw, by rw [Cell.put, hat]; rfl⟩

theorem get?_insert (t : SparseTable α β ν) (a c : α) (b d : β) (v : ν) :
    (t.insert a b v).get? c d = if c = a ∧ d = b then some v else t.get? c d := by
  unfold insert
  split
  · exact t.get?_append a c b d v _
  · rename_i h
    exact t.get?_replace a c b d v h

theorem get?_keep (t : SparseTable α β ν) (p : α → β → Bool) (a : α) (b : β) :
    (t.keep p).get? a b = if p a b then t.get? a b else none := by
  apply Option.ext
  intro w
  rw [get?_eq_some_iff]
  simp only [keep, List.mem_filter]
  split
  · rename_i h
    simp [get?_eq_some_iff, h]
  · rename_i h
    simp [h]

theorem mem_row {t : SparseTable α β ν} {a : α} {b : β} {v : ν} :
    (b, v) ∈ t.row a ↔ t.get? a b = some v := by
  rw [get?_eq_some_iff]
  simp only [row, List.mem_map, List.mem_filter, decide_eq_true_eq, Prod.mk.injEq]
  constructor
  · rintro ⟨c, ⟨hc, rfl⟩, rfl, rfl⟩
    exact hc
  · intro h
    exact ⟨_, ⟨h, rfl⟩, rfl, rfl⟩

theorem mem_column {t : SparseTable α β ν} {a : α} {b : β} {v : ν} :
    (a, v) ∈ t.column b ↔ t.get? a b = some v := by
  rw [get?_eq_some_iff]
  simp only [column, List.mem_map, List.mem_filter, decide_eq_true_eq, Prod.mk.injEq]
  constructor
  · rintro ⟨c, ⟨hc, rfl⟩, rfl, rfl⟩
    exact hc
  · intro h
    exact ⟨_, ⟨h, rfl⟩, rfl, rfl⟩

end SparseTable

end PatternGroups
