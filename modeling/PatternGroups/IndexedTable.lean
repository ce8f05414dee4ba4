import PatternGroups.OrderedMap

/-!
Sparse tables with two indexes. The items are kept twice, by rows and by columns, and every
operation changes both indexes. A row or column whose last item is removed disappears from its index.
-/

namespace PatternGroups

namespace IndexedTable

/-- Items by a first and a second key. -/
abbrev Index (κ μ ν : Type) := OrderedMap κ (OrderedMap μ ν)

namespace Index

variable {κ μ ν : Type} [DecidableEq κ] [DecidableEq μ]

def item? (index : Index κ μ ν) (k : κ) (l : μ) : Option ν :=
  (index.get? k).bind (·.get? l)

def put (index : Index κ μ ν) (k : κ) (l : μ) (v : ν) : Index κ μ ν :=
  index.insert k (((index.get? k).getD .empty).insert l v)

/-- Removes an item, and its first key if nothing is left there. -/
def drop (index : Index κ μ ν) (k : κ) (l : μ) : Index κ μ ν :=
  match index.get? k with
  | none => index
  | some items =>
    let rest := items.erase l
    if rest.isEmpty then index.erase k else index.insert k rest

end Index

/-- How two indexes can disagree. -/
inductive Mismatch (α β : Type) where
  | emptyRow (a : α)
  /-- An item of a row that the column does not have. -/
  | onlyInRow (a : α) (b : β)
  | emptyColumn (b : β)
  /-- An item of a column that the row does not have. -/
  | onlyInColumn (b : β) (a : α)
deriving DecidableEq

/-- The same mismatch, with other keys for the columns. -/
def Mismatch.mapColumns {α β γ : Type} (f : β → γ) : Mismatch α β → Mismatch α γ
  | emptyRow a => .emptyRow a
  | onlyInRow a b => .onlyInRow a (f b)
  | emptyColumn b => .emptyColumn (f b)
  | onlyInColumn b a => .onlyInColumn (f b) a

def Mismatch.message {α β : Type} [ToString α] [ToString β] : Mismatch α β → String
  | emptyRow a => s!"empty forward entry for {a}"
  | onlyInRow a b => s!"{a} -> {b} has no matching backward entry"
  | emptyColumn b => s!"empty backward entry for {b}"
  | onlyInColumn b a => s!"{b} <- {a} has no matching forward entry"

end IndexedTable

structure IndexedTable (α β ν : Type) where
  rows : IndexedTable.Index α β ν
  columns : IndexedTable.Index β α ν

namespace IndexedTable

variable {α β ν : Type}

def empty : IndexedTable α β ν := ⟨.empty, .empty⟩

instance : Inhabited (IndexedTable α β ν) := ⟨empty⟩

/-- All items with their keys, row by row. -/
def entries (t : IndexedTable α β ν) : List (α × β × ν) :=
  t.rows.entries.flatMap fun (a, items) => items.entries.map (a, ·)

def size (t : IndexedTable α β ν) : Nat :=
  t.rows.entries.foldl (fun n e => n + e.2.size) 0

def isEmpty (t : IndexedTable α β ν) : Bool := t.rows.isEmpty

variable [DecidableEq α] [DecidableEq β]

def get? (t : IndexedTable α β ν) (a : α) (b : β) : Option ν := t.rows.item? a b

def contains (t : IndexedTable α β ν) (a : α) (b : β) : Bool := (t.get? a b).isSome

/-- The items of a row, if there are any. -/
def row? (t : IndexedTable α β ν) (a : α) : Option (OrderedMap β ν) := t.rows.get? a

/-- The items of a column, if there are any. -/
def column? (t : IndexedTable α β ν) (b : β) : Option (OrderedMap α ν) := t.columns.get? b

def hasRow (t : IndexedTable α β ν) (a : α) : Bool := t.rows.contains a

def hasColumn (t : IndexedTable α β ν) (b : β) : Bool := t.columns.contains b

/-- The item that was there before, and the table with an item. -/
def insert (t : IndexedTable α β ν) (a : α) (b : β) (v : ν) : Option ν × IndexedTable α β ν :=
  (t.rows.item? a b, ⟨t.rows.put a b v, t.columns.put b a v⟩)

/-- The item that was there, and the table without it. -/
def remove (t : IndexedTable α β ν) (a : α) (b : β) : Option ν × IndexedTable α β ν :=
  let columns := t.columns.drop b a
  match t.rows.get? a with
  | none => (none, { t with columns })
  | some items => (items.get? b, ⟨t.rows.drop a b, columns⟩)

/-- Some item with its keys, if there is one, and the table without it. -/
def pop (t : IndexedTable α β ν) : Option (α × β × ν) × IndexedTable α β ν :=
  match t.rows.entries.head? with
  | none => (none, t)
  | some (a, items) =>
    match items.entries.head? with
    | none => (none, t)
    | some (b, _) =>
      let (item, rest) := t.remove a b
      (item.map (a, b, ·), rest)

def removeRow (t : IndexedTable α β ν) (a : α) : IndexedTable α β ν :=
  match t.rows.get? a with
  | none => t
  | some items =>
    ⟨t.rows.erase a, items.keys.foldl (fun columns b => columns.drop b a) t.columns⟩

def removeColumn (t : IndexedTable α β ν) (b : β) : IndexedTable α β ν :=
  match t.columns.get? b with
  | none => t
  | some items =>
    ⟨items.keys.foldl (fun rows a => rows.drop a b) t.rows, t.columns.erase b⟩

/-! Consistency -/

/-- The first key without items, or the first item that another index does not have. -/
def Index.mismatch? {κ μ φ : Type} [DecidableEq κ] [DecidableEq μ] [DecidableEq ν]
    (unused : κ → φ) (unmatched : κ → μ → φ) (index : Index κ μ ν) (mirror : Index μ κ ν) :
    Option φ :=
  index.entries.findSome? fun (k, items) =>
    if items.isEmpty then some (unused k)
    else items.entries.findSome? fun (l, v) =>
      if mirror.item? l k ≠ some v then some (unmatched k l) else none

/-- The first disagreement of the indexes, of the rows first. -/
def mismatch? [DecidableEq ν] (t : IndexedTable α β ν) : Option (Mismatch α β) :=
  (t.rows.mismatch? .emptyRow .onlyInRow t.columns).or
    (t.columns.mismatch? .emptyColumn .onlyInColumn t.rows)

/-! Requests -/

inductive Request (α β ν : Type) where
  | insert (a : α) (b : β) (v : ν)
  | remove (a : α) (b : β)
  | pop
  | removeRow (a : α)
  | removeColumn (b : β)

inductive Reply (α β ν : Type) where
  /-- The item that was there. -/
  | item (v : Option ν)
  | popped (entry : Option (α × β × ν))
  | done
deriving DecidableEq

def answer (t : IndexedTable α β ν) : Request α β ν → Reply α β ν × IndexedTable α β ν
  | .insert a b v =>
    let (previous, t) := t.insert a b v
    (.item previous, t)
  | .remove a b =>
    let (item, t) := t.remove a b
    (.item item, t)
  | .pop =>
    let (entry, t) := t.pop
    (.popped entry, t)
  | .removeRow a => (.done, t.removeRow a)
  | .removeColumn b => (.done, t.removeColumn b)

/-- The replies to requests, one after the other, and the table after them. -/
def answers (t : IndexedTable α β ν) :
    List (Request α β ν) → List (Reply α β ν) × IndexedTable α β ν
  | [] => ([], t)
  | request :: rest =>
    let (reply, t) := t.answer request
    let (replies, t) := t.answers rest
    (reply :: replies, t)

end IndexedTable

end PatternGroups
