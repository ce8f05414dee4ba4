/-!
Finite maps in the order in which their keys came. A value that is replaced keeps its place, a new
key comes last, and a removal leaves the order of the rest as it was.
-/

namespace PatternGroups

structure OrderedMap (κ ν : Type) where
  entries : List (κ × ν)
  /-- No key occurs twice. -/
  distinct : entries.Pairwise fun d e => d.1 ≠ e.1

namespace OrderedMap

variable {κ ν : Type}

def empty : OrderedMap κ ν := ⟨[], .nil⟩

instance : Inhabited (OrderedMap κ ν) := ⟨empty⟩

def keys (m : OrderedMap κ ν) : List κ := m.entries.map Prod.fst

def size (m : OrderedMap κ ν) : Nat := m.entries.length

def isEmpty (m : OrderedMap κ ν) : Bool := m.entries.isEmpty

/-- The map of some keys by a function. -/
def tabulate (keys : List κ) (nodup : keys.Nodup) (f : κ → ν) : OrderedMap κ ν where
  entries := keys.map fun k => (k, f k)
  distinct := List.pairwise_map.2 nodup

variable [DecidableEq κ]

def get? (m : OrderedMap κ ν) (k : κ) : Option ν :=
  (m.entries.find? (·.1 = k)).map Prod.snd

def contains (m : OrderedMap κ ν) (k : κ) : Bool := m.keys.contains k

/-- An entry with another value, if it is that of a given key. -/
def put (k : κ) (v : ν) (e : κ × ν) : κ × ν := if e.1 = k then (k, v) else e

theorem put_fst (k : κ) (v : ν) (e : κ × ν) : (put k v e).1 = e.1 := by
  unfold put
  split
  · rename_i h
    exact h.symm
  · rfl

/-- Gives a value to a key. -/
def insert (m : OrderedMap κ ν) (k : κ) (v : ν) : OrderedMap κ ν :=
  if h : k ∈ m.keys then
    { entries := m.entries.map (put k v)
      distinct := by simpa only [List.pairwise_map, put_fst] using m.distinct }
  else
    { entries := m.entries ++ [(k, v)]
      distinct := by
        refine List.pairwise_append.2 ⟨m.distinct, List.pairwise_singleton _ _, fun d hd e he => ?_⟩
        rw [List.mem_singleton.1 he]
        rintro rfl
        exact h (List.mem_map_of_mem hd) }

def erase (m : OrderedMap κ ν) (k : κ) : OrderedMap κ ν where
  entries := m.entries.filter (·.1 ≠ k)
  distinct := m.distinct.filter _

end OrderedMap

end PatternGroups
