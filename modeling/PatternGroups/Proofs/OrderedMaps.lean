import PatternGroups.OrderedMap

/-!
# Ordered maps

* `get?_eq_some_iff`, `get?_eq_none_iff`: a lookup finds what is listed;
* `insert_tabulate`, `insert_tabulate_new`, `erase_tabulate`: what becomes of keys and function.
-/

namespace PatternGroups.OrderedMap

variable {κ ν : Type}

theorem eq_of_entries {m n : OrderedMap κ ν} (h : m.entries = n.entries) : m = n := by
  cases m
  cases n
  cases h
  rfl

theorem isEmpty_iff {m : OrderedMap κ ν} : m.isEmpty = true ↔ m = empty := by
  rw [isEmpty, List.isEmpty_iff]
  exact ⟨fun h => eq_of_entries h, fun h => h ▸ rfl⟩

variable {keys others : List κ} {nodup : keys.Nodup} {f g : κ → ν}

theorem tabulate_congr {distinct : others.Nodup} (same : keys = others)
    (h : ∀ k ∈ keys, f k = g k) : tabulate keys nodup f = tabulate others distinct g := by
  subst same
  exact eq_of_entries (List.map_congr_left fun k hk => by rw [h k hk])

theorem keys_tabulate : (tabulate keys nodup f).keys = keys := by
  rw [OrderedMap.keys, tabulate, List.map_map]
  exact List.map_id' keys

variable [DecidableEq κ] {m : OrderedMap κ ν} {k : κ} {v : ν}

/-! ## Lookups -/

theorem get?_eq_some_iff : m.get? k = some v ↔ (k, v) ∈ m.entries := by
  have found {entries : List (κ × ν)} (distinct : entries.Pairwise fun d e => d.1 ≠ e.1) :
      (entries.find? (·.1 = k)).map Prod.snd = some v ↔ (k, v) ∈ entries := by
    induction entries with
    | nil => simp
    | cons e rest ih =>
      obtain ⟨l, w⟩ := e
      rw [List.pairwise_cons] at distinct
      rw [List.find?_cons, List.mem_cons, Prod.mk.injEq]
      by_cases same : l = k
      · have later : (k, v) ∉ rest := fun h => distinct.1 (k, v) h same
        simp [same, later, eq_comm]
      · have earlier : k ≠ l := fun h => same h.symm
        simpa [same, earlier] using ih distinct.2
  exact found m.distinct

theorem mem_keys_iff : k ∈ m.keys ↔ ∃ v, m.get? k = some v := by
  simp only [get?_eq_some_iff, OrderedMap.keys, List.mem_map, Prod.exists, exists_and_right,
    exists_eq_right]

theorem get?_eq_none_iff : m.get? k = none ↔ k ∉ m.keys := by
  rw [mem_keys_iff, Option.eq_none_iff_forall_ne_some, not_exists]

theorem contains_iff : m.contains k = true ↔ ∃ v, m.get? k = some v := by
  rw [contains, List.contains_iff_mem, mem_keys_iff]

theorem get?_tabulate : (tabulate keys nodup f).get? k = if k ∈ keys then some (f k) else none := by
  split
  · rename_i hk
    exact get?_eq_some_iff.2 (List.mem_map.2 ⟨k, hk, rfl⟩)
  · rename_i hk
    rwa [get?_eq_none_iff, keys_tabulate]

/-! ## Operations -/

theorem entries_insert (h : k ∈ m.keys) : (m.insert k v).entries = m.entries.map (put k v) := by
  rw [insert, dif_pos h]

theorem entries_insert_new (h : k ∉ m.keys) : (m.insert k v).entries = m.entries ++ [(k, v)] := by
  rw [insert, dif_neg h]

theorem keys_insert : (m.insert k v).keys = if k ∈ m.keys then m.keys else m.keys ++ [k] := by
  split
  · rename_i h
    rw [OrderedMap.keys, entries_insert h, List.map_map]
    exact List.map_congr_left fun e _ => put_fst k v e
  · rename_i h
    simp [OrderedMap.keys, entries_insert_new h]

/-- A value for a key that is there. -/
theorem insert_tabulate (hk : k ∈ keys) : (tabulate keys nodup f).insert k v =
    tabulate keys nodup fun l => if l = k then v else f l := by
  apply eq_of_entries
  rw [entries_insert (keys_tabulate (f := f) ▸ hk)]
  simp only [tabulate, List.map_map]
  refine List.map_congr_left fun l _ => ?_
  by_cases same : l = k
  · simp [put, same]
  · simp [put, same]

/-- A value for a key that is not there yet. -/
theorem insert_tabulate_new (hk : k ∉ keys) (more : (keys ++ [k]).Nodup) :
    (tabulate keys nodup f).insert k v =
      tabulate (keys ++ [k]) more fun l => if l = k then v else f l := by
  apply eq_of_entries
  rw [entries_insert_new (keys_tabulate (f := f) ▸ hk)]
  simp only [tabulate, List.map_append, List.map_singleton, if_pos]
  congr 1
  refine List.map_congr_left fun l hl => ?_
  rw [if_neg (ne_of_mem_of_not_mem hl hk)]

theorem erase_tabulate (less : (keys.filter (· ≠ k)).Nodup) :
    (tabulate keys nodup f).erase k = tabulate (keys.filter (· ≠ k)) less f := by
  apply eq_of_entries
  simp only [erase, tabulate, List.filter_map]
  rfl

end PatternGroups.OrderedMap
