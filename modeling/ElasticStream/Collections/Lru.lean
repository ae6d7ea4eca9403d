import Mathlib

/-! # Unbounded LRU lists

An unbounded LRU cache of key-value pairs, as the `lru` crate's
`LruCache::unbounded` behaves: a list from the least to the most recently
used entry, each key at most once. `put` (and `push`) replaces a key's entry
and makes it the most recent, `pop_lru` takes the least recent entry,
`promote` moves an entry to the recent end and does nothing to a key that is
absent. -/

namespace ElasticStream.Collections

/-- An LRU list, least recently used first. -/
abbrev Lru (κ β : Type) := List (κ × β)

namespace Lru

variable {κ β : Type}

def keys (l : Lru κ β) : List κ := l.map Prod.fst

theorem mem_keys {l : Lru κ β} {k : κ} : k ∈ l.keys ↔ ∃ v, (k, v) ∈ l := by
  simp [keys]

theorem not_mem_keys_of_cons {l : Lru κ β} {k : κ} {v : β} {rest : Lru κ β}
    (hl : l = (k, v) :: rest) (h : l.keys.Nodup) : k ∉ rest.keys := by
  rw [hl] at h
  exact (List.nodup_cons.mp h).1

variable [DecidableEq κ]

def contains (l : Lru κ β) (k : κ) : Bool := l.any fun e => e.1 = k

/-- `LruCache::pop`: the list without the entry of `k`. -/
def pop (l : Lru κ β) (k : κ) : Lru κ β := l.filter fun e => e.1 ≠ k

/-- `LruCache::put` and `LruCache::push`. -/
def put (l : Lru κ β) (k : κ) (v : β) : Lru κ β := l.pop k ++ [(k, v)]

/-- `LruCache::promote`. -/
def promote (l : Lru κ β) (k : κ) : Lru κ β :=
  match l.find? fun e => e.1 = k with
  | some e => l.pop k ++ [e]
  | none => l

theorem contains_iff {l : Lru κ β} {k : κ} : l.contains k = true ↔ k ∈ l.keys := by
  simp [contains, keys]

theorem mem_pop {l : Lru κ β} {k : κ} {e : κ × β} : e ∈ l.pop k ↔ e ∈ l ∧ e.1 ≠ k := by
  simp [pop]

theorem keys_pop (l : Lru κ β) (k : κ) : (l.pop k).keys = l.keys.filter fun k' => k' ≠ k := by
  simp only [keys, pop, List.filter_map, Function.comp_def]

theorem pop_of_not_mem {l : Lru κ β} {k : κ} (h : k ∉ l.keys) : l.pop k = l :=
  List.filter_eq_self.mpr fun e he => by
    have : e.1 ≠ k := fun hk => h (mem_keys.mpr ⟨e.2, hk ▸ he⟩)
    simpa using this

/-- Promoting an absent key changes nothing: the case of a key just popped. -/
theorem promote_of_not_mem {l : Lru κ β} {k : κ} (h : k ∉ l.keys) : l.promote k = l := by
  have hfind : l.find? (fun e => decide (e.1 = k)) = none :=
    List.find?_eq_none.mpr fun e he hk => h (mem_keys.mpr ⟨e.2, by simpa using (of_decide_eq_true hk) ▸ he⟩)
  simp [promote, hfind]

theorem keys_put (l : Lru κ β) (k : κ) (v : β) : (l.put k v).keys = (l.keys.filter fun k' => k' ≠ k) ++ [k] := by
  simp only [put, keys, List.map_append, List.map_cons, List.map_nil]
  rw [← keys, ← keys, keys_pop]

theorem nodup_keys_put {l : Lru κ β} (h : l.keys.Nodup) (k : κ) (v : β) : (l.put k v).keys.Nodup := by
  rw [keys_put]
  refine List.nodup_append.mpr ⟨h.filter _, List.nodup_singleton k, fun a ha b hb hab => ?_⟩
  rw [List.mem_singleton] at hb
  exact of_decide_eq_true (List.mem_filter.mp ha).2 (hab.trans hb)

end Lru

end ElasticStream.Collections
