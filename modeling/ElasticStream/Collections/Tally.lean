import Mathlib
import ElasticStream.Collections.SortedMap

/-! # Weights held by a map

A cache that keeps a running count of the bytes it holds is right when the
count is the total weight of the values in its map. This file gives that
total for a `SortedMap` and says how insertion, removal and filtering change
it. Every rule goes through one fact: a map holding `v` under `k` is, up to
order, the entry `(k, v)` in front of the map without `k`. -/

namespace ElasticStream.Collections

namespace SortedMap

variable {κ α : Type} [LinearOrder κ]

/-- `BTreeMap::remove` and `HashMap::remove`: the map without the entry of `k`. -/
def erase (m : SortedMap κ α) (k : κ) : SortedMap κ α := m.filter fun e => decide (e.1 ≠ k)

/-- The total weight of the values the map holds. -/
def total (w : α → Nat) (m : SortedMap κ α) : Nat := (m.entries.map fun e => w e.2).sum

theorem nodup_entries (m : SortedMap κ α) : m.entries.Nodup :=
  m.sorted.imp fun {a b} hab hba => by
    rw [hba] at hab
    exact lt_irrefl _ hab

theorem mem_erase {m : SortedMap κ α} {k : κ} {q : κ × α} :
    q ∈ (m.erase k).entries ↔ q ∈ m.entries ∧ q.1 ≠ k := by
  simp [erase]

theorem find?_erase (m : SortedMap κ α) (k k' : κ) :
    (m.erase k).find? k' = if k' = k then none else m.find? k' := by
  rw [erase, find?_filter_key m (fun k' => decide (k' ≠ k)) k']
  by_cases h : k' = k <;> simp [h]

theorem nodup_cons_erase (m : SortedMap κ α) (k : κ) (v : α) : ((k, v) :: (m.erase k).entries).Nodup :=
  List.nodup_cons.mpr ⟨fun hq => (mem_erase.mp hq).2 rfl, (nodup_entries m).filter _⟩

/-- The entry of `k` in front of the rest. -/
theorem entries_perm_of_find? {m : SortedMap κ α} {k : κ} {v : α} (h : m.find? k = some v) :
    m.entries.Perm ((k, v) :: (m.erase k).entries) := by
  have hmem : (k, v) ∈ m.entries := find?_eq_some_iff.mp h
  have hnodup := nodup_cons_erase m k v
  refine (List.perm_ext_iff_of_nodup (nodup_entries m) hnodup).mpr fun q => ?_
  rw [List.mem_cons, mem_erase]
  constructor
  · intro hq
    by_cases hk : q.1 = k
    · obtain ⟨k', v'⟩ := q
      dsimp only at hk
      subst hk
      exact .inl (by rw [eq_of_mem hq hmem])
    · exact .inr ⟨hq, hk⟩
  · rintro (rfl | ⟨hq, -⟩)
    · exact hmem
    · exact hq

theorem insert_entries_perm (m : SortedMap κ α) (k : κ) (v : α) :
    (m.insert k v).entries.Perm ((k, v) :: (m.erase k).entries) := by
  have hnodup := nodup_cons_erase m k v
  refine (List.perm_ext_iff_of_nodup (nodup_entries _) hnodup).mpr fun q => ?_
  rw [mem_insert, List.mem_cons, mem_erase]

theorem erase_of_find?_none {m : SortedMap κ α} {k : κ} (h : m.find? k = none) :
    (m.erase k).entries = m.entries :=
  List.filter_eq_self.mpr fun q hq => by simpa using find?_eq_none_iff.mp h q hq

@[simp] theorem total_empty (w : α → Nat) : total w (empty : SortedMap κ α) = 0 := rfl

theorem total_of_find? (w : α → Nat) {m : SortedMap κ α} {k : κ} {v : α} (h : m.find? k = some v) :
    total w m = w v + total w (m.erase k) := by
  simp only [total, ((entries_perm_of_find? h).map _).sum_eq, List.map_cons, List.sum_cons]

theorem total_erase_of_find?_none (w : α → Nat) {m : SortedMap κ α} {k : κ} (h : m.find? k = none) :
    total w (m.erase k) = total w m := by
  simp only [total, erase_of_find?_none h]

theorem total_insert (w : α → Nat) (m : SortedMap κ α) (k : κ) (v : α) :
    total w (m.insert k v) = w v + total w (m.erase k) := by
  simp only [total, ((insert_entries_perm m k v).map _).sum_eq, List.map_cons, List.sum_cons]

/-- The entry of `k`, if there is one, and the rest make up the whole. -/
theorem total_erase_add (w : α → Nat) (m : SortedMap κ α) (k : κ) :
    total w (m.erase k) + ((m.find? k).map w).getD 0 = total w m := by
  cases h : m.find? k with
  | none => simp [total_erase_of_find?_none w h]
  | some v => simp [total_of_find? w h, Nat.add_comm]

/-- A value put in place of the one held under `k` changes the total by
their difference. -/
theorem total_insert_of_find? (w : α → Nat) {m : SortedMap κ α} {k : κ} {v : α} (h : m.find? k = some v)
    (v' : α) : total w (m.insert k v') + w v = total w m + w v' := by
  rw [total_insert, total_of_find? w h]
  omega

/-- What `retain` keeps and what it drops make up the whole. -/
theorem total_filter_add (w : α → Nat) (m : SortedMap κ α) (p : κ × α → Bool) :
    total w (m.filter p) + total w (m.filter fun e => !p e) = total w m := by
  simp only [total, filter_entries]
  induction m.entries with
  | nil => rfl
  | cons e rest ih =>
    cases hp : p e <;> simp [hp] <;> omega

end SortedMap

end ElasticStream.Collections
