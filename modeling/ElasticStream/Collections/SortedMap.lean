import Mathlib

/-! # Ordered maps as key-sorted association lists

An ordered tree map is observed only through its entries in key order: a
lookup, an insertion that replaces the value of an existing key, the first
entry, removal of the first entry. This file keeps exactly that view: a list
of entries strictly increasing in key, the invariant carried by the structure
so that no map with a repeated or misplaced key can be built. -/

namespace ElasticStream.Collections

/-- A finite map whose entries are listed in strictly increasing key order. -/
structure SortedMap (κ : Type) (α : Type) [LinearOrder κ] where
  entries : List (κ × α)
  sorted : entries.Pairwise (fun a b => a.1 < b.1)

namespace SortedMap

variable {κ α : Type} [LinearOrder κ]

instance [DecidableEq κ] [DecidableEq α] : DecidableEq (SortedMap κ α) := fun m n =>
  decidable_of_iff (m.entries = n.entries) (by
    cases m; cases n; simp)

/-- The map without entries. -/
def empty : SortedMap κ α := ⟨[], List.Pairwise.nil⟩

/-- Insertion into a key-sorted list: a new key goes before the first larger
key, an existing key has its value replaced in place. -/
def insertList (k : κ) (v : α) : List (κ × α) → List (κ × α)
  | [] => [(k, v)]
  | (k', v') :: rest =>
    if k < k' then (k, v) :: (k', v') :: rest
    else if k = k' then (k, v) :: rest
    else (k', v') :: insertList k v rest

theorem mem_insertList {k : κ} {v : α} {q : κ × α} :
    ∀ {l : List (κ × α)}, l.Pairwise (fun a b => a.1 < b.1) →
      (q ∈ insertList k v l ↔ q = (k, v) ∨ (q ∈ l ∧ q.1 ≠ k))
  | [], _ => by simp [insertList]
  | (k', v') :: rest, h => by
    obtain ⟨hhead, hrest⟩ := List.pairwise_cons.mp h
    have ih : q ∈ insertList k v rest ↔ q = (k, v) ∨ (q ∈ rest ∧ q.1 ≠ k) := mem_insertList hrest
    unfold insertList
    split_ifs with hlt heq
    · -- the new key is smaller than every key of the list
      simp only [List.mem_cons]
      constructor
      · rintro (rfl | rfl | hq)
        · exact .inl rfl
        · exact .inr ⟨.inl rfl, ne_of_gt hlt⟩
        · exact .inr ⟨.inr hq, ne_of_gt (lt_trans hlt (hhead q hq))⟩
      · rintro (rfl | ⟨rfl | hq, _⟩)
        · exact .inl rfl
        · exact .inr (.inl rfl)
        · exact .inr (.inr hq)
    · -- the key is present at the head: its value is replaced
      subst heq
      simp only [List.mem_cons]
      constructor
      · rintro (rfl | hq)
        · exact .inl rfl
        · exact .inr ⟨.inr hq, ne_of_gt (hhead q hq)⟩
      · rintro (rfl | ⟨rfl | hq, hne⟩)
        · exact .inl rfl
        · exact absurd rfl hne
        · exact .inr hq
    · simp only [List.mem_cons, ih]
      constructor
      · rintro (rfl | rfl | ⟨hq, hne⟩)
        · exact .inr ⟨.inl rfl, fun h => heq h.symm⟩
        · exact .inl rfl
        · exact .inr ⟨.inr hq, hne⟩
      · rintro (rfl | ⟨rfl | hq, hne⟩)
        · exact .inr (.inl rfl)
        · exact .inl rfl
        · exact .inr (.inr ⟨hq, hne⟩)

theorem insertList_sorted (k : κ) (v : α) :
    ∀ {l : List (κ × α)}, l.Pairwise (fun a b => a.1 < b.1) →
      (insertList k v l).Pairwise (fun a b => a.1 < b.1)
  | [], _ => by simp [insertList]
  | (k', v') :: rest, h => by
    obtain ⟨hhead, hrest⟩ := List.pairwise_cons.mp h
    unfold insertList
    split_ifs with hlt heq
    · exact List.Pairwise.cons (fun q hq => by
        rcases List.mem_cons.mp hq with rfl | hq
        · exact hlt
        · exact lt_trans hlt (hhead q hq)) h
    · subst heq
      exact List.Pairwise.cons hhead hrest
    · refine List.Pairwise.cons (fun q hq => ?_) (insertList_sorted k v hrest)
      rcases (mem_insertList hrest).mp hq with rfl | ⟨hq, _⟩
      · exact lt_of_le_of_ne (not_lt.mp hlt) (Ne.symm heq)
      · exact hhead q hq

/-- Insert `v` under `k`, replacing the value an existing entry of `k` holds. -/
def insert (m : SortedMap κ α) (k : κ) (v : α) : SortedMap κ α :=
  ⟨insertList k v m.entries, insertList_sorted k v m.sorted⟩

/-- The value held under `k`. -/
def find? (m : SortedMap κ α) (k : κ) : Option α := m.entries.lookup k

/-- The entry with the least key. -/
def first? (m : SortedMap κ α) : Option (κ × α) := m.entries.head?

/-- The map without its entry of least key. -/
def popFirst (m : SortedMap κ α) : SortedMap κ α := ⟨m.entries.tail, m.sorted.sublist (List.tail_sublist _)⟩

/-- The map restricted to a suffix of its entries. -/
def ofSuffix (m : SortedMap κ α) (rest : List (κ × α)) (h : rest <:+ m.entries) : SortedMap κ α :=
  ⟨rest, m.sorted.sublist h.sublist⟩

/-- `BTreeMap::retain`: the entries that `p` keeps. -/
def filter (p : κ × α → Bool) (m : SortedMap κ α) : SortedMap κ α := ⟨m.entries.filter p, m.sorted.filter p⟩

/-- The map with `f` applied to every value. -/
def mapValues {β : Type} (f : α → β) (m : SortedMap κ α) : SortedMap κ β :=
  ⟨m.entries.map fun e => (e.1, f e.2), List.pairwise_map.mpr (m.sorted.imp id)⟩

/-- The entries with keys in `[lo, hi)`, in key order: `BTreeMap::range(lo..hi)`. -/
def range (m : SortedMap κ α) (lo hi : κ) : List (κ × α) := m.entries.filter fun e => lo ≤ e.1 && e.1 < hi

/-- The entries with keys in `[lo, hi]`, in key order: `BTreeMap::range(lo..=hi)`. -/
def rangeIncl (m : SortedMap κ α) (lo hi : κ) : List (κ × α) := m.entries.filter fun e => lo ≤ e.1 && e.1 ≤ hi

/-- `BTreeMap::get_key_value`: the entry held under `k`. -/
def getKeyValue (m : SortedMap κ α) (k : κ) : Option (κ × α) := (m.find? k).map fun v => (k, v)

/-- The greatest key at or below `k`: `BTreeMap::upper_bound(Bound::Included(k))`. -/
def upperBound (m : SortedMap κ α) (k : κ) : Option κ :=
  ((m.entries.filter fun e => e.1 ≤ k).getLast?).map (·.1)

/-- The entry of the greatest key at or below `k`: the `key_value` of
`BTreeMap::upper_bound(Bound::Included(k))`. -/
def upperBoundEntry (m : SortedMap κ α) (k : κ) : Option (κ × α) :=
  (m.entries.filter fun e => e.1 ≤ k).getLast?

@[simp] theorem empty_entries : (empty : SortedMap κ α).entries = [] := rfl

@[simp] theorem insert_entries (m : SortedMap κ α) (k : κ) (v : α) :
    (m.insert k v).entries = insertList k v m.entries := rfl

@[simp] theorem filter_entries (p : κ × α → Bool) (m : SortedMap κ α) :
    (m.filter p).entries = m.entries.filter p := rfl

@[simp] theorem ofSuffix_entries (m : SortedMap κ α) (rest : List (κ × α)) (h) :
    (m.ofSuffix rest h).entries = rest := rfl

theorem mem_insert {m : SortedMap κ α} {k : κ} {v : α} {q : κ × α} :
    q ∈ (m.insert k v).entries ↔ q = (k, v) ∨ (q ∈ m.entries ∧ q.1 ≠ k) :=
  mem_insertList m.sorted

/-- A key occurs in at most one entry. -/
theorem eq_of_mem {m : SortedMap κ α} {k : κ} {v w : α}
    (hv : (k, v) ∈ m.entries) (hw : (k, w) ∈ m.entries) : v = w := by
  obtain ⟨entries, sorted⟩ := m
  induction entries with
  | nil => simp at hv
  | cons e rest ih =>
    obtain ⟨hhead, hrest⟩ := List.pairwise_cons.mp sorted
    rcases List.mem_cons.mp hv with hv | hv <;> rcases List.mem_cons.mp hw with hw | hw
    · rw [← hv] at hw; exact (Prod.mk.inj hw).2.symm
    · exact absurd (hhead _ hw) (by rw [← hv]; exact lt_irrefl k)
    · exact absurd (hhead _ hv) (by rw [← hw]; exact lt_irrefl k)
    · exact ih hrest hv hw

theorem find?_eq_some_iff {m : SortedMap κ α} {k : κ} {v : α} :
    m.find? k = some v ↔ (k, v) ∈ m.entries := by
  unfold find?
  constructor
  · intro h
    obtain ⟨pre, post, hsplit, _⟩ := List.lookup_eq_some_iff.mp h
    rw [hsplit]
    exact List.mem_append_right _ List.mem_cons_self
  · intro h
    cases hl : m.entries.lookup k with
    | none =>
      exact absurd (List.lookup_eq_none_iff.mp hl (k, v) h) (by simp)
    | some w =>
      obtain ⟨pre, post, hsplit, _⟩ := List.lookup_eq_some_iff.mp hl
      have hw : (k, w) ∈ m.entries := by
        rw [hsplit]
        exact List.mem_append_right _ List.mem_cons_self
      rw [eq_of_mem h hw]

theorem find?_eq_none_iff {m : SortedMap κ α} {k : κ} :
    m.find? k = none ↔ ∀ q ∈ m.entries, q.1 ≠ k := by
  unfold find?
  rw [List.lookup_eq_none_iff]
  simp only [ne_eq, bne_iff_ne]
  exact ⟨fun h q hq he => h q hq he.symm, fun h q hq he => h q hq he.symm⟩

@[simp] theorem find?_insert_self (m : SortedMap κ α) (k : κ) (v : α) : (m.insert k v).find? k = some v :=
  find?_eq_some_iff.mpr (mem_insert.mpr (.inl rfl))

theorem find?_insert_of_ne (m : SortedMap κ α) {k k' : κ} (v : α) (h : k' ≠ k) :
    (m.insert k v).find? k' = m.find? k' := by
  cases hm : m.find? k' with
  | none =>
    refine find?_eq_none_iff.mpr fun q hq hqk => ?_
    rcases mem_insert.mp hq with rfl | ⟨hq, _⟩
    · exact h hqk.symm
    · exact find?_eq_none_iff.mp hm q hq hqk
  | some w =>
    exact find?_eq_some_iff.mpr (mem_insert.mpr (.inr ⟨find?_eq_some_iff.mp hm, h⟩))

theorem mem_rangeIncl {m : SortedMap κ α} {lo hi : κ} {e : κ × α} :
    e ∈ m.rangeIncl lo hi ↔ e ∈ m.entries ∧ lo ≤ e.1 ∧ e.1 ≤ hi := by
  simp [rangeIncl]

theorem rangeIncl_sorted (m : SortedMap κ α) (lo hi : κ) :
    (m.rangeIncl lo hi).Pairwise (fun a b => a.1 < b.1) :=
  m.sorted.filter _

theorem getKeyValue_eq_some_iff {m : SortedMap κ α} {k : κ} {e : κ × α} :
    m.getKeyValue k = some e ↔ e.1 = k ∧ e ∈ m.entries := by
  obtain ⟨k', v⟩ := e
  simp only [getKeyValue, Option.map_eq_some_iff, Prod.mk.injEq]
  constructor
  · rintro ⟨w, hw, rfl, rfl⟩
    exact ⟨rfl, find?_eq_some_iff.mp hw⟩
  · rintro ⟨rfl, he⟩
    exact ⟨v, find?_eq_some_iff.mpr he, rfl, rfl⟩

/-- Of a key-sorted list, the entry whose key no other key exceeds is the last. -/
theorem getLast?_eq_of_forall_le {l : List (κ × α)} (hl : l.Pairwise (fun a b => a.1 < b.1))
    {x : κ × α} (hx : x ∈ l) (hle : ∀ y ∈ l, y.1 ≤ x.1) : l.getLast? = some x := by
  obtain ⟨s, t, rfl⟩ := List.append_of_mem hx
  cases t using List.reverseRecOn with
  | nil => simp
  | append_singleton t z _ =>
    have hxz : x.1 < z.1 :=
      List.rel_of_pairwise_cons (List.pairwise_append.mp hl).2.1 (by simp)
    exact absurd (hle z (by simp)) (not_le.mpr hxz)

/-- A relation that holds between entries in list order holds between any
two entries in key order. -/
theorem rel_of_lt {R : κ × α → κ × α → Prop} :
    ∀ {l : List (κ × α)}, l.Pairwise (fun a b => a.1 < b.1) → l.Pairwise R →
      ∀ {a b : κ × α}, a ∈ l → b ∈ l → a.1 < b.1 → R a b
  | [], _, _, _, _, ha, _, _ => by simp at ha
  | c :: l, hl, hR, a, b, ha, hb, hab => by
    obtain ⟨hlc, hl⟩ := List.pairwise_cons.mp hl
    obtain ⟨hRc, hR⟩ := List.pairwise_cons.mp hR
    rcases List.mem_cons.mp ha with rfl | hal <;> rcases List.mem_cons.mp hb with rfl | hbl
    · exact absurd hab (lt_irrefl _)
    · exact hRc b hbl
    · exact absurd (hlc a hal) (not_lt.mpr hab.le)
    · exact rel_of_lt hl hR hal hbl hab

/-- A lookup after `filter` by key. -/
theorem find?_filter_key (m : SortedMap κ α) (p : κ → Bool) (k : κ) :
    (m.filter fun e => p e.1).find? k = if p k then m.find? k else none := by
  split_ifs with hp
  · cases hm : m.find? k with
    | none =>
      exact find?_eq_none_iff.mpr fun q hq => find?_eq_none_iff.mp hm q (List.mem_of_mem_filter hq)
    | some w =>
      exact find?_eq_some_iff.mpr (List.mem_filter.mpr ⟨find?_eq_some_iff.mp hm, hp⟩)
  · refine find?_eq_none_iff.mpr fun q hq hqk => ?_
    have := (List.mem_filter.mp hq).2
    rw [hqk] at this
    exact hp this

/-- A cursor placed by `upper_bound(Included(k))` and moved forward visits the
entry it found and then every later one. -/
theorem filter_ge_of_upperBoundEntry {m : SortedMap κ α} {k : κ} {e : κ × α}
    (h : m.upperBoundEntry k = some e) :
    m.entries.filter (fun x => e.1 ≤ x.1) = e :: m.entries.filter (fun x => e.1 < x.1) := by
  have he : e ∈ m.entries := (List.mem_filter.mp (List.mem_of_getLast? h)).1
  obtain ⟨pre, post, hsplit⟩ := List.append_of_mem he
  have hsorted := m.sorted
  rw [hsplit] at hsorted ⊢
  obtain ⟨hpre, hpost, hcross⟩ := List.pairwise_append.mp hsorted
  have hbefore : ∀ x ∈ pre, x.1 < e.1 := fun x hx => hcross x hx e List.mem_cons_self
  have hafter : ∀ x ∈ post, e.1 < x.1 := fun x hx => List.rel_of_pairwise_cons hpost hx
  have hpre_le : pre.filter (fun x => e.1 ≤ x.1) = [] :=
    List.filter_eq_nil_iff.mpr fun x hx => by simpa using hbefore x hx
  have hpre_lt : pre.filter (fun x => e.1 < x.1) = [] :=
    List.filter_eq_nil_iff.mpr fun x hx => by simpa using (hbefore x hx).le
  have hpost_le : post.filter (fun x => e.1 ≤ x.1) = post :=
    List.filter_eq_self.mpr fun x hx => by simpa using (hafter x hx).le
  have hpost_lt : post.filter (fun x => e.1 < x.1) = post :=
    List.filter_eq_self.mpr fun x hx => by simpa using hafter x hx
  simp [List.filter_append, hpre_le, hpre_lt, hpost_le, hpost_lt]

end SortedMap

end ElasticStream.Collections
