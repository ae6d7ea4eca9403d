import Mathlib
import ElasticStream.Collections.Tally
import ElasticStream.Collections.Lru

/-! # The hierarchical cache

`HierarchicalCache` (cache/src/lib.rs) is modelled on the kernel's page cache:
a map from keys to values, and an active and an inactive LRU list holding the
same values, each with the total size it holds. A value is shared between the
map and a list through an `Rc<RefCell<..>>`; here the cells sit in a heap
under the number of their allocation, and the map and the lists hold those
numbers.

`push_active` of a new key first reclaims the active list: it pops the least
recent entry, demotes it to the inactive list when its weight is zero, and
otherwise lowers the weight and `promote`s the key. The key was just popped,
so the promotion does nothing and the entry leaves both lists, still in the
map and still counted in the active size
(`pushActive_loses_weighted_entry`). -/

namespace ElasticStream.Cache
open ElasticStream.Collections

/-- `SizedValue`. -/
class SizedValue (V : Type) where
  size : V → Nat

structure CacheMeta where
  weight : Nat
  hitCount : Nat
  lastAccessTime : Nat
  deriving DecidableEq, Repr

structure Value (V : Type) where
  cacheMeta : CacheMeta
  value : V
  deriving DecidableEq, Repr

variable {K V : Type} [LinearOrder K] [SizedValue V]

structure HierarchicalCache (K V : Type) [LinearOrder K] where
  /-- the cells behind the `ValueRef`s, by allocation number -/
  heap : SortedMap Nat (Value V)
  nextRef : Nat
  map : SortedMap K Nat
  activeList : Lru K Nat
  activeSize : Nat
  maxActiveSize : Nat
  inactiveList : Lru K Nat
  inactiveSize : Nat
  maxCacheSize : Nat

namespace HierarchicalCache

/-- `HierarchicalCache::new`, with `Percentage::apply_to` in integers. -/
def new (maxCacheSize activePercent : Nat) : HierarchicalCache K V :=
  ⟨.empty, 0, .empty, [], 0, maxCacheSize * activePercent / 100, [], 0, maxCacheSize⟩

/-- `Rc::new(RefCell::new(..))`. -/
def alloc (c : HierarchicalCache K V) (v : Value V) : Nat × HierarchicalCache K V :=
  (c.nextRef, { c with heap := c.heap.insert c.nextRef v, nextRef := c.nextRef + 1 })

/-- The size of the value behind a reference. -/
def refSize (c : HierarchicalCache K V) (ref : Nat) : Nat :=
  ((c.heap.find? ref).map fun v => SizedValue.size v.value).getD 0

/-- The total size behind the references of a list. -/
def listSize (c : HierarchicalCache K V) (l : Lru K Nat) : Nat := (l.map fun e => c.refSize e.2).sum

/-- `borrow_mut()` of a cell's metadata. -/
def setMeta (c : HierarchicalCache K V) (ref : Nat) (f : CacheMeta → CacheMeta) : HierarchicalCache K V :=
  { c with
    heap := match c.heap.find? ref with
      | some v => c.heap.insert ref { v with cacheMeta := f v.cacheMeta }
      | none => c.heap }

def weightOf (c : HierarchicalCache K V) (ref : Nat) : Nat := ((c.heap.find? ref).map (·.cacheMeta.weight)).getD 0

def checkAlreadyCached (c : HierarchicalCache K V) (key : K) : Bool :=
  c.activeList.contains key || c.inactiveList.contains key

/-- The loop of `reclaim_inactive_list`: pop the least recent entry, drop its
size and its map entry, until the sizes fit. -/
def reclaimInactiveLoop (minFreeBytes : Nat) (c : HierarchicalCache K V) : Lru K Nat → HierarchicalCache K V
  | [] => { c with inactiveList := [] }
  | (key, ref) :: rest =>
    let c := { c with inactiveList := rest, inactiveSize := c.inactiveSize - c.refSize ref, map := c.map.erase key }
    if c.activeSize + c.inactiveSize + minFreeBytes ≤ c.maxCacheSize then c
    else reclaimInactiveLoop minFreeBytes c rest

def reclaimInactiveList (c : HierarchicalCache K V) (minFreeBytes : Nat) : HierarchicalCache K V :=
  if c.inactiveList = [] ∨ c.activeSize + c.inactiveSize + minFreeBytes ≤ c.maxCacheSize then c
  else reclaimInactiveLoop minFreeBytes c c.inactiveList

/-- The loop of `reclaim_active_list`, with the demoted size. Each turn pops
an entry and `promote` never lengthens the list, so as many turns as the list
has entries run it to its end. -/
def reclaimActiveLoop (minFreeBytes : Nat) : Nat → HierarchicalCache K V → Nat → HierarchicalCache K V × Nat
  | 0, c, demotion => (c, demotion)
  | fuel + 1, c, demotion =>
    match c.activeList with
    | [] => (c, demotion)
    | (key, ref) :: rest =>
      let c := { c with activeList := rest }
      if 0 < c.weightOf ref then
        -- the weight drops through the shared cell, and the popped key is promoted
        let c := c.setMeta ref fun m => { m with weight := m.weight - 1 }
        reclaimActiveLoop minFreeBytes fuel { c with activeList := c.activeList.promote key } demotion
      else
        let valueSize := c.refSize ref
        let c := { c with
          activeSize := c.activeSize - valueSize
          inactiveList := c.inactiveList.put key ref
          inactiveSize := c.inactiveSize + valueSize }
        if c.activeSize + minFreeBytes ≤ c.maxActiveSize then (c, demotion + valueSize)
        else reclaimActiveLoop minFreeBytes fuel c (demotion + valueSize)

def reclaimActiveList (c : HierarchicalCache K V) (minFreeBytes : Nat) : HierarchicalCache K V :=
  if c.activeList = [] ∨ c.activeSize + minFreeBytes ≤ c.maxActiveSize then c
  else
    let r := reclaimActiveLoop minFreeBytes c.activeList.length c 0
    r.1.reclaimInactiveList r.2

/-- `push_active_with_weight` at time `now`. -/
def pushActiveWithWeight (c : HierarchicalCache K V) (key : K) (value : V) (weight now : Nat) :
    HierarchicalCache K V :=
  let valueSize := SizedValue.size value
  let allocated := c.alloc ⟨⟨weight, 0, now⟩, value⟩
  let ref := allocated.1
  let c := allocated.2
  -- an already cached key only has its map entry replaced
  if c.checkAlreadyCached key then { c with map := c.map.insert key ref }
  else
    let c := c.reclaimActiveList valueSize
    { c with activeList := c.activeList.put key ref, activeSize := c.activeSize + valueSize,
             map := c.map.insert key ref }

def pushActive (c : HierarchicalCache K V) (key : K) (value : V) (now : Nat) : HierarchicalCache K V :=
  c.pushActiveWithWeight key value 0 now

/-- `push_inactive_with_weight` at time `now`. -/
def pushInactiveWithWeight (c : HierarchicalCache K V) (key : K) (value : V) (weight now : Nat) :
    HierarchicalCache K V :=
  let valueSize := SizedValue.size value
  let allocated := c.alloc ⟨⟨weight, 0, now⟩, value⟩
  let ref := allocated.1
  let c := allocated.2
  if c.checkAlreadyCached key then { c with map := c.map.insert key ref }
  else
    let c := c.reclaimInactiveList valueSize
    { c with inactiveList := c.inactiveList.put key ref, inactiveSize := c.inactiveSize + valueSize,
             map := c.map.insert key ref }

def pushInactive (c : HierarchicalCache K V) (key : K) (value : V) (now : Nat) : HierarchicalCache K V :=
  c.pushInactiveWithWeight key value 0 now

/-- The access bookkeeping of `get` and `search` on one entry. -/
def touch (c : HierarchicalCache K V) (key : K) (ref : Nat) (now : Nat) : HierarchicalCache K V :=
  let c := c.setMeta ref fun m =>
    { weight := m.weight - 1, hitCount := m.hitCount + 1, lastAccessTime := now }
  { c with activeList := c.activeList.promote key, inactiveList := c.inactiveList.promote key }

/-- `get`: the value the map holds, with its access recorded. -/
def get (c : HierarchicalCache K V) (key : K) (now : Nat) : Option V × HierarchicalCache K V :=
  match c.map.find? key with
  | none => (none, c)
  | some ref => (((c.heap.find? ref).map (·.value)), c.touch key ref now)

/-- `search` over `[lo, hi)`: the entries in key order, each accessed. -/
def search (c : HierarchicalCache K V) (lo hi : K) (now : Nat) : List (K × V) × HierarchicalCache K V :=
  (c.map.range lo hi).foldl (fun (acc : List (K × V) × HierarchicalCache K V) e =>
    (acc.1 ++ ((acc.2.heap.find? e.2).map fun v => (e.1, v.value)).toList, acc.2.touch e.1 e.2 now)) ([], c)

/-! ## Bookkeeping -/

/-- The bookkeeping the cache relies on: the map's keys are those of the two
lists, which are disjoint and hold each key once, under the map's reference;
the references are allocated; and each size is the size its list holds. -/
structure Inv (c : HierarchicalCache K V) : Prop where
  nodup_active : c.activeList.keys.Nodup
  nodup_inactive : c.inactiveList.keys.Nodup
  disjoint : ∀ k, k ∈ c.activeList.keys → k ∉ c.inactiveList.keys
  mem_map : ∀ k, c.map.find? k ≠ none ↔ k ∈ c.activeList.keys ∨ k ∈ c.inactiveList.keys
  same_ref : ∀ k ref, (k, ref) ∈ c.activeList ∨ (k, ref) ∈ c.inactiveList → c.map.find? k = some ref
  allocated : ∀ k ref, c.map.find? k = some ref → ref < c.nextRef
  activeSize : c.activeSize = c.listSize c.activeList
  inactiveSize : c.inactiveSize = c.listSize c.inactiveList

theorem refSize_alloc {c : HierarchicalCache K V} (v : Value V) {ref : Nat} (h : ref < c.nextRef) :
    (c.alloc v).2.refSize ref = c.refSize ref := by
  simp only [alloc, refSize, SortedMap.find?_insert_of_ne _ _ (Nat.ne_of_lt h)]

theorem refSize_alloc_self (c : HierarchicalCache K V) (v : Value V) :
    (c.alloc v).2.refSize (c.alloc v).1 = SizedValue.size v.value := by
  simp [alloc, refSize]

omit [SizedValue V] in
theorem weightOf_alloc {c : HierarchicalCache K V} (v : Value V) {ref : Nat} (h : ref < c.nextRef) :
    (c.alloc v).2.weightOf ref = c.weightOf ref := by
  simp only [alloc, weightOf, SortedMap.find?_insert_of_ne _ _ (Nat.ne_of_lt h)]

theorem refSize_setMeta (c : HierarchicalCache K V) (r : Nat) (f : CacheMeta → CacheMeta) (ref : Nat) :
    (c.setMeta r f).refSize ref = c.refSize ref := by
  unfold setMeta refSize
  split
  · rename_i v hv
    by_cases hr : ref = r
    · subst hr
      simp [hv]
    · simp [SortedMap.find?_insert_of_ne _ _ hr]
  · rfl

theorem listSize_congr {c c' : HierarchicalCache K V} (h : ∀ ref, c'.refSize ref = c.refSize ref)
    (l : Lru K Nat) : c'.listSize l = c.listSize l := by
  simp only [listSize, h]

theorem listSize_alloc {c : HierarchicalCache K V} (v : Value V) {l : Lru K Nat} (h : ∀ e ∈ l, e.2 < c.nextRef) :
    (c.alloc v).2.listSize l = c.listSize l := by
  simp only [listSize]
  congr 1
  exact List.map_congr_left fun e he => refSize_alloc v (h e he)

theorem listSize_cons (c : HierarchicalCache K V) (key : K) (ref : Nat) (rest : Lru K Nat) :
    c.listSize ((key, ref) :: rest) = c.refSize ref + c.listSize rest := by
  simp [listSize]

/-- `put` drops the key's old entries before it adds the new one. -/
theorem listSize_put_le (c : HierarchicalCache K V) (l : Lru K Nat) (key : K) (ref : Nat) :
    c.listSize (l.put key ref) ≤ c.listSize l + c.refSize ref := by
  have hsub : List.Sublist (l.pop key) l := List.filter_sublist
  have hpop : c.listSize (l.pop key) ≤ c.listSize l := (hsub.map _).sum_le_sum fun _ _ => Nat.zero_le _
  have hput : c.listSize (l.put key ref) = c.listSize (l.pop key) + c.refSize ref := by
    simp [Lru.put, listSize]
  omega

/-! ## A weighted entry lost by the reclaim -/

/-- What the loss of an entry leaves: a key the map holds, in neither list,
while the active size covers `lost` bytes more than the active list holds. -/
structure Lost (c : HierarchicalCache K V) (key : K) (lost : Nat) : Prop where
  mapped : c.map.find? key ≠ none
  not_active : key ∉ c.activeList.keys
  not_inactive : key ∉ c.inactiveList.keys
  counted : c.listSize c.activeList + lost ≤ c.activeSize
  nodup_active : c.activeList.keys.Nodup

/-- A weighted entry at the front of the active list is popped, its weight
lowered, and its key promoted in the rest, where it no longer is. -/
theorem reclaimActiveLoop_weighted (minFreeBytes fuel : Nat) {c : HierarchicalCache K V} (demotion : Nat)
    {key : K} {ref : Nat} {rest : Lru K Nat} (hl : c.activeList = (key, ref) :: rest) (hkey : key ∉ rest.keys)
    (hw : 0 < c.weightOf ref) :
    reclaimActiveLoop minFreeBytes (fuel + 1) c demotion =
      reclaimActiveLoop minFreeBytes fuel
        ({ c with activeList := rest }.setMeta ref fun m => { m with weight := m.weight - 1 }) demotion := by
  have hw' : 0 < ({ c with activeList := rest } : HierarchicalCache K V).weightOf ref := hw
  have hsame : ∀ x : HierarchicalCache K V, x.activeList = rest → { x with activeList := x.activeList.promote key } = x := by
    intro x hx
    rw [hx, Lru.promote_of_not_mem hkey, ← hx]
  conv => lhs; unfold reclaimActiveLoop
  simp only [hl, if_pos hw']
  rw [hsame _ rfl]

theorem lost_weighted {c : HierarchicalCache K V} {key k : K} {ref : Nat} {rest : Lru K Nat} {lost : Nat}
    (hl : c.activeList = (k, ref) :: rest) (h : Lost c key lost) (f : CacheMeta → CacheMeta) :
    Lost ({ c with activeList := rest }.setMeta ref f) key lost := by
  have hcounted := h.counted
  rw [hl, listSize_cons] at hcounted
  have hnodup := h.nodup_active
  rw [hl] at hnodup
  refine ⟨h.mapped, fun hr => h.not_active ?_, h.not_inactive, ?_, (List.nodup_cons.mp hnodup).2⟩
  · rw [hl]
    exact List.mem_cons_of_mem _ hr
  · show ({ c with activeList := rest }.setMeta ref f).listSize rest + lost ≤ c.activeSize
    rw [listSize_congr (refSize_setMeta _ ref f)]
    have hsame : ({ c with activeList := rest } : HierarchicalCache K V).listSize rest = c.listSize rest := rfl
    omega

theorem lost_demote {c : HierarchicalCache K V} {key k : K} {ref : Nat} {rest : Lru K Nat} {lost : Nat}
    (hl : c.activeList = (k, ref) :: rest) (h : Lost c key lost) :
    Lost { c with
        activeList := rest
        activeSize := c.activeSize - c.refSize ref
        inactiveList := c.inactiveList.put k ref
        inactiveSize := c.inactiveSize + c.refSize ref } key lost := by
  have hcounted := h.counted
  rw [hl, listSize_cons] at hcounted
  have hnodup := h.nodup_active
  rw [hl] at hnodup
  have hk : key ≠ k := fun he => h.not_active (by rw [hl, he]; exact List.mem_cons_self)
  refine ⟨h.mapped, fun hr => h.not_active ?_, ?_, ?_, (List.nodup_cons.mp hnodup).2⟩
  · rw [hl]
    exact List.mem_cons_of_mem _ hr
  · simp only [Lru.keys_put, List.mem_append, List.mem_singleton, hk, or_false]
    exact fun hm => h.not_inactive (List.mem_of_mem_filter hm)
  · show c.listSize rest + lost ≤ c.activeSize - c.refSize ref
    omega

/-- The push after the reclaim leaves a lost entry lost. -/
theorem lost_put {c : HierarchicalCache K V} {key newKey : K} {lost : Nat} (h : Lost c key lost)
    (hne : newKey ≠ key) {ref valueSize : Nat} (hsize : c.refSize ref ≤ valueSize) :
    Lost { c with
      activeList := c.activeList.put newKey ref
      activeSize := c.activeSize + valueSize
      map := c.map.insert newKey ref } key lost := by
  have hput := listSize_put_le c c.activeList newKey ref
  have hcounted := h.counted
  refine ⟨?_, ?_, h.not_inactive, ?_, Lru.nodup_keys_put h.nodup_active newKey ref⟩
  · show (c.map.insert newKey ref).find? key ≠ none
    rw [SortedMap.find?_insert_of_ne _ _ (Ne.symm hne)]
    exact h.mapped
  · simp only [Lru.keys_put, List.mem_append, List.mem_singleton, Ne.symm hne, or_false]
    exact fun hm => h.not_active (List.mem_of_mem_filter hm)
  · show c.listSize (c.activeList.put newKey ref) + lost ≤ c.activeSize + valueSize
    omega

/-- The inactive reclaim removes map entries only of keys on the inactive
list, and does not touch the active list. -/
theorem reclaimInactiveLoop_lost (minFreeBytes : Nat) {key : K} {lost : Nat} :
    ∀ (c : HierarchicalCache K V) (l : Lru K Nat), key ∉ l.keys → Lost c key lost →
      Lost (reclaimInactiveLoop minFreeBytes c l) key lost
  | c, [], _, h => ⟨h.mapped, h.not_active, by simp [reclaimInactiveLoop, Lru.keys], h.counted, h.nodup_active⟩
  | c, (k, ref) :: rest, hl, h => by
    have hk : key ≠ k := fun he => hl (by simp [Lru.keys, he])
    have hrest : key ∉ Lru.keys rest := fun hr => hl (List.mem_cons_of_mem _ hr)
    have hstep : Lost { c with
        inactiveList := rest
        inactiveSize := c.inactiveSize - c.refSize ref
        map := c.map.erase k } key lost :=
      ⟨by simpa [SortedMap.find?_erase, hk] using h.mapped, h.not_active, hrest, h.counted, h.nodup_active⟩
    unfold reclaimInactiveLoop
    dsimp only
    split_ifs
    · exact hstep
    · exact reclaimInactiveLoop_lost minFreeBytes _ rest hrest hstep

theorem reclaimInactiveList_lost {c : HierarchicalCache K V} {key : K} {lost : Nat} (h : Lost c key lost)
    (minFreeBytes : Nat) : Lost (c.reclaimInactiveList minFreeBytes) key lost := by
  unfold reclaimInactiveList
  split_ifs
  · exact h
  · exact reclaimInactiveLoop_lost minFreeBytes c c.inactiveList h.not_inactive h

/-- A lost key stays lost through the active reclaim: the loop moves only
keys of the active list, and each demotion takes from the active size what it
takes from the list. -/
theorem reclaimActiveLoop_lost (minFreeBytes : Nat) {key : K} {lost : Nat} :
    ∀ (fuel : Nat) (c : HierarchicalCache K V) (demotion : Nat), Lost c key lost →
      Lost (reclaimActiveLoop minFreeBytes fuel c demotion).1 key lost
  | 0, c, _, h => h
  | fuel + 1, c, demotion, h => by
    cases hl : c.activeList with
    | nil => simp only [reclaimActiveLoop, hl]; exact h
    | cons e rest =>
      obtain ⟨k, ref⟩ := e
      have hkey : k ∉ Lru.keys rest := Lru.not_mem_keys_of_cons hl h.nodup_active
      by_cases hw : 0 < c.weightOf ref
      · rw [reclaimActiveLoop_weighted minFreeBytes fuel demotion hl hkey hw]
        exact reclaimActiveLoop_lost minFreeBytes fuel _ demotion (lost_weighted hl h _)
      · have hw' : ¬ 0 < ({ c with activeList := rest } : HierarchicalCache K V).weightOf ref := hw
        unfold reclaimActiveLoop
        simp only [hl, if_neg hw']
        split_ifs
        · exact lost_demote hl h
        · exact reclaimActiveLoop_lost minFreeBytes fuel _ _ (lost_demote hl h)

theorem refSize_reclaimInactiveLoop (minFreeBytes : Nat) (ref : Nat) :
    ∀ (c : HierarchicalCache K V) (l : Lru K Nat), (reclaimInactiveLoop minFreeBytes c l).refSize ref = c.refSize ref
  | c, [] => rfl
  | c, (k, r) :: rest => by
    unfold reclaimInactiveLoop
    dsimp only
    split_ifs
    · rfl
    · exact refSize_reclaimInactiveLoop minFreeBytes ref _ rest

theorem refSize_reclaimActiveLoop (minFreeBytes : Nat) (ref : Nat) :
    ∀ (fuel : Nat) (c : HierarchicalCache K V) (demotion : Nat),
      (reclaimActiveLoop minFreeBytes fuel c demotion).1.refSize ref = c.refSize ref
  | 0, c, _ => rfl
  | fuel + 1, c, demotion => by
    cases hl : c.activeList with
    | nil => simp only [reclaimActiveLoop, hl]
    | cons e rest =>
      obtain ⟨k, r⟩ := e
      unfold reclaimActiveLoop
      simp only [hl]
      split_ifs
      · rw [refSize_reclaimActiveLoop minFreeBytes ref fuel]
        exact refSize_setMeta ({ c with activeList := rest } : HierarchicalCache K V) r
          (fun m => { m with weight := m.weight - 1 }) ref
      · rfl
      · exact refSize_reclaimActiveLoop minFreeBytes ref fuel _ _

theorem refSize_reclaimInactiveList (c : HierarchicalCache K V) (minFreeBytes ref : Nat) :
    (c.reclaimInactiveList minFreeBytes).refSize ref = c.refSize ref := by
  unfold reclaimInactiveList
  split_ifs
  · rfl
  · exact refSize_reclaimInactiveLoop minFreeBytes ref c _

theorem refSize_reclaimActiveList (c : HierarchicalCache K V) (minFreeBytes ref : Nat) :
    (c.reclaimActiveList minFreeBytes).refSize ref = c.refSize ref := by
  unfold reclaimActiveList
  split_ifs
  · rfl
  · rw [refSize_reclaimInactiveList, refSize_reclaimActiveLoop]

/-- **A weighted entry leaves both lists.** From any cache whose bookkeeping
holds, a push of a new key into a full active list whose least recent entry
has a weight loses that entry: its key stays in the map but is on neither
list, and the active size still counts its bytes. -/
theorem pushActive_loses_weighted_entry (c : HierarchicalCache K V) (hc : c.Inv) {key : K} {ref : Nat}
    {rest : Lru K Nat} (hl : c.activeList = (key, ref) :: rest) (hw : 0 < c.weightOf ref) {newKey : K}
    (hnew : c.map.find? newKey = none) (value : V) (weight now : Nat)
    (hfull : c.maxActiveSize < c.activeSize + SizedValue.size value) :
    Lost (c.pushActiveWithWeight newKey value weight now) key (c.refSize ref) := by
  unfold pushActiveWithWeight
  dsimp only
  set cell : Value V := ⟨⟨weight, 0, now⟩, value⟩
  set c₁ := (c.alloc cell).2 with hc₁
  have hallocated : ∀ e ∈ c.activeList, e.2 < c.nextRef := fun e he =>
    hc.allocated e.1 e.2 (hc.same_ref e.1 e.2 (.inl he))
  have hmapped : c.map.find? key ≠ none := (hc.mem_map key).mpr (.inl (by simp [hl, Lru.keys]))
  have hne : newKey ≠ key := fun he => hmapped (he ▸ hnew)
  have hfresh : c₁.checkAlreadyCached newKey = false := by
    have hnot : ¬ (newKey ∈ c.activeList.keys ∨ newKey ∈ c.inactiveList.keys) := fun h =>
      (hc.mem_map newKey).mpr h hnew
    simp only [checkAlreadyCached, Bool.or_eq_false_iff]
    exact ⟨Bool.eq_false_iff.mpr fun h => hnot (.inl (Lru.contains_iff.mp h)),
      Bool.eq_false_iff.mpr fun h => hnot (.inr (Lru.contains_iff.mp h))⟩
  have hkey : key ∉ rest.keys := Lru.not_mem_keys_of_cons hl hc.nodup_active
  have hw₁ : 0 < c₁.weightOf ref := by
    rw [hc₁, weightOf_alloc cell (hallocated (key, ref) (by simp [hl]))]
    exact hw
  -- after the first turn of the reclaim the entry is lost
  have hlost₂ : Lost ({ c₁ with activeList := rest }.setMeta ref fun m => { m with weight := m.weight - 1 })
      key (c.refSize ref) := by
    refine ⟨hmapped, hkey, hc.disjoint key (by simp [hl, Lru.keys]), ?_, ?_⟩
    · show ({ c₁ with activeList := rest }.setMeta ref _).listSize rest + c.refSize ref ≤ c.activeSize
      have hrest : ({ c₁ with activeList := rest } : HierarchicalCache K V).listSize rest = c.listSize rest :=
        listSize_alloc cell fun e he => hallocated e (by simp [hl, he])
      have hactive : c.activeSize = c.refSize ref + c.listSize rest := by
        rw [hc.activeSize, hl, listSize_cons]
      rw [listSize_congr (refSize_setMeta _ ref _), hrest]
      omega
    · have hnodup := hc.nodup_active
      rw [hl] at hnodup
      exact (List.nodup_cons.mp hnodup).2
  have hreclaim : c₁.reclaimActiveList (SizedValue.size value) =
      let r := reclaimActiveLoop (SizedValue.size value) rest.length
        ({ c₁ with activeList := rest }.setMeta ref fun m => { m with weight := m.weight - 1 }) 0
      r.1.reclaimInactiveList r.2 := by
    have hl₁ : c₁.activeList = (key, ref) :: rest := hl
    have hnofit : ¬ (c₁.activeList = [] ∨ c₁.activeSize + SizedValue.size value ≤ c₁.maxActiveSize) := by
      rw [hl₁]
      simp only [reduceCtorEq, false_or, not_le]
      exact hfull
    rw [reclaimActiveList, if_neg hnofit, hl₁, List.length_cons,
      reclaimActiveLoop_weighted _ _ _ hl₁ hkey hw₁]
  have hlost₃ : Lost (c₁.reclaimActiveList (SizedValue.size value)) key (c.refSize ref) := by
    rw [hreclaim]
    exact reclaimInactiveList_lost (reclaimActiveLoop_lost _ _ _ 0 hlost₂) _
  have hsize : (c₁.reclaimActiveList (SizedValue.size value)).refSize (c.alloc cell).1 = SizedValue.size value := by
    rw [refSize_reclaimActiveList, hc₁, refSize_alloc_self]
  rw [hfresh, if_neg Bool.false_ne_true]
  exact lost_put hlost₃ hne hsize.le

/-- The crate's tests size every `u64` value at 64 bytes. -/
instance : SizedValue Nat := ⟨fun _ => 64⟩

/-- A new cache of 100 bytes, 65 of them active, after `push_active_with_weight(1, 1, 1)`. -/
def weightedOne : HierarchicalCache Nat Nat := (new 100 65).pushActiveWithWeight 1 1 1 0

theorem weightedOne_inv : weightedOne.Inv := by
  have hmap : weightedOne.map = SortedMap.empty.insert 1 0 := rfl
  have hactive : weightedOne.activeList = [(1, 0)] := rfl
  have hinactive : weightedOne.inactiveList = [] := rfl
  have hfind : ∀ k, weightedOne.map.find? k = if k = 1 then some 0 else none := by
    intro k
    rw [hmap]
    by_cases hk : k = 1
    · subst hk
      simp
    · rw [if_neg hk, SortedMap.find?_insert_of_ne _ _ hk]
      rfl
  refine ⟨by decide, by decide, fun k _ h => by simp [hinactive, Lru.keys] at h, fun k => ?_, ?_, ?_, rfl, rfl⟩
  · by_cases hk : k = 1 <;> simp [hfind, hactive, hinactive, Lru.keys, hk]
  · rintro k ref (h | h)
    · simp only [hactive, List.mem_singleton, Prod.mk.injEq] at h
      obtain ⟨rfl, rfl⟩ := h
      rfl
    · simp [hinactive] at h
  · intro k ref h
    rw [hfind] at h
    split_ifs at h
    cases h
    decide

/-- `push_active(2, 2)` then reclaims the active list: it pops the entry of
key 1, lowers its weight and promotes nothing. Key 1 stays in the map, on no
list, and the active size counts 128 bytes for a list of 64. -/
theorem weighted_entry_lost :
    (weightedOne.pushActive 2 2 0).map.find? 1 = some 0 ∧ (weightedOne.pushActive 2 2 0).activeList = [(2, 1)] ∧
      (weightedOne.pushActive 2 2 0).inactiveList = [] ∧ (weightedOne.pushActive 2 2 0).activeSize = 128 ∧
      Lost (weightedOne.pushActiveWithWeight 2 2 0 0) 1 (weightedOne.refSize 0) := by
  have hl : weightedOne.activeList = (1, 0) :: [] := rfl
  refine ⟨rfl, rfl, rfl, rfl, pushActive_loses_weighted_entry weightedOne weightedOne_inv hl (by decide)
    (by decide) 2 0 0 (by decide)⟩

end HierarchicalCache

end ElasticStream.Cache
