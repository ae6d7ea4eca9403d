import Mathlib
import ElasticStream.Store.Segment
import ElasticStream.Collections.Tally
import ElasticStream.Codec.Cursor

/-! # Cache sizes and reclaiming in the store

Beside its entries, a segment's block cache (store/src/io/block_cache.rs)
keeps the hit count and strong references of each entry, a skip list of the
entries ordered by score, and `cache_size`, meant to be the capacity of its
loaded buffers. The loaded and the loading entries share one map, and each
of the four ways of removing entries repeats the accounting. `remove`
subtracts `capacity()` from every entry it drops, and the capacity of a
loading entry is its range's length, which was never added: the size then
underflows or falls below what the cache holds (`remove_drops_loading_size`).

`Wal::try_reclaim` (store/src/io/wal.rs) sums the caches' sizes and evicts
the lowest-scored entries, segment by segment, until enough bytes are free. It
means to keep the last entry of the segment being written, but it checks
that entry only after `remove_by_score` has removed it.

Every `-=` on a counter is `Outcome.sub`: a panic on underflow, as the
debug build checks. -/

namespace ElasticStream.Store.Reclaim
open ElasticStream.Codec ElasticStream.Collections

/-- `Entry` of the block cache: its bookkeeping and the loaded buffer or
loading range (`Store.Entry`). Instants are numbers of nanoseconds. -/
structure CacheEntry where
  hit : Nat
  lastHitInstant : Nat
  strongRc : Nat
  entry : Entry
  deriving DecidableEq, Repr

namespace CacheEntry

def isLoaded (e : CacheEntry) : Bool := e.entry.buf?.isSome

/-- `capacity()`: a buffer's capacity, a loading range's length. -/
def capacity (e : CacheEntry) : Nat :=
  match e.entry with
  | .loaded buf => buf.capacity
  | .loading r => r.len

def walOffset (e : CacheEntry) : Nat := e.entry.walOffset

/-- `score()`: the last hit, and about a second more for each hit. -/
def score (e : CacheEntry) : Nat := e.lastHitInstant + e.hit * 2 ^ 27

def isStrongReferenced (e : CacheEntry) : Bool := 0 < e.strongRc

/-- What the entry should count in `cache_size`. -/
def loadedCapacity (e : CacheEntry) : Nat := if e.isLoaded then e.capacity else 0

/-- What `remove` subtracts for the entry beyond what it counts. -/
def loadingCapacity (e : CacheEntry) : Nat := if e.isLoaded then 0 else e.capacity

theorem loadedCapacity_add_loadingCapacity (e : CacheEntry) :
    e.loadedCapacity + e.loadingCapacity = e.capacity := by
  unfold loadedCapacity loadingCapacity
  split_ifs <;> simp

end CacheEntry

/-- A segment's `BlockCache` with its bookkeeping. The skip list's comparator
calls two entries equal when their WAL offsets are, so it holds each entry at
most once: it is modelled by the keys of the entries it holds, and its order
is recomputed from their scores when its front is read. -/
structure BlockCache where
  walOffset : Nat
  entries : SortedMap Nat CacheEntry
  scoreList : List Nat
  cacheSize : Nat
  alignment : Nat
  deriving DecidableEq

namespace BlockCache

/-- The cache as `Store.BlockCache` sees it: the entries without bookkeeping. -/
def view (c : BlockCache) : Store.BlockCache := ⟨c.walOffset, c.entries.mapValues (·.entry), c.alignment⟩

/-- The capacity of the loaded buffers. -/
def loadedSize (c : BlockCache) : Nat := c.entries.total CacheEntry.loadedCapacity

/-- `add_entry` at time `now`: the buffer replaces the entry at its offset and
inherits its strong references. -/
def addEntry (c : BlockCache) (buf : AlignedBuf) (now : Nat) : Outcome Empty BlockCache := do
  Outcome.assert (c.walOffset ≤ buf.walOffset)
  let key := buf.walOffset - c.walOffset
  let (strongRc, cacheSize, scoreList) ← match c.entries.find? key with
    | some pre => do
      let cacheSize ← if pre.isLoaded then Outcome.sub c.cacheSize pre.capacity else pure c.cacheSize
      pure (pre.strongRc, cacheSize, c.scoreList.erase key)
    | none => pure (0, c.cacheSize, c.scoreList)
  pure { c with
    entries := c.entries.insert key ⟨0, now, strongRc, .loaded buf⟩
    scoreList := key :: scoreList
    cacheSize := cacheSize + buf.capacity }

/-- `add_loading_entry` at time `now`: the range replaces the entry at its
offset; it is neither counted nor put on the skip list. -/
def addLoadingEntry (c : BlockCache) (r : EntryRange) (now : Nat) : Outcome Empty BlockCache := do
  Outcome.assert (c.walOffset ≤ r.walOffset)
  let key := r.walOffset - c.walOffset
  let entries := c.entries.insert key ⟨0, now, 0, .loading r⟩
  match c.entries.find? key with
  | some pre => do
    let cacheSize ← if pre.isLoaded then Outcome.sub c.cacheSize pre.capacity else pure c.cacheSize
    pure { c with entries, scoreList := c.scoreList.erase key, cacheSize }
  | none => pure { c with entries }

/-- `remove_by`: the entry at a WAL offset, removed. -/
def removeBy (c : BlockCache) (walOffset : Nat) : Outcome Empty (Option CacheEntry × BlockCache) :=
  if walOffset < c.walOffset then pure (none, c)
  else
    let key := walOffset - c.walOffset
    match c.entries.find? key with
    | none => pure (none, c)
    | some e => do
      let cacheSize ← if e.isLoaded then Outcome.sub c.cacheSize e.capacity else pure c.cacheSize
      pure (some e, { c with entries := c.entries.erase key, scoreList := c.scoreList.erase key, cacheSize })

/-- The front of the skip list: the entry of least score, then least WAL offset. -/
def front? (c : BlockCache) : Option CacheEntry :=
  (c.scoreList.filterMap c.entries.find?).argmin fun e => toLex (e.score, e.walOffset)

/-- `min_score`: zero when the skip list is empty or its front is referenced. -/
def minScore (c : BlockCache) : Nat :=
  match c.front? with
  | none => 0
  | some e => if e.isStrongReferenced then 0 else e.score

/-- `remove_by_score`: the front of the skip list, removed unless referenced. -/
def removeByScore (c : BlockCache) : Outcome Empty (Option CacheEntry × BlockCache) :=
  match c.front? with
  | none => pure (none, c)
  | some e => if e.isStrongReferenced then pure (none, c) else c.removeBy e.walOffset

/-- The closure of `remove`'s `retain`, over the entries in key order: each
entry `pred` holds of leaves the skip list and has its capacity subtracted. -/
def removeLoop (pred : CacheEntry → Bool) :
    List (Nat × CacheEntry) → Nat → List Nat → Outcome Empty (Nat × List Nat)
  | [], cacheSize, scoreList => pure (cacheSize, scoreList)
  | (key, e) :: rest, cacheSize, scoreList =>
    if pred e then do
      let cacheSize ← Outcome.sub cacheSize e.capacity
      removeLoop pred rest cacheSize (scoreList.erase key)
    else removeLoop pred rest cacheSize scoreList

/-- `remove(pred)`. -/
def remove (c : BlockCache) (pred : CacheEntry → Bool) : Outcome Empty BlockCache := do
  let (cacheSize, scoreList) ← removeLoop pred c.entries.entries c.cacheSize c.scoreList
  pure { c with entries := c.entries.filter fun e => !pred e.2, scoreList, cacheSize }

/-- `wal_offset_of_last_cache_entry`. -/
def walOffsetOfLastCacheEntry (c : BlockCache) : Nat :=
  match c.entries.entries.getLast? with
  | some (key, _) => key + c.walOffset
  | none => 0

/-- The keys of the entries a read of `r` finds, as `try_get_entries` and
`strong_reference_entries` search them. -/
def searched (c : BlockCache) (r : EntryRange) : List Nat :=
  let start := r.walOffset - c.walOffset
  let startKey := (c.entries.upperBound start).getD start
  ((c.entries.range startKey (start + r.len)).filter fun e => e.2.entry.coversPartial r).map (·.1)

/-- `strong_reference_entries(r, ref_count)`. -/
def strongReferenceEntries (c : BlockCache) (r : EntryRange) (refCount : Int) : Outcome Empty BlockCache :=
  if r.walOffset < c.walOffset then pure c
  else
    (c.searched r).foldlM (fun (c : BlockCache) key =>
      match c.entries.find? key with
      | none => pure c
      | some e => do
        let strongRc ← if 0 < refCount then pure (e.strongRc + refCount.toNat)
          else Outcome.sub e.strongRc (-refCount).toNat
        pure { c with entries := c.entries.insert key { e with strongRc } }) c

/-- The hit bookkeeping of `try_get_entries` on one entry: it leaves the skip
list, is hit, and goes back on it, whether loaded or not. -/
def touch (now : Nat) (c : BlockCache) (key : Nat) : BlockCache :=
  match c.entries.find? key with
  | none => c
  | some e =>
    { c with
      entries := c.entries.insert key { e with hit := e.hit + 1, lastHitInstant := now }
      scoreList := key :: c.scoreList.erase key }

/-- `try_get_entries` at time `now`: the answer of `Store.BlockCache`, and the
hits recorded when nothing is missed. -/
def tryGetEntries (c : BlockCache) (r : EntryRange) (now : Nat) :
    Except (List EntryRange) (Option (List AlignedBuf)) × BlockCache :=
  let result := c.view.tryGetEntries r
  match result with
  | .ok _ => (result, (c.searched r).foldl (touch now) c)
  | .error _ => (result, c)

/-- The bookkeeping: `cache_size` is the capacity of the loaded buffers, the
skip list holds exactly the loaded entries, once each, and every entry sits at
its own offset from the cache's start. -/
structure Inv (c : BlockCache) : Prop where
  size : c.cacheSize = c.loadedSize
  nodup : c.scoreList.Nodup
  scored : ∀ key, key ∈ c.scoreList ↔ ∃ e, c.entries.find? key = some e ∧ e.isLoaded
  keyed : ∀ key e, c.entries.find? key = some e → e.walOffset = c.walOffset + key

/-! ## `remove` -/

/-- What `removeLoop` subtracts when it does not panic: the capacity of every
entry it drops. -/
theorem removeLoop_ok (pred : CacheEntry → Bool) :
    ∀ (l : List (Nat × CacheEntry)) (cacheSize : Nat) (scoreList : List Nat) {r : Nat × List Nat},
      removeLoop pred l cacheSize scoreList = .ok r →
      r.1 + ((l.filter fun e => pred e.2).map fun e => e.2.capacity).sum = cacheSize
  | [], _, _, r, h => by
    simp only [removeLoop, Outcome.pure_eq, Outcome.ok.injEq] at h
    subst h
    simp
  | (key, e) :: rest, cacheSize, scoreList, r, h => by
    unfold removeLoop at h
    split_ifs at h with hp
    · unfold Outcome.sub at h
      split_ifs at h with hle
      · rw [Outcome.ok_bind] at h
        have ih := removeLoop_ok pred rest _ _ h
        simp only [List.filter_cons, hp, if_true, List.map_cons, List.sum_cons]
        omega
      · simp at h
    · have ih := removeLoop_ok pred rest _ _ h
      simpa [List.filter_cons, hp] using ih

/-- When `remove` returns, the size it leaves falls short of the loaded
capacity by the capacity of the loading entries it dropped. -/
theorem remove_ok_size {c : BlockCache} (hc : c.Inv) (pred : CacheEntry → Bool) {c' : BlockCache}
    (h : c.remove pred = .ok c') :
    c'.cacheSize + ((c.entries.entries.filter fun e => pred e.2).map fun e => e.2.loadingCapacity).sum =
      c'.loadedSize := by
  obtain ⟨r, hloop, hc'⟩ := Outcome.bind_eq_ok.mp h
  simp only [Outcome.pure_eq, Outcome.ok.injEq] at hc'
  subst hc'
  have hsub := removeLoop_ok pred _ _ _ hloop
  have hsplit : ((c.entries.entries.filter fun e => pred e.2).map fun e => e.2.loadedCapacity).sum +
      (c.entries.filter fun e => !pred e.2).total CacheEntry.loadedCapacity = c.entries.total CacheEntry.loadedCapacity :=
    SortedMap.total_filter_add CacheEntry.loadedCapacity c.entries fun e => pred e.2
  have hcap : ((c.entries.entries.filter fun e => pred e.2).map fun e => e.2.capacity).sum =
      ((c.entries.entries.filter fun e => pred e.2).map fun e => e.2.loadedCapacity).sum +
        ((c.entries.entries.filter fun e => pred e.2).map fun e => e.2.loadingCapacity).sum := by
    rw [← List.sum_map_add]
    simp only [CacheEntry.loadedCapacity_add_loadingCapacity]
  have hsize := hc.size
  unfold loadedSize at hsize ⊢
  show r.1 + _ = SortedMap.total _ (c.entries.filter fun e => !pred e.2)
  omega

/-- **`remove` drops a loading entry's length from the size.** From any cache
whose bookkeeping holds, a `remove` whose predicate holds of a loading entry
of positive length either underflows `cache_size` and panics, or returns a
cache whose size falls short of the capacity it holds. -/
theorem remove_drops_loading_size (c : BlockCache) (hc : c.Inv) (pred : CacheEntry → Bool) {key : Nat}
    {e : CacheEntry} (he : c.entries.find? key = some e) (hpred : pred e = true) (hloading : e.isLoaded = false)
    (hlen : 0 < e.capacity) :
    c.remove pred = .panic ∨ ∃ c', c.remove pred = .ok c' ∧ ¬ c'.Inv := by
  cases hr : c.remove pred with
  | panic => exact .inl rfl
  | error err => exact err.elim
  | ok c' =>
    refine .inr ⟨c', rfl, fun hc' => ?_⟩
    have hsize := remove_ok_size hc pred hr
    have hmem : (key, e) ∈ c.entries.entries.filter fun e => pred e.2 :=
      List.mem_filter.mpr ⟨SortedMap.find?_eq_some_iff.mp he, hpred⟩
    have hle : e.loadingCapacity ≤ ((c.entries.entries.filter fun e => pred e.2).map fun e => e.2.loadingCapacity).sum :=
      List.le_sum_of_mem (List.mem_map.mpr ⟨(key, e), hmem, rfl⟩)
    have hcap : e.loadingCapacity = e.capacity := by simp [CacheEntry.loadingCapacity, hloading]
    have := hc'.size
    omega

/-- A loaded block of 4096 bytes at the start of the segment. -/
def loadedBlock : CacheEntry := ⟨0, 0, 0, .loaded ⟨0, [], 4096⟩⟩

/-- A block of 4096 bytes being read right after it. -/
def loadingBlock : CacheEntry := ⟨0, 0, 0, .loading ⟨4096, 4096⟩⟩

/-- The cache of a segment at WAL offset 0 with both blocks: 4096 bytes
counted, the loaded block on the skip list. -/
def twoBlockCache : BlockCache := ⟨0, ⟨[(0, loadedBlock), (4096, loadingBlock)], by decide⟩, [0], 4096, 4096⟩

theorem twoBlockCache_find? (key : Nat) :
    twoBlockCache.entries.find? key =
      if key = 0 then some loadedBlock else if key = 4096 then some loadingBlock else none := by
  by_cases h0 : key = 0
  · subst h0
    rfl
  · by_cases h1 : key = 4096
    · subst h1
      rfl
    · have hb0 : (key == 0) = false := beq_eq_false_iff_ne.mpr h0
      have hb1 : (key == 4096) = false := beq_eq_false_iff_ne.mpr h1
      simp [twoBlockCache, SortedMap.find?, List.lookup, hb0, hb1, h0, h1]

theorem twoBlockCache_inv : twoBlockCache.Inv := by
  refine ⟨rfl, by decide, fun key => ?_, fun key e he => ?_⟩
  · rw [twoBlockCache_find?]
    by_cases h0 : key = 0
    · subst h0
      simp [twoBlockCache, loadedBlock, CacheEntry.isLoaded, Entry.buf?]
    · by_cases h1 : key = 4096
      · subst h1
        simp [twoBlockCache, loadingBlock, CacheEntry.isLoaded, Entry.buf?]
      · simp [twoBlockCache, h0, h1]
  · rw [twoBlockCache_find?] at he
    split_ifs at he with h0 h1
    · cases he
      subst h0
      rfl
    · cases he
      subst h1
      rfl

/-- Removing the loading block subtracts its 4096 bytes: nothing is left
counted, though the loaded block is still cached. -/
theorem remove_loading_block_uncounts :
    (∃ c', twoBlockCache.remove (fun e => !e.isLoaded) = .ok c' ∧ c'.cacheSize = 0 ∧ c'.loadedSize = 4096) ∧
      (twoBlockCache.remove (fun e => !e.isLoaded) = .panic ∨
        ∃ c', twoBlockCache.remove (fun e => !e.isLoaded) = .ok c' ∧ ¬ c'.Inv) :=
  ⟨⟨_, rfl, rfl, rfl⟩, remove_drops_loading_size twoBlockCache twoBlockCache_inv _ (twoBlockCache_find? 4096)
    rfl rfl (by decide)⟩

/-! ## Removing one loaded entry -/

/-- The cache after `remove_by` took the loaded entry `e` at `key`. -/
def erased (c : BlockCache) (key : Nat) (e : CacheEntry) : BlockCache :=
  { c with entries := c.entries.erase key, scoreList := c.scoreList.erase key, cacheSize := c.cacheSize - e.capacity }

theorem loadedCapacity_of_loaded {e : CacheEntry} (hl : e.isLoaded = true) : e.loadedCapacity = e.capacity := by
  simp [CacheEntry.loadedCapacity, hl]

theorem capacity_le_cacheSize {c : BlockCache} (hc : c.Inv) {key : Nat} {e : CacheEntry}
    (he : c.entries.find? key = some e) (hl : e.isLoaded = true) : e.capacity ≤ c.cacheSize := by
  have htotal := SortedMap.total_of_find? CacheEntry.loadedCapacity he
  rw [hc.size, loadedSize, htotal, loadedCapacity_of_loaded hl]
  exact Nat.le_add_right _ _

theorem removeBy_loaded {c : BlockCache} (hc : c.Inv) {key : Nat} {e : CacheEntry}
    (he : c.entries.find? key = some e) (hl : e.isLoaded = true) :
    c.removeBy e.walOffset = .ok (some e, c.erased key e) := by
  have hkey := hc.keyed key e he
  have hkey' : e.walOffset - c.walOffset = key := by omega
  simp only [removeBy, hkey', he, hl, if_true, Outcome.sub_of_le (capacity_le_cacheSize hc he hl),
    Outcome.ok_bind, Outcome.pure_eq, if_neg (show ¬ e.walOffset < c.walOffset by omega)]
  rfl

theorem erased_inv {c : BlockCache} (hc : c.Inv) {key : Nat} {e : CacheEntry}
    (he : c.entries.find? key = some e) (hl : e.isLoaded = true) : (c.erased key e).Inv := by
  refine ⟨?_, hc.nodup.erase key, fun k => ?_, fun k e' he' => ?_⟩
  · have htotal := SortedMap.total_of_find? CacheEntry.loadedCapacity he
    have hsize := hc.size
    rw [loadedSize, htotal, loadedCapacity_of_loaded hl] at hsize
    show c.cacheSize - e.capacity = (c.entries.erase key).total CacheEntry.loadedCapacity
    omega
  · show k ∈ c.scoreList.erase key ↔ ∃ e', (c.entries.erase key).find? k = some e' ∧ e'.isLoaded = true
    rw [hc.nodup.mem_erase_iff, SortedMap.find?_erase]
    by_cases hk : k = key
    · simp [hk]
    · simp only [hk, if_false, ne_eq, not_false_eq_true, true_and]
      exact hc.scored k
  · have hfind : (c.entries.erase key).find? k = some e' := he'
    rw [SortedMap.find?_erase] at hfind
    split_ifs at hfind
    exact hc.keyed k e' hfind

theorem front?_mem {c : BlockCache} {e : CacheEntry} (h : c.front? = some e) :
    ∃ key ∈ c.scoreList, c.entries.find? key = some e :=
  List.mem_filterMap.mp (List.argmin_mem h)

theorem front?_of_minScore_pos {c : BlockCache} (h : 0 < c.minScore) :
    ∃ e, c.front? = some e ∧ e.isStrongReferenced = false := by
  unfold minScore at h
  split at h
  · omega
  · rename_i e he
    split_ifs at h with hs
    · omega
    · exact ⟨e, he, by simpa using hs⟩

/-- The front of the skip list, when not referenced, is a loaded entry, and
`remove_by_score` removes it. -/
theorem removeByScore_of_front {c : BlockCache} (hc : c.Inv) {e : CacheEntry} (hf : c.front? = some e)
    (hs : e.isStrongReferenced = false) :
    ∃ key, c.entries.find? key = some e ∧ e.isLoaded = true ∧ c.removeByScore = .ok (some e, c.erased key e) := by
  obtain ⟨key, hmem, he⟩ := front?_mem hf
  obtain ⟨e', he', hl⟩ := (hc.scored key).mp hmem
  rw [he] at he'
  cases he'
  refine ⟨key, he, hl, ?_⟩
  simp only [removeByScore, hf, hs, Bool.false_eq_true, if_false]
  exact removeBy_loaded hc he hl

/-- What `remove_by_score` can do to a cache whose bookkeeping holds: nothing,
or remove the loaded entry at the front of the skip list. -/
theorem removeByScore_spec {c : BlockCache} (hc : c.Inv) :
    c.removeByScore = .ok (none, c) ∨
      ∃ key e, c.entries.find? key = some e ∧ e.isLoaded = true ∧ c.removeByScore = .ok (some e, c.erased key e) := by
  cases hf : c.front? with
  | none => exact .inl (by simp [removeByScore, hf])
  | some e =>
    by_cases hs : e.isStrongReferenced = true
    · exact .inl (by simp [removeByScore, hf, hs])
    · obtain ⟨key, he, hl, hrem⟩ := removeByScore_of_front hc hf (by simpa using hs)
      exact .inr ⟨key, e, he, hl, hrem⟩

end BlockCache

/-! ## `Wal::try_reclaim` -/

/-- What `try_reclaim` reads of a `LogSegment`. -/
structure Segment where
  status : Status
  blockCache : BlockCache
  deriving DecidableEq

/-- `WalCache`. -/
structure WalCache where
  maxCacheSize : Nat
  currentCacheSize : Nat
  highWatermark : Nat
  deriving DecidableEq, Repr

/-- `Percentage::from(percent).apply_to(value)`. -/
def applyPercent (percent value : Nat) : Nat := value * percent / 100

/-- The caches' total size. -/
def totalSize (segments : List Segment) : Nat := (segments.map (·.blockCache.cacheSize)).sum

/-- Insertion into the skip list of segments ordered by score; a segment goes
after those of equal score. -/
def insertByScore (e : Nat × Nat) : List (Nat × Nat) → List (Nat × Nat)
  | [] => [e]
  | x :: rest => if e.2 < x.2 then e :: x :: rest else x :: insertByScore e rest

/-- One turn of the `for_each` that fills the skip list of segments. -/
def enqueue (segments : List Segment) (queue : List (Nat × Nat)) (i : Nat) : List (Nat × Nat) :=
  match segments[i]? with
  | some seg => if 0 < seg.blockCache.minScore then insertByScore (i, seg.blockCache.minScore) queue else queue
  | none => queue

/-- The skip list `try_reclaim` builds: each segment with a positive
`min_score`, by its index. -/
def initialQueue (segments : List Segment) : List (Nat × Nat) :=
  (List.range segments.length).foldl (enqueue segments) []

/-- The bytes `try_reclaim` sets out to free: down to the high watermark, and
at least enough to leave `min_free_bytes` free. -/
def toReclaim (segments : List Segment) (wc : WalCache) (minFreeBytes : Nat) : Nat :=
  let cacheSize := totalSize segments
  let high := applyPercent wc.highWatermark wc.maxCacheSize
  let toReclaim := if high < cacheSize then cacheSize - high else 0
  let currentFreeBytes : Int := wc.maxCacheSize - cacheSize
  if currentFreeBytes + toReclaim < minFreeBytes then (minFreeBytes - currentFreeBytes).toNat else toReclaim

/-- The reclaiming loop: pop the segment of least score, remove its
lowest-scored entry, and count it and put the segment back unless the entry
was the last one of a segment being written. Every turn removes an entry or
drops a segment from the skip list, so the number of entries and segments
bounds the turns. -/
def reclaimLoop (goal : Nat) : Nat → List Segment → List (Nat × Nat) → Nat → Outcome Empty (List Segment × Nat)
  | 0, segments, _, reclaimed => pure (segments, reclaimed)
  | fuel + 1, segments, queue, reclaimed =>
    if goal ≤ reclaimed then pure (segments, reclaimed)
    else
      match queue with
      | [] => pure (segments, reclaimed)
      | (i, _) :: queue =>
        match segments[i]? with
        | none => pure (segments, reclaimed)
        | some seg => do
          let lastWalOffset := seg.blockCache.walOffsetOfLastCacheEntry
          let (entry, cache) ← seg.blockCache.removeByScore
          let segments := segments.set i { seg with blockCache := cache }
          match entry with
          | none => reclaimLoop goal fuel segments queue reclaimed
          | some e =>
            -- the last writable entry is skipped only after it was removed
            if seg.status = .readWrite ∧ e.walOffset = lastWalOffset then
              reclaimLoop goal fuel segments queue reclaimed
            else
              let score := cache.minScore
              let queue := if 0 < score then insertByScore (i, score) queue else queue
              reclaimLoop goal fuel segments queue (reclaimed + e.capacity)

/-- `Wal::try_reclaim(min_free_bytes)`: the bytes reclaimed and the bytes
free, the segments, and the WAL cache with its recorded size. -/
def tryReclaim (segments : List Segment) (wc : WalCache) (minFreeBytes : Nat) :
    Outcome Empty ((Nat × Nat) × List Segment × WalCache) :=
  let cacheSize := totalSize segments
  let currentFreeBytes : Int := wc.maxCacheSize - cacheSize
  let goal := toReclaim segments wc minFreeBytes
  if goal = 0 then pure ((0, currentFreeBytes.toNat), segments, wc)
  else do
    let fuel := (segments.map fun s => s.blockCache.entries.entries.length).sum + segments.length
    let (segments, reclaimed) ← reclaimLoop goal fuel segments (initialQueue segments) 0
    let currentCacheSize ← Outcome.sub cacheSize reclaimed
    pure ((reclaimed, (max 0 (currentFreeBytes + reclaimed)).toNat), segments, { wc with currentCacheSize })

/-! ## The reclaiming loop -/

theorem sum_map_set_add {α : Type} (f : α → Nat) :
    ∀ (l : List α) (i : Nat) {a : α} (b : α), l[i]? = some a → ((l.set i b).map f).sum + f a = (l.map f).sum + f b
  | [], _, _, _, h => by simp at h
  | x :: l, 0, a, b, h => by
    simp only [List.getElem?_cons_zero, Option.some.injEq] at h
    subst h
    simp only [List.set_cons_zero, List.map_cons, List.sum_cons]
    omega
  | x :: l, i + 1, a, b, h => by
    have ih := sum_map_set_add f l i b (by simpa using h)
    simp only [List.set_cons_succ, List.map_cons, List.sum_cons]
    omega

theorem totalSize_set {segments : List Segment} {i : Nat} {seg : Segment} (h : segments[i]? = some seg)
    (seg' : Segment) :
    totalSize (segments.set i seg') + seg.blockCache.cacheSize = totalSize segments + seg'.blockCache.cacheSize :=
  sum_map_set_add _ segments i seg' h

theorem insertByScore_perm (e : Nat × Nat) : ∀ q : List (Nat × Nat), (insertByScore e q).Perm (e :: q)
  | [] => List.Perm.refl _
  | x :: rest => by
    unfold insertByScore
    split_ifs
    · exact List.Perm.refl _
    · exact ((insertByScore_perm e rest).cons x).trans (List.Perm.swap e x rest)

theorem BlockCache.erased_cacheSize {c : BlockCache} (hc : c.Inv) {key : Nat} {e : CacheEntry}
    (he : c.entries.find? key = some e) (hl : e.isLoaded = true) :
    (c.erased key e).cacheSize + e.capacity = c.cacheSize := by
  have := BlockCache.capacity_le_cacheSize hc he hl
  show c.cacheSize - e.capacity + e.capacity = c.cacheSize
  omega

/-- One removal keeps every cache's bookkeeping and lowers the total by the
removed capacity. -/
theorem set_erased {segments : List Segment} (hinv : ∀ s ∈ segments, s.blockCache.Inv) {i : Nat}
    {seg : Segment} (hseg : segments[i]? = some seg) {key : Nat} {e : CacheEntry}
    (he : seg.blockCache.entries.find? key = some e) (hl : e.isLoaded = true) :
    (∀ s ∈ segments.set i { seg with blockCache := seg.blockCache.erased key e }, s.blockCache.Inv) ∧
      totalSize (segments.set i { seg with blockCache := seg.blockCache.erased key e }) + e.capacity =
        totalSize segments := by
  have hc := hinv seg (List.mem_of_getElem? hseg)
  refine ⟨fun s hs => ?_, ?_⟩
  · rcases List.mem_or_eq_of_mem_set hs with hs | rfl
    · exact hinv s hs
    · exact BlockCache.erased_inv hc he hl
  · have hset := totalSize_set hseg { seg with blockCache := seg.blockCache.erased key e }
    have hsize := BlockCache.erased_cacheSize hc he hl
    dsimp only at hset
    omega

section Turn
variable {goal fuel reclaimed i score : Nat} {segments : List Segment} {rest : List (Nat × Nat)} {seg : Segment}
  {cache : BlockCache}

/-- A turn in which `remove_by_score` removed nothing. -/
theorem reclaimLoop_none (hgoal : ¬ goal ≤ reclaimed) (hseg : segments[i]? = some seg)
    (hrem : seg.blockCache.removeByScore = .ok (none, cache)) :
    reclaimLoop goal (fuel + 1) segments ((i, score) :: rest) reclaimed =
      reclaimLoop goal fuel (segments.set i { seg with blockCache := cache }) rest reclaimed := by
  simp only [reclaimLoop, if_neg hgoal, hseg, hrem, Outcome.ok_bind]

/-- A turn that removed the last entry of a segment being written. -/
theorem reclaimLoop_skip {e : CacheEntry} (hgoal : ¬ goal ≤ reclaimed) (hseg : segments[i]? = some seg)
    (hrem : seg.blockCache.removeByScore = .ok (some e, cache))
    (hskip : seg.status = .readWrite ∧ e.walOffset = seg.blockCache.walOffsetOfLastCacheEntry) :
    reclaimLoop goal (fuel + 1) segments ((i, score) :: rest) reclaimed =
      reclaimLoop goal fuel (segments.set i { seg with blockCache := cache }) rest reclaimed := by
  simp only [reclaimLoop, if_neg hgoal, hseg, hrem, Outcome.ok_bind, if_pos hskip]

/-- A turn that removed and counted an entry. -/
theorem reclaimLoop_count {e : CacheEntry} (hgoal : ¬ goal ≤ reclaimed) (hseg : segments[i]? = some seg)
    (hrem : seg.blockCache.removeByScore = .ok (some e, cache))
    (hskip : ¬ (seg.status = .readWrite ∧ e.walOffset = seg.blockCache.walOffsetOfLastCacheEntry)) :
    reclaimLoop goal (fuel + 1) segments ((i, score) :: rest) reclaimed =
      reclaimLoop goal fuel (segments.set i { seg with blockCache := cache })
        (if 0 < cache.minScore then insertByScore (i, cache.minScore) rest else rest) (reclaimed + e.capacity) := by
  simp only [reclaimLoop, if_neg hgoal, hseg, hrem, Outcome.ok_bind, if_neg hskip]

end Turn

/-- The loop keeps every cache's bookkeeping, reclaims no more than the caches
lose, and leaves alone every segment not on its skip list. -/
theorem reclaimLoop_spec (goal : Nat) :
    ∀ (fuel : Nat) (segments : List Segment) (queue : List (Nat × Nat)) (reclaimed : Nat),
      (∀ s ∈ segments, s.blockCache.Inv) →
      ∃ segments' reclaimed', reclaimLoop goal fuel segments queue reclaimed = .ok (segments', reclaimed') ∧
        (∀ s ∈ segments', s.blockCache.Inv) ∧ totalSize segments' + reclaimed' ≤ totalSize segments + reclaimed ∧
        ∀ j, j ∉ queue.map Prod.fst → segments'[j]? = segments[j]?
  | 0, segments, _, reclaimed, h => ⟨segments, reclaimed, rfl, h, le_refl _, fun _ _ => rfl⟩
  | fuel + 1, segments, [], reclaimed, h => ⟨segments, reclaimed, by unfold reclaimLoop; split_ifs <;> rfl, h,
      le_refl _, fun _ _ => rfl⟩
  | fuel + 1, segments, (i, score) :: rest, reclaimed, h => by
    have hrest : ∀ j, j ∉ ((i, score) :: rest).map Prod.fst → j ≠ i ∧ j ∉ rest.map Prod.fst := by
      intro j hj
      simp only [List.map_cons, List.mem_cons, not_or] at hj
      exact hj
    by_cases hgoal : goal ≤ reclaimed
    · exact ⟨segments, reclaimed, by simp [reclaimLoop, hgoal], h, le_refl _, fun _ _ => rfl⟩
    cases hseg : segments[i]? with
    | none => exact ⟨segments, reclaimed, by simp [reclaimLoop, hgoal, hseg], h, le_refl _, fun _ _ => rfl⟩
    | some seg =>
      have hc := h seg (List.mem_of_getElem? hseg)
      rcases BlockCache.removeByScore_spec hc with hnone | ⟨key, e, he, hl, hrem⟩
      · -- nothing removed: the segment is set to itself
        have hset : segments.set i { seg with blockCache := seg.blockCache } = segments := by
          obtain ⟨hi, heq⟩ := List.getElem?_eq_some_iff.mp hseg
          exact heq ▸ List.set_getElem_self hi
        obtain ⟨segs', r', hloop, hinv', hsize, hframe⟩ := reclaimLoop_spec goal fuel segments rest reclaimed h
        refine ⟨segs', r', ?_, hinv', hsize, fun j hj => hframe j (hrest j hj).2⟩
        rw [reclaimLoop_none hgoal hseg hnone, hset]
        exact hloop
      · obtain ⟨hinv₁, hsize₁⟩ := set_erased h hseg he hl
        have hframe₁ : ∀ j, j ≠ i →
            (segments.set i { seg with blockCache := seg.blockCache.erased key e })[j]? = segments[j]? :=
          fun j hj => List.getElem?_set_ne (Ne.symm hj)
        by_cases hskip : seg.status = .readWrite ∧ e.walOffset = seg.blockCache.walOffsetOfLastCacheEntry
        · obtain ⟨segs', r', hloop, hinv', hsize, hframe⟩ := reclaimLoop_spec goal fuel _ rest reclaimed hinv₁
          refine ⟨segs', r', by rw [reclaimLoop_skip hgoal hseg hrem hskip]; exact hloop, hinv', by omega,
            fun j hj => ?_⟩
          rw [hframe j (hrest j hj).2, hframe₁ j (hrest j hj).1]
        · obtain ⟨segs', r', hloop, hinv', hsize, hframe⟩ :=
            reclaimLoop_spec goal fuel _ _ (reclaimed + e.capacity) hinv₁
          refine ⟨segs', r', by rw [reclaimLoop_count hgoal hseg hrem hskip]; exact hloop, hinv', by omega,
            fun j hj => ?_⟩
          have hq : j ∉ (if 0 < (seg.blockCache.erased key e).minScore then
              insertByScore (i, (seg.blockCache.erased key e).minScore) rest else rest).map Prod.fst := by
            split_ifs
            · rw [((insertByScore_perm _ rest).map Prod.fst).mem_iff]
              simp only [List.map_cons, List.mem_cons, not_or]
              exact ⟨(hrest j hj).1, (hrest j hj).2⟩
            · exact (hrest j hj).2
          rw [hframe j hq, hframe₁ j (hrest j hj).1]

/-- The skip list of segments lists each segment with a positive score, once. -/
theorem initialQueue_spec (segments : List Segment) :
    ((initialQueue segments).map Prod.fst).Nodup ∧
      ∀ p ∈ initialQueue segments, ∃ seg, segments[p.1]? = some seg ∧ 0 < seg.blockCache.minScore := by
  -- the first `n` turns enqueue only indices below `n`
  suffices h : ∀ n, (((List.range n).foldl (enqueue segments) []).map Prod.fst).Nodup ∧
      ∀ p ∈ (List.range n).foldl (enqueue segments) [],
        p.1 < n ∧ ∃ seg, segments[p.1]? = some seg ∧ 0 < seg.blockCache.minScore from
    ⟨(h segments.length).1, fun p hp => ((h segments.length).2 p hp).2⟩
  intro n
  induction n with
  | zero => simp
  | succ n ih =>
    obtain ⟨hnodup, hmem⟩ := ih
    have hlt : ∀ p ∈ (List.range n).foldl (enqueue segments) [],
        p.1 < n + 1 ∧ ∃ seg, segments[p.1]? = some seg ∧ 0 < seg.blockCache.minScore :=
      fun p hp => ⟨Nat.lt_succ_of_lt (hmem p hp).1, (hmem p hp).2⟩
    rw [List.range_succ, List.foldl_append, List.foldl_cons, List.foldl_nil]
    unfold enqueue
    split
    · rename_i seg hseg
      split_ifs with hpos
      · set q := (List.range n).foldl (enqueue segments) []
        have hperm := insertByScore_perm (n, seg.blockCache.minScore) q
        refine ⟨(hperm.map Prod.fst).nodup_iff.mpr (List.nodup_cons.mpr ⟨fun hn => ?_, hnodup⟩), fun p hp => ?_⟩
        · obtain ⟨p, hp, hpn⟩ := List.mem_map.mp hn
          exact absurd (hmem p hp).1 (by omega)
        · rcases List.mem_cons.mp (hperm.mem_iff.mp hp) with rfl | hp
          · exact ⟨Nat.lt_succ_self n, seg, hseg, hpos⟩
          · exact hlt p hp
      · exact ⟨hnodup, hlt⟩
    · exact ⟨hnodup, hlt⟩

/-- **`try_reclaim` removes the last entry of the segment being written, and
miscounts.** From any WAL whose caches keep their bookkeeping, let the segment
`try_reclaim` visits first be written to, with its lowest-scored entry at its
end, and let something be due to reclaim. Then `try_reclaim` returns; that
entry is gone from the segment's cache; the bytes it reports fall short of what
the caches lost by at least the entry's capacity; and the size it records
exceeds what the caches hold. -/
theorem tryReclaim_drops_writable_tail (segments : List Segment) (wc : WalCache) (minFreeBytes : Nat)
    (hinv : ∀ s ∈ segments, s.blockCache.Inv) {i score : Nat} {rest : List (Nat × Nat)}
    (hqueue : initialQueue segments = (i, score) :: rest) {seg : Segment} (hseg : segments[i]? = some seg)
    (hrw : seg.status = .readWrite) {e : CacheEntry} (hfront : seg.blockCache.front? = some e)
    (hlast : e.walOffset = seg.blockCache.walOffsetOfLastCacheEntry) (hcap : 0 < e.capacity)
    (hgoal : 0 < toReclaim segments wc minFreeBytes) :
    ∃ reclaimed free segments' wc', tryReclaim segments wc minFreeBytes = .ok ((reclaimed, free), segments', wc') ∧
      (segments'[i]?.map fun s => s.blockCache.entries.find? (e.walOffset - seg.blockCache.walOffset)) = some none ∧
      totalSize segments' + reclaimed + e.capacity ≤ totalSize segments ∧
      totalSize segments' < wc'.currentCacheSize := by
  obtain ⟨hnodupQ, hmemQ⟩ := initialQueue_spec segments
  rw [hqueue] at hnodupQ hmemQ
  -- the first segment visited is `seg`, and its front entry is not referenced
  obtain ⟨seg', hseg', hpos⟩ := hmemQ (i, score) List.mem_cons_self
  rw [hseg] at hseg'
  cases hseg'
  obtain ⟨e', hf, hs⟩ := BlockCache.front?_of_minScore_pos hpos
  rw [hfront] at hf
  cases hf
  have hc := hinv seg (List.mem_of_getElem? hseg)
  obtain ⟨key, he, hl, hrem⟩ := BlockCache.removeByScore_of_front hc hfront hs
  have hkey : e.walOffset - seg.blockCache.walOffset = key := by
    have := hc.keyed key e he
    omega
  obtain ⟨hinv₁, hsize₁⟩ := set_erased hinv hseg he hl
  have hnotin : i ∉ rest.map Prod.fst := (List.nodup_cons.mp (by simpa using hnodupQ)).1
  obtain ⟨segs', r', hloop, -, hsize, hframe⟩ := reclaimLoop_spec (toReclaim segments wc minFreeBytes) _
    (segments.set i { seg with blockCache := seg.blockCache.erased key e }) rest 0 hinv₁
  have hlen : i < segments.length := (List.getElem?_eq_some_iff.mp hseg).1
  have hfuel : (segments.map fun s => s.blockCache.entries.entries.length).sum + segments.length =
      ((segments.map fun s => s.blockCache.entries.entries.length).sum + segments.length - 1) + 1 := by omega
  have hr' : r' ≤ totalSize segments := by omega
  refine ⟨r', (max 0 ((wc.maxCacheSize : Int) - totalSize segments + r')).toNat, segs',
    { wc with currentCacheSize := totalSize segments - r' }, ?_, ?_, by omega, ?_⟩
  · unfold tryReclaim
    dsimp only
    rw [if_neg (by omega), hfuel, hqueue, reclaimLoop_skip (by omega) hseg hrem ⟨hrw, hlast⟩, hloop,
      Outcome.ok_bind]
    simp only [Outcome.sub_of_le hr', Outcome.ok_bind, Outcome.pure_eq]
  · rw [hframe i hnotin, List.getElem?_set_self hlen, hkey]
    simp [BlockCache.erased, SortedMap.find?_erase]
  · show totalSize segs' < totalSize segments - r'
    omega

/-- The one block of a segment being written, hit once at instant 1. -/
def tailBlock : CacheEntry := ⟨0, 1, 0, .loaded ⟨0, [], 4096⟩⟩

def tailCache : BlockCache := ⟨0, ⟨[(0, tailBlock)], by decide⟩, [0], 4096, 4096⟩

theorem tailCache_find? (key : Nat) : tailCache.entries.find? key = if key = 0 then some tailBlock else none := by
  by_cases h0 : key = 0
  · subst h0
    rfl
  · have hb0 : (key == 0) = false := beq_eq_false_iff_ne.mpr h0
    simp [tailCache, SortedMap.find?, List.lookup, hb0, h0]

theorem tailCache_inv : tailCache.Inv := by
  refine ⟨rfl, by decide, fun key => ?_, fun key e he => ?_⟩
  · rw [tailCache_find?]
    by_cases h0 : key = 0
    · subst h0
      simp [tailCache, tailBlock, CacheEntry.isLoaded, Entry.buf?]
    · simp [tailCache, h0]
  · rw [tailCache_find?] at he
    split_ifs at he with h0
    cases he
    subst h0
    rfl

/-- A WAL of 4096 bytes whose only segment is being written and holds one
block, with a high watermark of 80 percent. -/
def writableSegment : Segment := ⟨.readWrite, tailCache⟩

def fullWal : WalCache := ⟨4096, 4096, 80⟩

/-- `try_reclaim` on that WAL frees the block, reports nothing reclaimed, and
records 4096 bytes cached where none are. -/
theorem reclaim_drops_written_block :
    tryReclaim [writableSegment] fullWal 0 =
        .ok ((0, 0), [{ writableSegment with blockCache := tailCache.erased 0 tailBlock }],
          { fullWal with currentCacheSize := 4096 }) ∧
      ∃ reclaimed free segments' wc', tryReclaim [writableSegment] fullWal 0 = .ok ((reclaimed, free), segments', wc') ∧
        (segments'[0]?.map fun s => s.blockCache.entries.find? (tailBlock.walOffset - tailCache.walOffset)) =
          some none ∧
        totalSize segments' + reclaimed + tailBlock.capacity ≤ totalSize [writableSegment] ∧
        totalSize segments' < wc'.currentCacheSize :=
  ⟨rfl, tryReclaim_drops_writable_tail [writableSegment] fullWal 0
    (by simpa [writableSegment] using tailCache_inv) (show initialQueue [writableSegment] = [(0, 1)] by decide)
    (show [writableSegment][0]? = some writableSegment from rfl) rfl
    (show writableSegment.blockCache.front? = some tailBlock by decide) rfl (by decide) (by decide)⟩

end ElasticStream.Store.Reclaim
