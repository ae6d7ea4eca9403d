import Mathlib
import ElasticStream.Collections.Tally
import ElasticStream.Collections.Lru

/-! # The caches of the replication stream

The stream reader keeps two caches of record batches
(replication/src/stream/cache.rs). Each counts the bytes it holds in a running
size, which is meant to equal the total size of the batches in its maps.

`HotCache` holds the batches a stream just appended, under their stream and
base offset, with a FIFO of keys for eviction. `insert` evicts from the front
of the FIFO while the cache is full, then adds the batch's size to the count,
pushes its key and stores it. It does not check whether the key is already
cached. A stream re-appends the same base offset to a new range after a seal,
and such a re-insert leaves the old size counted and the key twice in the FIFO
(`insert_cached_key_drifts`). Over inserts of distinct keys the count is exact
and the FIFO is the key set (`insertAll_inv`).

`BlockCache` holds the blocks the reader fetched, per stream, keyed by start
offset, each with the readahead of the insert that brought it. `insert`
reserves the size of all the given blocks first, then drops the cached blocks
each new block covers and the new blocks a cached one covers. It subtracts
the sizes of the dropped cached blocks, but never the size of a new block it
drops, so an insert of a block already covered leaves its size counted
(`insert_covered_block_drifts`). -/

namespace ElasticStream.Replication
open ElasticStream.Collections

/-- `BlockRecord` (records_block.rs): a record batch at `startOffset` covering
`endOffsetDelta` offsets. -/
structure BlockRecord where
  startOffset : Nat
  endOffsetDelta : Nat
  data : List (List UInt8)
  deriving DecidableEq, Repr

namespace BlockRecord

def size (r : BlockRecord) : Nat := (r.data.map List.length).sum

def endOffset (r : BlockRecord) : Nat := r.startOffset + r.endOffsetDelta

end BlockRecord

/-- The key of the hot cache, ordered so that it can key a `SortedMap`; the
hash map's iteration order is never observed. -/
structure CacheKey where
  streamId : Nat
  baseOffset : Nat
  deriving DecidableEq, Repr

namespace CacheKey

def lex (k : CacheKey) : Nat ×ₗ Nat := toLex (k.streamId, k.baseOffset)

theorem lex_injective : Function.Injective lex := by
  rintro ⟨s, o⟩ ⟨s', o'⟩ h
  simp only [lex, EmbeddingLike.apply_eq_iff_eq, Prod.mk.injEq] at h
  obtain ⟨rfl, rfl⟩ := h
  rfl

instance : LinearOrder CacheKey := LinearOrder.lift' lex lex_injective

end CacheKey

/-! ## The hot cache -/

structure HotCache where
  maxCacheSize : Nat
  occupiedSize : Nat
  map : SortedMap CacheKey BlockRecord
  fifoDeque : List CacheKey
  deriving DecidableEq

namespace HotCache

/-- `HotCache::new` with the capacity it checks. -/
def new (maxCacheSize : Nat) : Option HotCache :=
  if maxCacheSize < 4 * 1024 then none else some ⟨maxCacheSize, 0, .empty, []⟩

/-- The eviction loop of `insert`: while the occupied size reaches the
maximum, the key at the front of the FIFO is popped and its entry, if any,
removed with its size. The loop stops when the FIFO is empty. -/
def evict (maxCacheSize : Nat) :
    Nat → SortedMap CacheKey BlockRecord → List CacheKey → Nat × SortedMap CacheKey BlockRecord × List CacheKey
  | occupied, map, [] => (occupied, map, [])
  | occupied, map, key :: rest =>
    if maxCacheSize ≤ occupied then
      match map.find? key with
      | some value => evict maxCacheSize (occupied - value.size) (map.erase key) rest
      | none => evict maxCacheSize occupied map rest
    else (occupied, map, key :: rest)

/-- `HotCache::insert`. -/
def insert (c : HotCache) (streamId startOffset endOffsetDelta : Nat) (data : List (List UInt8)) : HotCache :=
  let evicted := evict c.maxCacheSize c.occupiedSize c.map c.fifoDeque
  let key : CacheKey := ⟨streamId, startOffset⟩
  let value : BlockRecord := ⟨startOffset, endOffsetDelta, data⟩
  { c with
    occupiedSize := evicted.1 + value.size
    fifoDeque := evicted.2.2 ++ [key]
    map := evicted.2.1.insert key value }

/-- The bookkeeping the cache relies on: the occupied size is the total size
of the cached batches, and the FIFO lists each cached key once and nothing
else. -/
structure Inv (c : HotCache) : Prop where
  occupied : c.occupiedSize = c.map.total BlockRecord.size
  nodup : c.fifoDeque.Nodup
  mem_fifo : ∀ k, k ∈ c.fifoDeque ↔ c.map.find? k ≠ none

/-- The invariant, on the three fields the eviction loop threads. -/
def Accounted (occupied : Nat) (map : SortedMap CacheKey BlockRecord) (fifo : List CacheKey) : Prop :=
  occupied = map.total BlockRecord.size ∧ fifo.Nodup ∧ ∀ k, k ∈ fifo ↔ map.find? k ≠ none

theorem inv_iff (c : HotCache) : c.Inv ↔ Accounted c.occupiedSize c.map c.fifoDeque :=
  ⟨fun h => ⟨h.occupied, h.nodup, h.mem_fifo⟩, fun ⟨h₁, h₂, h₃⟩ => ⟨h₁, h₂, h₃⟩⟩

theorem new_inv (maxCacheSize : Nat) {c : HotCache} (h : new maxCacheSize = some c) : c.Inv := by
  unfold new at h
  split_ifs at h
  cases h
  exact ⟨rfl, List.nodup_nil, fun k => by simp [SortedMap.find?]⟩

theorem evict_of_lt {max occupied : Nat} (map : SortedMap CacheKey BlockRecord) (fifo : List CacheKey)
    (h : occupied < max) : evict max occupied map fifo = (occupied, map, fifo) := by
  cases fifo with
  | nil => rfl
  | cons key rest => simp [evict, Nat.not_le.mpr h]

/-- Eviction only removes entries. -/
theorem find?_evict_of_none (max : Nat) {k : CacheKey} :
    ∀ (occupied : Nat) (map : SortedMap CacheKey BlockRecord) (fifo : List CacheKey),
      map.find? k = none → (evict max occupied map fifo).2.1.find? k = none
  | _, _, [], h => h
  | occupied, map, key :: rest, h => by
    unfold evict
    split_ifs
    · split
      · refine find?_evict_of_none max _ _ rest ?_
        rw [SortedMap.find?_erase]
        split_ifs
        · rfl
        · exact h
      · exact find?_evict_of_none max _ _ rest h
    · exact h

/-- One pop of the eviction loop keeps the bookkeeping: the popped key is
cached, so its size is part of the occupied size. -/
theorem accounted_pop {occupied : Nat} {map : SortedMap CacheKey BlockRecord} {key : CacheKey}
    {rest : List CacheKey} (h : Accounted occupied map (key :: rest)) :
    ∃ value, map.find? key = some value ∧ Accounted (occupied - value.size) (map.erase key) rest := by
  obtain ⟨hocc, hnodup, hmem⟩ := h
  obtain ⟨hkey, hrest⟩ := List.nodup_cons.mp hnodup
  obtain ⟨value, hvalue⟩ := Option.ne_none_iff_exists'.mp ((hmem key).mp List.mem_cons_self)
  refine ⟨value, hvalue, ?_, hrest, fun k => ?_⟩
  · rw [hocc, SortedMap.total_of_find? BlockRecord.size hvalue]
    omega
  · rw [SortedMap.find?_erase]
    by_cases hk : k = key
    · subst hk
      simp [hkey]
    · simp only [hk, if_false, ← hmem k, List.mem_cons, false_or]

theorem evict_accounted (max : Nat) :
    ∀ (occupied : Nat) (map : SortedMap CacheKey BlockRecord) (fifo : List CacheKey),
      Accounted occupied map fifo →
      let r := evict max occupied map fifo
      Accounted r.1 r.2.1 r.2.2
  | _, _, [], h => h
  | occupied, map, key :: rest, h => by
    obtain ⟨value, hvalue, hpop⟩ := accounted_pop h
    unfold evict
    split_ifs
    · simp only [hvalue]
      exact evict_accounted max _ _ rest hpop
    · exact h

/-- Inserting a key the eviction left uncached keeps the bookkeeping. -/
theorem insert_inv (c : HotCache) (hc : c.Inv) (streamId startOffset endOffsetDelta : Nat)
    (data : List (List UInt8))
    (hfresh : (evict c.maxCacheSize c.occupiedSize c.map c.fifoDeque).2.1.find? ⟨streamId, startOffset⟩ = none) :
    (c.insert streamId startOffset endOffsetDelta data).Inv := by
  obtain ⟨hocc, hnodup, hmem⟩ := evict_accounted c.maxCacheSize _ _ _ ((inv_iff c).mp hc)
  have hnotin : (⟨streamId, startOffset⟩ : CacheKey) ∉
      (evict c.maxCacheSize c.occupiedSize c.map c.fifoDeque).2.2 := fun h => (hmem _).mp h hfresh
  refine ⟨?_, ?_, fun k => ?_⟩
  · simp only [insert, SortedMap.total_insert, SortedMap.total_erase_of_find?_none _ hfresh, hocc]
    omega
  · refine List.nodup_append.mpr ⟨hnodup, List.nodup_singleton _, fun a ha b hb hab => ?_⟩
    rw [List.mem_singleton] at hb
    exact hnotin (hb ▸ hab ▸ ha)
  · simp only [insert, List.mem_append, List.mem_singleton]
    by_cases hk : k = ⟨streamId, startOffset⟩
    · subst hk
      simp
    · rw [SortedMap.find?_insert_of_ne _ _ hk, ← hmem k]
      simp [hk]

/-- The arguments of one `insert` call. -/
structure InsertCall where
  streamId : Nat
  startOffset : Nat
  endOffsetDelta : Nat
  data : List (List UInt8)
  deriving DecidableEq, Repr

def InsertCall.key (i : InsertCall) : CacheKey := ⟨i.streamId, i.startOffset⟩

def insertAll (c : HotCache) : List InsertCall → HotCache
  | [] => c
  | i :: rest => insertAll (c.insert i.streamId i.startOffset i.endOffsetDelta i.data) rest

/-- Over inserts of keys that are distinct and not cached at the start, the
occupied size stays the total size of the cached batches and the FIFO the
cached keys, each once. -/
theorem insertAll_inv : ∀ (c : HotCache) (calls : List InsertCall), c.Inv → (calls.map InsertCall.key).Nodup →
    (∀ i ∈ calls, c.map.find? i.key = none) → (insertAll c calls).Inv
  | _, [], hc, _, _ => hc
  | c, i :: rest, hc, hnodup, hfresh => by
    obtain ⟨hi, hrest⟩ := List.nodup_cons.mp hnodup
    have hevict := find?_evict_of_none c.maxCacheSize c.occupiedSize c.map c.fifoDeque (hfresh i List.mem_cons_self)
    refine insertAll_inv _ rest (insert_inv c hc _ _ _ _ hevict) hrest fun j hj => ?_
    have hne : j.key ≠ i.key := fun h => hi (h ▸ List.mem_map_of_mem hj)
    exact (SortedMap.find?_insert_of_ne _ _ hne).trans <| find?_evict_of_none c.maxCacheSize _ _ _ (hfresh j (List.mem_cons_of_mem _ hj))

/-- **A re-inserted key is counted twice.** From any cache whose bookkeeping
holds, an insert of a key that is still cached after the eviction loop
replaces the batch in the map but keeps the old batch's size in the occupied
size, and pushes the key a second time. -/
theorem insert_cached_key_drifts (c : HotCache) (hc : c.Inv) (streamId startOffset endOffsetDelta : Nat)
    (data : List (List UInt8)) {old : BlockRecord}
    (hcached : (evict c.maxCacheSize c.occupiedSize c.map c.fifoDeque).2.1.find? ⟨streamId, startOffset⟩ = some old) :
    let c' := c.insert streamId startOffset endOffsetDelta data
    c'.occupiedSize = c'.map.total BlockRecord.size + old.size ∧
      c'.fifoDeque.count ⟨streamId, startOffset⟩ = 2 := by
  obtain ⟨hocc, hnodup, hmem⟩ := evict_accounted c.maxCacheSize _ _ _ ((inv_iff c).mp hc)
  have hin : (⟨streamId, startOffset⟩ : CacheKey) ∈ (evict c.maxCacheSize c.occupiedSize c.map c.fifoDeque).2.2 :=
    (hmem _).mpr (by simp [hcached])
  refine ⟨?_, ?_⟩
  · simp only [insert, SortedMap.total_insert, hocc, SortedMap.total_of_find? BlockRecord.size hcached]
    omega
  · simp only [insert, List.count_append, List.count_singleton_self, List.count_eq_one_of_mem hnodup hin]

/-- A batch of three bytes inserted into a new cache. -/
def onceInserted : HotCache := (⟨4096, 0, .empty, []⟩ : HotCache).insert 1 0 10 [[1, 2, 3]]

/-- Inserting the same batch again: three bytes are cached and six counted,
and the key stands twice in the FIFO. -/
theorem reinserted_occupied_six :
    (onceInserted.insert 1 0 10 [[1, 2, 3]]).occupiedSize = 6 ∧
      (onceInserted.insert 1 0 10 [[1, 2, 3]]).map.total BlockRecord.size = 3 ∧
      ((onceInserted.insert 1 0 10 [[1, 2, 3]]).occupiedSize =
          (onceInserted.insert 1 0 10 [[1, 2, 3]]).map.total BlockRecord.size + BlockRecord.size ⟨0, 10, [[1, 2, 3]]⟩ ∧
        (onceInserted.insert 1 0 10 [[1, 2, 3]]).fifoDeque.count ⟨1, 0⟩ = 2) :=
  ⟨rfl, rfl, insert_cached_key_drifts onceInserted (insert_inv _ (new_inv 4096 rfl) 1 0 10 [[1, 2, 3]] rfl) 1 0 10
    [[1, 2, 3]] rfl⟩

end HotCache

/-! ## The read cache -/

/-- `RecordsBlock` (records_block.rs): consecutive record batches, or an
empty block standing at one offset. -/
structure RecordsBlock where
  records : List BlockRecord
  emptyBlockOffset : Option Nat
  deriving DecidableEq, Repr

namespace RecordsBlock

def size (b : RecordsBlock) : Nat := (b.records.map BlockRecord.size).sum

def startOffset (b : RecordsBlock) : Nat :=
  match b.emptyBlockOffset with
  | some offset => offset
  | none => (b.records.head?.map BlockRecord.startOffset).getD 0

def endOffset (b : RecordsBlock) : Nat :=
  match b.emptyBlockOffset with
  | some offset => offset
  | none => (b.records.getLast?.map BlockRecord.endOffset).getD 0

def isEmpty (b : RecordsBlock) : Bool := b.records.isEmpty

end RecordsBlock

/-- `Readahead`, with its `Instant` as a number of milliseconds. -/
structure Readahead where
  startOffset : Nat
  endOffset : Option Nat
  sizeHint : Nat
  timestamp : Nat
  deriving DecidableEq, Repr

def blockSize : Nat := 1024 * 1024

/-- `block_size_align` on `u32`: round up to whole blocks, saturating. -/
def blockSizeAlign (size : Nat) : Nat :=
  if size + (blockSize - 1) < 2 ^ 32 then (size + (blockSize - 1)) / blockSize * blockSize
  else (2 ^ 32 - 1) / blockSize * blockSize

structure StreamCache where
  cacheMap : SortedMap Nat (RecordsBlock × Option Readahead)
  evictMark : Bool
  deriving DecidableEq

structure RecordsBlockKey where
  streamId : Nat
  startOffset : Nat
  deriving DecidableEq, Repr

structure BlockCache where
  cacheMap : SortedMap Nat StreamCache
  readingLru : Lru RecordsBlockKey Nat
  completedLru : Lru RecordsBlockKey Nat
  maxCacheSize : Nat
  cacheSize : Nat
  deriving DecidableEq

namespace BlockCache

/-- The bytes the stream caches hold. -/
def blocksSize (c : BlockCache) : Nat :=
  c.cacheMap.total fun sc => sc.cacheMap.total fun e => e.1.size

/-- One LRU's loop of `evict`: while the reserve does not fit, pop the least
recent key and drop its block, marking the stream evicted, and drop a stream
left without blocks. -/
def evictLru (reserveSize maxCacheSize : Nat) :
    Lru RecordsBlockKey Nat → SortedMap Nat StreamCache → Nat →
      Lru RecordsBlockKey Nat × SortedMap Nat StreamCache × Nat
  | [], map, size => ([], map, size)
  | (key, len) :: rest, map, size =>
    if size + reserveSize ≤ maxCacheSize then ((key, len) :: rest, map, size)
    else
      match map.find? key.streamId with
      | none => evictLru reserveSize maxCacheSize rest map size
      | some sc =>
        let (sc, size) := match sc.cacheMap.find? key.startOffset with
          | some (block, _) => (({ sc with cacheMap := sc.cacheMap.erase key.startOffset, evictMark := true } : StreamCache),
              size - block.size)
          | none => (sc, size)
        let map := if sc.cacheMap.entries = [] then map.erase key.streamId else map.insert key.streamId sc
        evictLru reserveSize maxCacheSize rest map size

/-- `BlockCache::evict`: the completed blocks go first, then the blocks still
being read. -/
def evict (c : BlockCache) (reserveSize : Nat) : BlockCache :=
  let reserveSize := min reserveSize c.maxCacheSize
  if c.cacheSize + reserveSize ≤ c.maxCacheSize then c
  else
    let completed := evictLru reserveSize c.maxCacheSize c.completedLru c.cacheMap c.cacheSize
    let reading := evictLru reserveSize c.maxCacheSize c.readingLru completed.2.1 completed.2.2
    { c with completedLru := completed.1, readingLru := reading.1, cacheMap := reading.2.1, cacheSize := reading.2.2 }

/-- `gen_readahead` for non-empty blocks: ahead of their end, as large as
they are, or half as large once the stream was evicted. -/
def genReadahead (blocks : List RecordsBlock) (sc : StreamCache) (now : Nat) : Option Readahead × StreamCache :=
  match blocks.getLast? with
  | none => (none, sc)
  | some last =>
    let blocksSize := (blocks.map RecordsBlock.size).sum
    let (readaheadSize, sc) :=
      if sc.evictMark then (blockSizeAlign (blocksSize / 2), { sc with evictMark := false })
      else (blockSizeAlign blocksSize, sc)
    (some ⟨last.endOffset, none, readaheadSize, now⟩, sc)

/-- The cursor loop of `kick_out_covered_block` over the cached blocks from
the cursor on: the starts of the cached blocks the given block covers, and
whether a cached block covers the given one. -/
def kickOutScan (blockStart blockEnd : Nat) :
    List (Nat × (RecordsBlock × Option Readahead)) → List Nat × Bool
  | [] => ([], false)
  | (cacheStart, (cacheBlock, _)) :: rest =>
    if blockStart ≤ cacheStart ∧ cacheBlock.endOffset ≤ blockEnd then
      let r := kickOutScan blockStart blockEnd rest
      (cacheStart :: r.1, r.2)
    else if cacheStart ≤ blockStart ∧ blockEnd ≤ cacheBlock.endOffset then ([], true)
    else if blockEnd < cacheStart then ([], false)
    else kickOutScan blockStart blockEnd rest

/-- The removal loop of `kick_out_covered_block`, summing what it removes. -/
def removeBlocks : SortedMap Nat (RecordsBlock × Option Readahead) → List Nat → Nat →
    SortedMap Nat (RecordsBlock × Option Readahead) × Nat
  | map, [], kicked => (map, kicked)
  | map, start :: rest, kicked =>
    match map.find? start with
    | some (block, _) => removeBlocks (map.erase start) rest (kicked + block.size)
    | none => removeBlocks map rest kicked

/-- `kick_out_covered_block`: the stream cache without the blocks the given
block covers, whether a cached block covers it, and the size removed. The
cursor of `upper_bound(Included(start))` is empty when no key lies at or below
the start. -/
def kickOutCoveredBlock (sc : StreamCache) (block : RecordsBlock) : StreamCache × Bool × Nat :=
  let fromCursor := match sc.cacheMap.upperBoundEntry block.startOffset with
    | none => []
    | some e => sc.cacheMap.entries.filter fun x => e.1 ≤ x.1
  let scan := kickOutScan block.startOffset block.endOffset fromCursor
  let removed := removeBlocks sc.cacheMap scan.1 0
  ({ sc with cacheMap := removed.1 }, scan.2, removed.2)

/-- The `filter` of `insert` over the new blocks: each kicks out what it
covers, the size kicked out is subtracted, and a covered block is dropped. -/
def kickOutAll (sc : StreamCache) (size : Nat) : List RecordsBlock → StreamCache × Nat × List RecordsBlock
  | [] => (sc, size, [])
  | block :: rest =>
    let k := kickOutCoveredBlock sc block
    let r := kickOutAll k.1 (size - k.2.2) rest
    (r.1, r.2.1, if k.2.1 then r.2.2 else block :: r.2.2)

/-- The last loop of `insert`: each block is stored with the readahead, which
only the first carries, and a replaced block's size is subtracted only if it
carried no readahead. -/
def insertBlocks : SortedMap Nat (RecordsBlock × Option Readahead) → Nat → Option Readahead →
    List RecordsBlock → SortedMap Nat (RecordsBlock × Option Readahead) × Nat
  | map, size, _, [] => (map, size)
  | map, size, readahead, block :: rest =>
    let size := match map.find? block.startOffset with
      | some (old, none) => size - old.size
      | _ => size
    insertBlocks (map.insert block.startOffset (block, readahead)) size none rest

/-- `BlockCache::insert` at time `now`. -/
def insert (c : BlockCache) (streamId : Nat) (blocks : List RecordsBlock) (now : Nat) : BlockCache :=
  let blocks := blocks.filter fun b => !b.isEmpty
  if blocks = [] then c
  else
    let blocksSize := (blocks.map RecordsBlock.size).sum
    let c := c.evict blocksSize
    let c := { c with cacheSize := c.cacheSize + blocksSize }
    let sc := (c.cacheMap.find? streamId).getD ⟨.empty, false⟩
    let (readahead, sc) := genReadahead blocks sc now
    let kept := kickOutAll sc c.cacheSize blocks
    let readingLru := kept.2.2.reverse.foldl (fun l b => l.put ⟨streamId, b.startOffset⟩ b.size) c.readingLru
    let stored := insertBlocks kept.1.cacheMap kept.2.1 readahead kept.2.2
    { c with
      cacheSize := stored.2
      readingLru := readingLru
      cacheMap := c.cacheMap.insert streamId { kept.1 with cacheMap := stored.1 } }

theorem evict_of_fit {c : BlockCache} {reserveSize : Nat} (h : c.cacheSize + reserveSize ≤ c.maxCacheSize) :
    c.evict reserveSize = c := by
  have : c.cacheSize + min reserveSize c.maxCacheSize ≤ c.maxCacheSize :=
    le_trans (Nat.add_le_add_left (min_le_left _ _) _) h
  simp [evict, this]

theorem genReadahead_cacheMap (blocks : List RecordsBlock) (sc : StreamCache) (now : Nat) :
    (genReadahead blocks sc now).2.cacheMap = sc.cacheMap := by
  unfold genReadahead
  split
  · rfl
  · split_ifs <;> rfl

/-- A cached block at the cursor that covers the given block, and is not
covered by it, stops the scan at once. -/
theorem kickOutCoveredBlock_of_covered {sc : StreamCache} {block : RecordsBlock} {cacheStart : Nat}
    {cacheBlock : RecordsBlock} {readahead : Option Readahead}
    (hcursor : sc.cacheMap.upperBoundEntry block.startOffset = some (cacheStart, cacheBlock, readahead))
    (hcovers : cacheStart ≤ block.startOffset ∧ block.endOffset ≤ cacheBlock.endOffset)
    (hnot : ¬ (block.startOffset ≤ cacheStart ∧ cacheBlock.endOffset ≤ block.endOffset)) :
    kickOutCoveredBlock sc block = (sc, true, 0) := by
  simp only [kickOutCoveredBlock, hcursor, SortedMap.filter_ge_of_upperBoundEntry hcursor, kickOutScan,
    if_neg hnot, if_pos hcovers, removeBlocks]

/-- **A covered block stays counted.** From any read cache whose size is the
size of the blocks it holds, an insert of one non-empty block that fits
without eviction, into a stream whose block at the cursor covers it, drops the
block and keeps its size in `cache_size`. -/
theorem insert_covered_block_drifts (c : BlockCache) (hc : c.cacheSize = c.blocksSize) {streamId : Nat}
    {sc : StreamCache} (hsc : c.cacheMap.find? streamId = some sc) {block : RecordsBlock}
    (hblock : block.isEmpty = false) (hfit : c.cacheSize + block.size ≤ c.maxCacheSize) {cacheStart : Nat}
    {cacheBlock : RecordsBlock} {readahead : Option Readahead}
    (hcursor : sc.cacheMap.upperBoundEntry block.startOffset = some (cacheStart, cacheBlock, readahead))
    (hcovers : cacheStart ≤ block.startOffset ∧ block.endOffset ≤ cacheBlock.endOffset)
    (hnot : ¬ (block.startOffset ≤ cacheStart ∧ cacheBlock.endOffset ≤ block.endOffset)) (now : Nat) :
    (c.insert streamId [block] now).cacheSize = (c.insert streamId [block] now).blocksSize + block.size := by
  have hfilter : [block].filter (fun b => !b.isEmpty) = [block] := by simp [hblock]
  have hsum : ([block].map RecordsBlock.size).sum = block.size := by simp
  set sc' := (genReadahead [block] sc now).2 with hsc'
  have hmap' : sc'.cacheMap = sc.cacheMap := genReadahead_cacheMap [block] sc now
  have hcursor' : sc'.cacheMap.upperBoundEntry block.startOffset = some (cacheStart, cacheBlock, readahead) := by
    rw [hmap']
    exact hcursor
  have hkick : kickOutCoveredBlock sc' block = (sc', true, 0) :=
    kickOutCoveredBlock_of_covered hcursor' hcovers hnot
  -- the stream keeps its blocks; only its evict mark may change
  have hstream : sc'.cacheMap.total (fun e => e.1.size) = sc.cacheMap.total (fun e => e.1.size) := by
    rw [hmap']
  simp only [insert, hfilter, hsum, evict_of_fit hfit, hsc, Option.getD_some, List.cons_ne_nil, if_false]
  simp only [← hsc', kickOutAll, hkick, Nat.sub_zero, if_true, List.reverse_nil, List.foldl_nil, insertBlocks]
  simp only [blocksSize, SortedMap.total_insert]
  rw [hc, blocksSize, SortedMap.total_of_find? _ hsc, hstream]

/-- A block of five bytes covering offsets `[0, 10)`. -/
def wideBlock : RecordsBlock := ⟨[⟨0, 10, [[1, 2, 3, 4, 5]]⟩], none⟩

/-- A block of two bytes covering `[2, 5)`, inside `wideBlock`. -/
def innerBlock : RecordsBlock := ⟨[⟨2, 3, [[7, 8]]⟩], none⟩

def wideStream : StreamCache := ⟨SortedMap.empty.insert 0 (wideBlock, none), false⟩

/-- Stream 1 holds `wideBlock`, and the size counts its five bytes. -/
def wideBlockCache : BlockCache := ⟨SortedMap.empty.insert 1 wideStream, [], [], 1000, 5⟩

/-- Inserting `innerBlock` keeps five bytes cached but counts seven. -/
theorem inner_block_counted :
    (wideBlockCache.insert 1 [innerBlock] 0).cacheSize = 7 ∧ (wideBlockCache.insert 1 [innerBlock] 0).blocksSize = 5 ∧
      (wideBlockCache.insert 1 [innerBlock] 0).cacheSize =
        (wideBlockCache.insert 1 [innerBlock] 0).blocksSize + innerBlock.size := by
  have hsc : wideBlockCache.cacheMap.find? 1 = some wideStream := rfl
  have hcursor : wideStream.cacheMap.upperBoundEntry innerBlock.startOffset = some (0, wideBlock, none) := rfl
  exact ⟨rfl, rfl, insert_covered_block_drifts wideBlockCache rfl hsc rfl (by decide) hcursor (by decide)
    (by decide) 0⟩

end BlockCache

end ElasticStream.Replication
