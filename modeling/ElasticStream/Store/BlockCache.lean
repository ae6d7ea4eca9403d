import ElasticStream.Collections.SortedMap

/-! # The block cache of a log segment

`BlockCache` (store/src/io/block_cache.rs) maps the offsets of cached blocks,
relative to the segment's WAL offset, to entries that are loaded buffers or
ranges still loading. `try_get_entries` answers a read of an aligned range with
the buffers that cover it, or with the ranges it misses. Hit counts, scores and
the cache size only steer eviction and are not modelled. -/

namespace ElasticStream.Store
open ElasticStream.Collections

/-- `AlignedBuf`: the bytes written so far (their count is `limit`) of a
buffer of `capacity` bytes placed at `walOffset`. -/
structure AlignedBuf where
  walOffset : Nat
  data : List UInt8
  capacity : Nat
  deriving DecidableEq, Repr

namespace AlignedBuf

def limit (b : AlignedBuf) : Nat := b.data.length

def coversPartial (b : AlignedBuf) (walOffset len : Nat) : Bool :=
  b.walOffset < walOffset + len && walOffset < b.walOffset + b.limit

/-- `slice(start..end)` of the written bytes. -/
def slice (b : AlignedBuf) (start stop : Nat) : List UInt8 := (b.data.drop start).take (stop - start)

end AlignedBuf

structure EntryRange where
  walOffset : Nat
  len : Nat
  deriving DecidableEq, Repr

/-- The range widened to whole blocks of `alignment` bytes. -/
def EntryRange.new (walOffset len alignment : Nat) : EntryRange :=
  let start := walOffset / alignment * alignment
  let stop := walOffset + len
  let alignedTo := (stop + alignment - 1) / alignment * alignment
  ⟨start, alignedTo - start⟩

/-- A cached block: a loaded buffer, or a range whose read is in flight. -/
inductive Entry where
  | loaded (buf : AlignedBuf)
  | loading (range : EntryRange)
  deriving DecidableEq, Repr

namespace Entry

def coversPartial : Entry → EntryRange → Bool
  | .loaded buf, r => buf.coversPartial r.walOffset r.len
  | .loading l, r => l.walOffset < r.walOffset + r.len && r.walOffset < l.walOffset + l.len

def len : Entry → Nat
  | .loaded buf => buf.limit
  | .loading l => l.len

def walOffset : Entry → Nat
  | .loaded buf => buf.walOffset
  | .loading l => l.walOffset

def buf? : Entry → Option AlignedBuf
  | .loaded buf => some buf
  | .loading _ => none

end Entry

structure BlockCache where
  walOffset : Nat
  entries : SortedMap Nat Entry
  alignment : Nat
  deriving DecidableEq

namespace BlockCache

def new (walOffset alignment : Nat) : BlockCache := ⟨walOffset, .empty, alignment⟩

/-- The buffer replaces an entry at the same offset. -/
def addEntry (c : BlockCache) (buf : AlignedBuf) : BlockCache :=
  { c with entries := c.entries.insert (buf.walOffset - c.walOffset) (.loaded buf) }

/-- `remove(pred)`: drop the entries that `pred` holds of. -/
def remove (c : BlockCache) (pred : Entry → Bool) : BlockCache :=
  { c with entries := c.entries.filter fun e => !pred e.2 }

/-- The gaps between the hits of a search, scanned from `lastEnd`: the missed
ranges and the end of the last hit. -/
def gaps (base : Nat) : List (Nat × Entry) → List EntryRange → Nat → List EntryRange × Nat
  | [], missed, lastEnd => (missed, lastEnd)
  | (k, e) :: rest, missed, lastEnd =>
    gaps base rest (if k > lastEnd then missed ++ [⟨base + lastEnd, k - lastEnd⟩] else missed) (k + e.len)

/-- `try_get_entries`: `.ok (some bufs)` when loaded buffers cover the range,
`.ok none` when some covering entry is still loading, `.error missed` with the
ranges to read otherwise. -/
def tryGetEntries (c : BlockCache) (r : EntryRange) : Except (List EntryRange) (Option (List AlignedBuf)) :=
  if r.walOffset < c.walOffset then
    -- `checked_sub` fails: the range starts before this cache
    .error [r]
  else
    let start := r.walOffset - c.walOffset
    let stop := start + r.len
    let startKey := (c.entries.upperBound start).getD start
    let search := (c.entries.range startKey stop).filter fun e => e.2.coversPartial r
    if search = [] then .error [r]
    else
      let (missed, lastEnd) := gaps c.walOffset search [] start
      -- a partly filled last block is not read again
      let missed := if lastEnd < stop ∧ lastEnd % c.alignment = 0 then
          missed ++ [⟨c.walOffset + lastEnd, stop - lastEnd⟩]
        else missed
      if missed ≠ [] then .error missed
      else
        let bufs := search.filterMap fun e => e.2.buf?
        if bufs.length ≠ search.length then .ok none else .ok (some bufs)

/-- A range that starts before the cache is missed whole. -/
theorem tryGetEntries_before {c : BlockCache} {r : EntryRange} (h : r.walOffset < c.walOffset) :
    c.tryGetEntries r = .error [r] := by
  simp [tryGetEntries, h]

end BlockCache

end ElasticStream.Store
