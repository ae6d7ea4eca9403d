import Mathlib
import ElasticStream.Codec.Cursor
import ElasticStream.Collections.SortedMap
import ElasticStream.Order.Rank
import ElasticStream.Store.Fetch

/-! # The cached store

`CachedStore` (store/src/store/cache/mod.rs) wraps a store with a cache of
record batches keyed by stream, range and base offset. A fetch takes the
cached batches of the request from `HierarchicalCache::search`, asks the
wrapped store for the gaps between them, caches what it gets back, and
returns the union sorted by offset.

The gap detection expects the next batch at the offset right after a cached
base, `key.offset + 1`, instead of at the batch's end. A cached batch of more
than one offset, followed by the next cached batch, thus opens a false gap.
The wrapped store serves the batch holding the gap's first offset, which is
the cached batch itself. A fetch whose result reaches the next batch
therefore returns the first batch twice (`fetch_duplicates_cached_batch`). -/

namespace ElasticStream.Store

open ElasticStream.Codec ElasticStream.Collections

/-- `CacheKey`, ordered by its derived `Ord`: stream, range, then offset. -/
structure CacheKey where
  streamId : Nat
  range : Nat
  offset : Nat
  deriving DecidableEq, Repr

namespace CacheKey

def lex (k : CacheKey) : Nat ×ₗ Nat ×ₗ Nat := toLex (k.streamId, toLex (k.range, k.offset))

theorem lex_injective : Function.Injective lex := by
  rintro ⟨s, r, o⟩ ⟨s', r', o'⟩ h
  simp only [lex, EmbeddingLike.apply_eq_iff_eq, Prod.mk.injEq] at h
  obtain ⟨rfl, rfl, rfl⟩ := h
  rfl

instance : LinearOrder CacheKey := LinearOrder.lift' lex lex_injective

theorem lt_iff {k k' : CacheKey} :
    k < k' ↔ k.streamId < k'.streamId ∨ k.streamId = k'.streamId ∧
      (k.range < k'.range ∨ k.range = k'.range ∧ k.offset < k'.offset) := by
  show k.lex < k'.lex ↔ _
  simp only [lex, Prod.Lex.toLex_lt_toLex]

theorem le_of_offset_le {k k' : CacheKey} (hs : k.streamId = k'.streamId) (hr : k.range = k'.range)
    (ho : k.offset ≤ k'.offset) : k ≤ k' := by
  refine not_lt.mp fun h => ?_
  rcases lt_iff.mp h with h | ⟨-, h | ⟨-, h⟩⟩ <;> omega

end CacheKey

/-- `CacheValue`. -/
structure CacheValue where
  walOffset : Nat
  payload : List (List UInt8)
  deriving DecidableEq, Repr

/-- `SizedValue::size`: the bytes of the payload. -/
def CacheValue.size (v : CacheValue) : Nat := (v.payload.map List.length).sum

/-- `SingleFetchResult`. -/
structure SingleFetchResult where
  streamId : Nat
  range : Nat
  offset : Nat
  walOffset : Nat
  payload : List (List UInt8)
  deriving DecidableEq, Repr

/-- `SingleFetchResult::total_len`. -/
def SingleFetchResult.totalLen (r : SingleFetchResult) : Nat := (r.payload.map List.length).sum

/-- `FetchResult`. -/
structure FetchResult where
  streamId : Nat
  range : Nat
  startOffset : Nat
  endOffset : Nat
  totalLen : Nat
  results : List SingleFetchResult
  deriving DecidableEq, Repr

/-- What `fetch` reads of `ReadOptions`; `max_bytes` is taken as non-negative. -/
structure ReadOptions where
  streamId : Nat
  range : Nat
  offset : Nat
  maxOffset : Nat
  maxBytes : Nat
  deriving DecidableEq, Repr

/-- What `append` reads of `AppendResult`. -/
structure AppendResult where
  streamId : Nat
  rangeIndex : Nat
  offset : Nat
  walOffset : Nat
  deriving DecidableEq, Repr

/-- The cache's map, without the access bookkeeping and the reclaiming of the
two lists. -/
abbrev Cache := SortedMap CacheKey CacheValue

namespace CachedStore

/-- `HierarchicalCache::search(lo..hi)`: the cached entries with keys in
`[lo, hi)`, in key order. `BTreeMap::range` panics when `lo > hi`. -/
def search (cache : Cache) (lo hi : CacheKey) : Outcome Empty (List (CacheKey × CacheValue)) :=
  if hi < lo then .panic else pure (cache.range lo hi)

/-- `push_inactive` of a fetched batch: the map entry is set. -/
def cacheResult (cache : Cache) (r : SingleFetchResult) : Cache :=
  cache.insert ⟨r.streamId, r.range, r.offset⟩ ⟨r.walOffset, r.payload⟩

/-- `CachedStore::append` once the wrapped store's append succeeded: the
payload is cached under its base offset. -/
def append (cache : Cache) (result : AppendResult) (payload : List UInt8) : Cache :=
  cache.insert ⟨result.streamId, result.rangeIndex, result.offset⟩ ⟨result.walOffset, [payload]⟩

def ofCached (key : CacheKey) (value : CacheValue) : SingleFetchResult :=
  ⟨key.streamId, key.range, key.offset, value.walOffset, value.payload⟩

/-- What the loop over the cache hits gathers. -/
structure Hits where
  results : List SingleFetchResult
  /-- the missing ranges before the hits -/
  gaps : List (Nat × Nat)
  /-- `except_key.offset`, the offset the loop expects next -/
  exceptOffset : Nat
  fetchBytes : Nat

/-- The loop over the cache hits: while fewer than `maxBytes` bytes are
taken, each hit is kept, a range is missing before it if it lies past the
expected offset, and the offset after its base is expected next. -/
def collectHits (maxBytes : Nat) : List (CacheKey × CacheValue) → Nat → Nat → Hits
  | [], exceptOffset, fetchBytes => ⟨[], [], exceptOffset, fetchBytes⟩
  | (key, value) :: rest, exceptOffset, fetchBytes =>
    if maxBytes ≤ fetchBytes then ⟨[], [], exceptOffset, fetchBytes⟩
    else
      let h := collectHits maxBytes rest (key.offset + 1) (fetchBytes + value.size)
      { h with
        results := ofCached key value :: h.results
        gaps := (if exceptOffset < key.offset then [(exceptOffset, key.offset)] else []) ++ h.gaps }

/-- The ranges fetched from the wrapped store: the gaps, and the rest of the
request when the hits leave room. -/
def needFetch (options : ReadOptions) (h : Hits) : List (Nat × Nat) :=
  h.gaps ++ if h.fetchBytes < options.maxBytes ∧ h.exceptOffset < options.maxOffset then
    [(h.exceptOffset, options.maxOffset)] else []

/-- The loop over the wrapped store's answers: each batch is cached and kept,
and the last error other than `NoRecord` is remembered. -/
def absorb : Cache → List SingleFetchResult → Option FetchError → List (Except FetchError FetchResult) →
    Cache × List SingleFetchResult × Option FetchError
  | cache, kept, err, [] => (cache, kept, err)
  | cache, kept, err, .error e :: rest => absorb cache kept (if e = .noRecord then err else some e) rest
  | cache, kept, err, .ok fr :: rest => absorb (fr.results.foldl cacheResult cache) (kept ++ fr.results) err rest

/-- `sort_by` on the offset. The sort is stable, and so is insertion. -/
def sortByOffset (l : List SingleFetchResult) : List SingleFetchResult :=
  l.insertionSort fun a b => a.offset ≤ b.offset

/-- The last loop: the results in order up to the first that brings the total
length to `maxBytes`. -/
def takeUntilFull (maxBytes : Nat) : List SingleFetchResult → Nat → List SingleFetchResult
  | [], _ => []
  | r :: rest, total =>
    if maxBytes ≤ total + r.totalLen then [r] else r :: takeUntilFull maxBytes rest (total + r.totalLen)

/-- The `FetchResult` of the final results. -/
def fetchResultOf (options : ReadOptions) (results : List SingleFetchResult) : FetchResult :=
  ⟨options.streamId, options.range, (results.map (·.offset)).foldl min (2 ^ 64 - 1),
    (results.map (·.offset)).foldl max 0, (results.map (·.totalLen)).sum, results⟩

/-- `CachedStore::fetch` over the wrapped store's `fetch`, with the cache it
leaves. -/
def fetch (inner : ReadOptions → Except FetchError FetchResult) (cache : Cache) (options : ReadOptions) :
    Outcome Empty (Except FetchError FetchResult × Cache) := do
  let result ← search cache ⟨options.streamId, options.range, options.offset⟩
    ⟨options.streamId, options.range, options.maxOffset⟩
  if result.isEmpty then
    match inner options with
    | .ok fr => pure (.ok fr, fr.results.foldl cacheResult cache)
    | .error e => pure (.error e, cache)
  else
    let hits := collectHits options.maxBytes result options.offset 0
    let answers := (needFetch options hits).map fun g => inner { options with offset := g.1, maxOffset := g.2 }
    let absorbed := absorb cache [] none answers
    match absorbed.2.2 with
    | some e => pure (.error e, absorbed.1)
    | none =>
      let sorted := sortByOffset (hits.results ++ absorbed.2.1)
      pure (.ok (fetchResultOf options (takeUntilFull options.maxBytes sorted 0)), absorbed.1)

/-! ## The loops -/

theorem search_of_le (cache : Cache) {lo hi : CacheKey} (h : lo ≤ hi) :
    search cache lo hi = .ok (cache.range lo hi) := by
  rw [search, if_neg (not_lt.mpr h)]
  rfl

/-- Two consecutive hits the loop reaches, with a base between them more than
one offset apart, leave the range between the first base's successor and the
second base missing. -/
theorem collectHits_gap (maxBytes : Nat) (kx ky : CacheKey) (vx vy : CacheValue)
    (post : List (CacheKey × CacheValue)) (hgap : kx.offset + 1 < ky.offset) :
    ∀ (pre : List (CacheKey × CacheValue)) (exceptOffset fetchBytes : Nat),
      fetchBytes + (pre.map (·.2.size)).sum + vx.size < maxBytes →
      let h := collectHits maxBytes (pre ++ (kx, vx) :: (ky, vy) :: post) exceptOffset fetchBytes
      (kx.offset + 1, ky.offset) ∈ h.gaps ∧ ofCached kx vx ∈ h.results ∧ ofCached ky vy ∈ h.results
  | [], exceptOffset, fetchBytes, hbytes => by
    have hx : ¬ maxBytes ≤ fetchBytes := by simp at hbytes; omega
    have hy : ¬ maxBytes ≤ fetchBytes + vx.size := by simp at hbytes; omega
    simp [collectHits, hx, hy, hgap]
  | (k, v) :: pre, exceptOffset, fetchBytes, hbytes => by
    have hk : ¬ maxBytes ≤ fetchBytes := by simp at hbytes; omega
    have ih := collectHits_gap maxBytes kx ky vx vy post hgap pre (k.offset + 1) (fetchBytes + v.size)
      (by simp at hbytes ⊢; omega)
    simp only [List.cons_append, collectHits, if_neg hk, List.mem_append, List.mem_cons] at ih ⊢
    exact ⟨.inr ih.1, .inr ih.2.1, .inr ih.2.2⟩

/-- With no error but `NoRecord`, the answers' batches are all kept, after
what was kept before. -/
theorem absorb_spec : ∀ (answers : List (Except FetchError FetchResult)) (cache : Cache)
    (kept : List SingleFetchResult), (∀ e, .error e ∈ answers → e = .noRecord) →
    ∃ cache' fetched, absorb cache kept none answers = (cache', kept ++ fetched, none) ∧
      ∀ fr, .ok fr ∈ answers → ∀ r ∈ fr.results, r ∈ fetched
  | [], cache, kept, _ => ⟨cache, [], by simp [absorb], fun fr h => by simp at h⟩
  | .error e :: rest, cache, kept, hno => by
    have he : e = .noRecord := hno e List.mem_cons_self
    obtain ⟨cache', fetched, habs, hmem⟩ :=
      absorb_spec rest cache kept fun e' h => hno e' (List.mem_cons_of_mem _ h)
    refine ⟨cache', fetched, by simpa [absorb, he] using habs, fun fr h r hr => ?_⟩
    exact hmem fr (by simpa using h) r hr
  | .ok fr₀ :: rest, cache, kept, hno => by
    obtain ⟨cache', fetched, habs, hmem⟩ := absorb_spec rest (fr₀.results.foldl cacheResult cache)
      (kept ++ fr₀.results) fun e' h => hno e' (List.mem_cons_of_mem _ h)
    refine ⟨cache', fr₀.results ++ fetched, by simpa [absorb] using habs, fun fr h r hr => ?_⟩
    rcases List.mem_cons.mp h with h | h
    · cases h
      exact List.mem_append_left _ hr
    · exact List.mem_append_right _ (hmem fr h r hr)

theorem takeUntilFull_isPrefix (maxBytes : Nat) :
    ∀ (l : List SingleFetchResult) (total : Nat), takeUntilFull maxBytes l total <+: l
  | [], _ => List.prefix_refl _
  | r :: rest, total => by
    unfold takeUntilFull
    split_ifs
    · exact List.prefix_cons_inj r |>.mpr (List.nil_prefix)
    · exact (List.prefix_cons_inj r).mpr (takeUntilFull_isPrefix maxBytes rest _)

theorem sortByOffset_pairwise (l : List SingleFetchResult) :
    (sortByOffset l).Pairwise fun a b => a.offset ≤ b.offset := by
  have htotal : Std.Total fun a b : SingleFetchResult => a.offset ≤ b.offset := ⟨fun a b => le_total _ _⟩
  have htrans : IsTrans SingleFetchResult fun a b => a.offset ≤ b.offset := ⟨fun _ _ _ => le_trans⟩
  exact List.pairwise_insertionSort _ l

/-! ## A batch returned twice -/

/-- **A cached batch of several offsets comes back twice.** Let the request's
cache hits hold a batch at `kx` and then the next one at `ky` further than one
offset on, reached within `max_bytes`. Let the wrapped store fail with
nothing but `NoRecord`, and, asked for `[kx + 1, ky)`, return a batch at
`kx`, as it must when the batch at `kx` holds `kx + 1`. Then `fetch` returns
`Ok`, and a result that reaches the batch at `ky` holds two batches at `kx`. -/
theorem fetch_duplicates_cached_batch (inner : ReadOptions → Except FetchError FetchResult) (cache : Cache)
    (options : ReadOptions) (hle : options.offset ≤ options.maxOffset)
    {pre post : List (CacheKey × CacheValue)} {kx ky : CacheKey} {vx vy : CacheValue}
    (hrange : cache.range ⟨options.streamId, options.range, options.offset⟩
      ⟨options.streamId, options.range, options.maxOffset⟩ = pre ++ (kx, vx) :: (ky, vy) :: post)
    (hgap : kx.offset + 1 < ky.offset) (hbytes : (pre.map (·.2.size)).sum + vx.size < options.maxBytes)
    (hno : ∀ o m e, inner { options with offset := o, maxOffset := m } = .error e → e = .noRecord)
    {fr : FetchResult} (hfr : inner { options with offset := kx.offset + 1, maxOffset := ky.offset } = .ok fr)
    (hx : ∃ r ∈ fr.results, r.offset = kx.offset) :
    ∃ res cache', fetch inner cache options = .ok (.ok res, cache') ∧
      ((∃ r ∈ res.results, r.offset = ky.offset) →
        2 ≤ res.results.countP fun r => r.offset = kx.offset) := by
  have hlo : (⟨options.streamId, options.range, options.offset⟩ : CacheKey) ≤
      ⟨options.streamId, options.range, options.maxOffset⟩ := CacheKey.le_of_offset_le rfl rfl hle
  have hsearch := search_of_le cache hlo
  rw [hrange] at hsearch
  set hits := collectHits options.maxBytes (pre ++ (kx, vx) :: (ky, vy) :: post) options.offset 0
  obtain ⟨hgapMem, hxMem, -⟩ := collectHits_gap options.maxBytes kx ky vx vy post hgap pre options.offset 0
    (by omega)
  set answers := (needFetch options hits).map fun g => inner { options with offset := g.1, maxOffset := g.2 }
  have hanswers : ∀ e, .error e ∈ answers → e = .noRecord := by
    intro e he
    obtain ⟨g, -, hg⟩ := List.mem_map.mp he
    exact hno g.1 g.2 e hg
  obtain ⟨cache', fetched, habs, hfetched⟩ := absorb_spec answers cache [] hanswers
  have hfrMem : Except.ok fr ∈ answers :=
    List.mem_map.mpr ⟨(kx.offset + 1, ky.offset), List.mem_append_left _ hgapMem, hfr⟩
  obtain ⟨r, hr, hrx⟩ := hx
  -- the batch at `kx` is both a hit and in the answer for the false gap
  have hcount : 2 ≤ (hits.results ++ fetched).countP fun r => r.offset = kx.offset := by
    rw [List.countP_append]
    have h1 : 0 < hits.results.countP fun r => r.offset = kx.offset :=
      List.countP_pos_iff.mpr ⟨_, hxMem, by simp [ofCached]⟩
    have h2 : 0 < fetched.countP fun r => r.offset = kx.offset :=
      List.countP_pos_iff.mpr ⟨r, hfetched fr hfrMem r hr, by simpa using hrx⟩
    omega
  refine ⟨fetchResultOf options (takeUntilFull options.maxBytes (sortByOffset (hits.results ++ fetched)) 0),
    cache', ?_, ?_⟩
  · have hne : (pre ++ (kx, vx) :: (ky, vy) :: post).isEmpty = false := by simp
    simp only [answers, hits] at habs
    simp only [fetch, hsearch, Outcome.ok_bind, hne, Bool.false_eq_true, if_false, habs, List.nil_append]
    rfl
  · rintro ⟨b, hb, hby⟩
    have hsorted := sortByOffset_pairwise (hits.results ++ fetched)
    have hperm : (sortByOffset (hits.results ++ fetched)).Perm (hits.results ++ fetched) :=
      List.perm_insertionSort _ _
    rw [show (fetchResultOf options _).results = takeUntilFull options.maxBytes
      (sortByOffset (hits.results ++ fetched)) 0 from rfl] at hb ⊢
    have heq := Order.countP_prefix_eq hsorted (takeUntilFull_isPrefix options.maxBytes _ 0) hb
      (x := kx.offset) (by omega)
    rw [heq, hperm.countP_eq]
    exact hcount

/-- A wrapped store of whole batches, each with its number of records. It
answers with every batch that overlaps `[offset, max_offset)`, as the store's
left shift to the batch holding `offset` does, and with `NoRecord` when none
does. -/
def batchStore (batches : List (SingleFetchResult × Nat)) (options : ReadOptions) :
    Except FetchError FetchResult :=
  let hit := (batches.filter fun b => options.offset < b.1.offset + b.2 ∧ b.1.offset < options.maxOffset).map (·.1)
  if hit.isEmpty then .error .noRecord else .ok (fetchResultOf options hit)

theorem batchStore_error {batches : List (SingleFetchResult × Nat)} {options : ReadOptions} {e : FetchError}
    (h : batchStore batches options = .error e) : e = .noRecord := by
  simp only [batchStore] at h
  split_ifs at h
  · cases h
    rfl

/-- Two batches of ten records, at offsets 0 and 10. -/
def twoBatches : List (SingleFetchResult × Nat) :=
  [(⟨1, 0, 0, 0, [[1, 2, 3]]⟩, 10), (⟨1, 0, 10, 100, [[4, 5, 6]]⟩, 10)]

/-- The cache after both batches were appended. -/
def twoBatchCache : Cache := append (append SortedMap.empty ⟨1, 0, 0, 0⟩ [1, 2, 3]) ⟨1, 0, 10, 100⟩ [4, 5, 6]

/-- Reading offsets 0 to 20 returns each batch twice: the false gap `[1, 10)`
brings back the batch at 0, and the tail `[11, 20)` the batch at 10. -/
theorem fetch_returns_first_batch_twice :
    (∃ res cache', fetch (batchStore twoBatches) twoBatchCache ⟨1, 0, 0, 20, 1000⟩ = .ok (.ok res, cache') ∧
      res.results.map (·.offset) = [0, 0, 10, 10]) ∧
    ∃ res cache', fetch (batchStore twoBatches) twoBatchCache ⟨1, 0, 0, 20, 1000⟩ = .ok (.ok res, cache') ∧
      ((∃ r ∈ res.results, r.offset = 10) → 2 ≤ res.results.countP fun r => r.offset = 0) :=
  ⟨⟨_, _, rfl, rfl⟩,
    fetch_duplicates_cached_batch (batchStore twoBatches) twoBatchCache ⟨1, 0, 0, 20, 1000⟩ (by decide)
      (by decide : twoBatchCache.range ⟨1, 0, 0⟩ ⟨1, 0, 20⟩ =
        [] ++ (⟨1, 0, 0⟩, ⟨0, [[1, 2, 3]]⟩) :: (⟨1, 0, 10⟩, ⟨100, [[4, 5, 6]]⟩) :: [])
      (by decide) (by decide) (fun _ _ _ => batchStore_error) rfl ⟨_, List.mem_cons_self, rfl⟩⟩

end CachedStore

end ElasticStream.Store
