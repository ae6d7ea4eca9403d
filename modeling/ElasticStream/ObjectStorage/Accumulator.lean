import Mathlib
import ElasticStream.Codec.Cursor
import ElasticStream.Collections.Tally

/-! # The offload cache count

Every range a node offloads has a `DefaultRangeAccumulator`
(object-storage/src/range_accumulator.rs): it counts the bytes committed to
the range since its last offload and, past an object or a part, tells the
range's read loop to offload them. `DefaultObjectStorage`
(object-storage/src/object_storage.rs) keeps in `cache_size` the total over
the ranges: `new_commit` adds the change of size each accumulator call
reports and, over `max_cache_size`, offloads the ranges holding a part until
the count is under `cache_low_watermark`.

The count moves in `new_commit` only. The force-flush task calls `try_flush`
on every range and drops the change it reports, and `add_range` and
`remove_range` replace and drop accumulators: the bytes they held leave the
ranges but stay in `cache_size`. `run_accounting` gives the exact law over
any run.

The read loops that receive the events, the clock (times are given as
numbers) and the channel's capacity are outside this file. -/

namespace ElasticStream.ObjectStorage

open ElasticStream.Codec ElasticStream.Collections

/-! ## Integer casts -/

/-- `x as i32` for a `u32` value. -/
def asI32 (x : Nat) : Int := if x < 2 ^ 31 then x else x - 2 ^ 32

/-- `-x` on an `i32`, which panics on the least value in a debug build. -/
def negI32 (x : Int) : Outcome Empty Int := if x = -2 ^ 31 then .panic else pure (-x)

/-- `x as i64` for a `u64` value. -/
def asI64 (x : Nat) : Int := if x < 2 ^ 63 then x else x - 2 ^ 64

/-- `x as u64` for an `i64` value. -/
def asU64 (x : Int) : Nat := (x % 2 ^ 64).toNat

theorem asI32_of_lt {x : Nat} (h : x < 2 ^ 31) : asI32 x = x := if_pos h

theorem negI32_asI32 {x : Nat} (h : x < 2 ^ 31) : negI32 (asI32 x) = .ok (-x) := by
  rw [asI32_of_lt h, negI32, if_neg (by omega)]
  rfl

/-! ## A range's accumulator -/

/-- The events an accumulator sends its range's read loop. -/
inductive EventKind where
  | objectFull
  | timeExpired
  | partFull
  | close
  deriving DecidableEq, Repr

/-- `DefaultRangeAccumulator`: the bytes accumulated, the events sent on its
channel, the sizes of an object and of a part, and the time of its last
flush. -/
structure RangeAccumulator where
  size : Nat
  tx : List EventKind
  objectSize : Nat
  partSize : Nat
  timestamp : Nat
  deriving DecidableEq, Repr

namespace RangeAccumulator

/-- `DefaultRangeAccumulator::new`. -/
def new (objectSize partSize now : Nat) : RangeAccumulator := ⟨0, [], objectSize, partSize, now⟩

/-- `accumulate`: a commit of `recordsSize` bytes. Past an object the
accumulator asks for the object to be offloaded and starts again from 0;
else it counts the bytes. The change of size as an `i32`, and whether a
part is held. -/
def accumulate (self : RangeAccumulator) (recordsSize now : Nat) : Outcome Empty (RangeAccumulator × Int × Bool) := do
  let total ← Outcome.add (2 ^ 32) self.size recordsSize
  if self.objectSize ≤ total then do
    let change ← negI32 (asI32 self.size)
    pure ({ self with size := 0, timestamp := now, tx := self.tx ++ [.objectFull] }, change, false)
  else pure ({ self with size := total }, asI32 recordsSize, self.partSize ≤ total)

/-- `try_flush`: bytes held longer than `maxDuration` are offloaded. -/
def tryFlush (self : RangeAccumulator) (maxDuration now : Nat) : Outcome Empty (RangeAccumulator × Int) :=
  if self.size ≠ 0 ∧ maxDuration < now - self.timestamp then do
    let change ← negI32 (asI32 self.size)
    pure ({ self with timestamp := now, size := 0, tx := self.tx ++ [.timeExpired] }, change)
  else pure (self, 0)

/-- `try_offload_part`: a part held is offloaded. -/
def tryOffloadPart (self : RangeAccumulator) : Outcome Empty (RangeAccumulator × Int) :=
  if self.partSize ≤ self.size then do
    let change ← negI32 (asI32 self.size)
    pure ({ self with size := 0, tx := self.tx ++ [.partFull] }, change)
  else pure (self, 0)

/-- The accumulator holds less than 2^31 bytes, and so does an object. -/
structure Bounded (acc : RangeAccumulator) : Prop where
  size : acc.size < 2 ^ 31
  objectSize : acc.objectSize ≤ 2 ^ 31

/-! Each call reports the change of the accumulator's size, and keeps it
bounded. -/

theorem accumulate_spec {acc : RangeAccumulator} (hb : acc.Bounded) {recordsSize : Nat} (hr : recordsSize < 2 ^ 31)
    (now : Nat) :
    ∃ acc' change full, acc.accumulate recordsSize now = .ok (acc', change, full) ∧
      change = (acc'.size : Int) - acc.size ∧ acc'.Bounded ∧ acc'.partSize = acc.partSize ∧
      (full = true → acc.partSize ≤ acc'.size) := by
  have hs := hb.size
  have hobj := hb.objectSize
  by_cases hfull : acc.objectSize ≤ acc.size + recordsSize
  · -- an object's worth: the accumulator starts again
    refine ⟨{ acc with size := 0, timestamp := now, tx := acc.tx ++ [.objectFull] }, -acc.size, false, ?_, by simp,
      ⟨Nat.two_pow_pos 31, hobj⟩, rfl, by simp⟩
    rw [accumulate, Outcome.add_of_lt (by omega), Outcome.ok_bind, if_pos hfull, negI32_asI32 hs, Outcome.ok_bind]
    rfl
  · refine ⟨{ acc with size := acc.size + recordsSize }, recordsSize, decide (acc.partSize ≤ acc.size + recordsSize),
      ?_, by simp, ⟨by dsimp only; omega, hobj⟩, rfl, fun h => by simpa using h⟩
    rw [accumulate, Outcome.add_of_lt (by omega), Outcome.ok_bind, if_neg hfull, asI32_of_lt hr]
    rfl

theorem tryFlush_spec {acc : RangeAccumulator} (hb : acc.Bounded) (maxDuration now : Nat) :
    ∃ acc', acc.tryFlush maxDuration now = .ok (acc', (acc'.size : Int) - acc.size) ∧ acc'.Bounded ∧
      acc'.partSize = acc.partSize ∧
      acc'.size = if acc.size ≠ 0 ∧ maxDuration < now - acc.timestamp then 0 else acc.size := by
  by_cases hexp : acc.size ≠ 0 ∧ maxDuration < now - acc.timestamp
  · refine ⟨{ acc with timestamp := now, size := 0, tx := acc.tx ++ [.timeExpired] }, ?_,
      ⟨Nat.two_pow_pos 31, hb.objectSize⟩, rfl, by simp [hexp]⟩
    rw [tryFlush, if_pos hexp, negI32_asI32 hb.size, Outcome.ok_bind]
    simp
  · refine ⟨acc, ?_, hb, rfl, by simp only [if_neg hexp]⟩
    rw [tryFlush, if_neg hexp]
    simp

theorem tryOffloadPart_spec {acc : RangeAccumulator} (hb : acc.Bounded) :
    ∃ acc', acc.tryOffloadPart = .ok (acc', (acc'.size : Int) - acc.size) ∧ acc'.Bounded ∧
      acc'.partSize = acc.partSize ∧ acc'.size = if acc.partSize ≤ acc.size then 0 else acc.size := by
  by_cases hpart : acc.partSize ≤ acc.size
  · refine ⟨{ acc with size := 0, tx := acc.tx ++ [.partFull] }, ?_, ⟨Nat.two_pow_pos 31, hb.objectSize⟩, rfl,
      by simp [hpart]⟩
    rw [tryOffloadPart, if_pos hpart, negI32_asI32 hb.size, Outcome.ok_bind]
    simp
  · refine ⟨acc, ?_, hb, rfl, by simp only [if_neg hpart]⟩
    rw [tryOffloadPart, if_neg hpart]
    simp

end RangeAccumulator

/-! ## The node's count -/

/-- The settings of `ObjectStorageConfig` the count reads. -/
structure ObjectStorageConfig where
  objectSize : Nat
  partSize : Nat
  maxCacheSize : Nat
  cacheLowWatermark : Nat
  deriving DecidableEq, Repr

/-- `DefaultObjectStorage`: whether an operator is configured, the
accumulators of the ranges, the ranges holding a part, and the count. -/
structure DefaultObjectStorage (κ : Type) [LinearOrder κ] where
  config : ObjectStorageConfig
  op : Bool
  ranges : SortedMap κ RangeAccumulator
  partFullRanges : List κ
  cacheSize : Int

/-- What happens to the node: a commit to a range, a round of the
force-flush task, and a range the node starts or stops offloading. -/
inductive Input (κ : Type) where
  | newCommit (key : κ) (recordSize now : Nat)
  | forceFlush (maxDuration now : Nat)
  | addRange (key : κ) (now : Nat)
  | removeRange (key : κ)

namespace DefaultObjectStorage

variable {κ : Type} [LinearOrder κ]

/-- `HashSet::insert`. -/
def setInsert (s : List κ) (k : κ) : List κ := if k ∈ s then s else s ++ [k]

/-- `try_offload_part` on the accumulator of `key`, with its change counted. -/
def offloadPartOf (self : DefaultObjectStorage κ) (key : κ) : Outcome Empty (DefaultObjectStorage κ) :=
  match self.ranges.find? key with
  | none => pure self
  | some range => do
    let (range, change) ← range.tryOffloadPart
    pure { self with ranges := self.ranges.insert key range, cacheSize := self.cacheSize + change }

/-- The loop of `new_commit` over the part-full ranges: each that still has
an accumulator offloads its part, its change is counted and it is marked
for removal, until the count is under the low watermark. -/
def drainParts (lowWatermark : Int) :
    List κ → SortedMap κ RangeAccumulator → Int → List κ → Outcome Empty (SortedMap κ RangeAccumulator × Int × List κ)
  | [], ranges, cacheSize, removeKeys => pure (ranges, cacheSize, removeKeys)
  | key :: keys, ranges, cacheSize, removeKeys =>
    match ranges.find? key with
    | none => drainParts lowWatermark keys ranges cacheSize removeKeys
    | some range => do
      let (range, change) ← range.tryOffloadPart
      if cacheSize + change < lowWatermark then
        pure (ranges.insert key range, cacheSize + change, removeKeys ++ [key])
      else drainParts lowWatermark keys (ranges.insert key range) (cacheSize + change) (removeKeys ++ [key])

/-- The loop over the part-full ranges, if there are any; those that
offloaded leave the set. -/
def drainPartFull (self : DefaultObjectStorage κ) : Outcome Empty (DefaultObjectStorage κ) :=
  if self.partFullRanges.isEmpty then pure self
  else do
    let (ranges, cacheSize, removeKeys) ←
      drainParts (asI64 self.config.cacheLowWatermark) self.partFullRanges self.ranges self.cacheSize []
    pure { self with ranges, cacheSize, partFullRanges := removeKeys.foldl List.erase self.partFullRanges }

/-- `new_commit` past `max_cache_size`: the committing range offloads its
part if it holds one, then the part-full ranges do until the count is under
`cache_low_watermark`. -/
def offloadParts (self : DefaultObjectStorage κ) (key : κ) (isPartFull : Bool) : Outcome Empty (DefaultObjectStorage κ) :=
  if isPartFull then do
    let self ← self.offloadPartOf key
    self.drainPartFull
  else self.drainPartFull

/-- `new_commit`: the range's accumulator takes the commit and the change it
reports is counted; under `max_cache_size` a range holding a part joins the
set, past it parts are offloaded. -/
def newCommit (self : DefaultObjectStorage κ) (key : κ) (recordSize now : Nat) : Outcome Empty (DefaultObjectStorage κ) :=
  if !self.op then pure self
  else match self.ranges.find? key with
    | none => pure self
    | some range => do
      let (range, sizeChange, isPartFull) ← range.accumulate recordSize now
      let self := { self with ranges := self.ranges.insert key range, cacheSize := self.cacheSize + sizeChange }
      if asU64 self.cacheSize < self.config.maxCacheSize then
        pure { self with partFullRanges := if isPartFull then setInsert self.partFullRanges key else self.partFullRanges }
      else self.offloadParts key isPartFull

/-- `try_flush` on every range in turn; the changes are dropped. -/
def flushAll (maxDuration now : Nat) :
    List (κ × RangeAccumulator) → SortedMap κ RangeAccumulator → Outcome Empty (SortedMap κ RangeAccumulator)
  | [], ranges => pure ranges
  | (key, range) :: rest, ranges => do
    let (range, _) ← range.tryFlush maxDuration now
    flushAll maxDuration now rest (ranges.insert key range)

/-- A round of `run_force_flush_task`. -/
def forceFlush (self : DefaultObjectStorage κ) (maxDuration now : Nat) : Outcome Empty (DefaultObjectStorage κ) := do
  let ranges ← flushAll maxDuration now self.ranges.entries self.ranges
  pure { self with ranges }

/-- `add_range`: a new accumulator, in place of any the range had. -/
def addRange (self : DefaultObjectStorage κ) (key : κ) (now : Nat) : DefaultObjectStorage κ :=
  if !self.op then self
  else { self with ranges := self.ranges.insert key (RangeAccumulator.new self.config.objectSize self.config.partSize now) }

/-- `remove_range`. -/
def removeRange (self : DefaultObjectStorage κ) (key : κ) : DefaultObjectStorage κ :=
  if !self.op then self else { self with ranges := self.ranges.erase key }

def step (self : DefaultObjectStorage κ) : Input κ → Outcome Empty (DefaultObjectStorage κ)
  | .newCommit key recordSize now => self.newCommit key recordSize now
  | .forceFlush maxDuration now => self.forceFlush maxDuration now
  | .addRange key now => pure (self.addRange key now)
  | .removeRange key => pure (self.removeRange key)

def run (self : DefaultObjectStorage κ) : List (Input κ) → Outcome Empty (DefaultObjectStorage κ)
  | [] => pure self
  | i :: is => do
    let self ← self.step i
    run self is

/-! ## The count and what the accumulators hold -/

/-- The bytes the accumulators hold. -/
def held (self : DefaultObjectStorage κ) : Nat := SortedMap.total RangeAccumulator.size self.ranges

/-- The bytes a force-flush round takes from an accumulator. -/
def flushed (maxDuration now : Nat) (acc : RangeAccumulator) : Nat :=
  if acc.size ≠ 0 ∧ maxDuration < now - acc.timestamp then acc.size else 0

/-- The bytes an input takes out of the accumulators without counting them
off: those a force-flush round flushes, and those of the accumulator
`add_range` replaces or `remove_range` drops. -/
def uncounted (self : DefaultObjectStorage κ) : Input κ → Nat
  | .newCommit .. => 0
  | .forceFlush maxDuration now => (self.ranges.entries.map fun e => flushed maxDuration now e.2).sum
  | .addRange key _ => if self.op then ((self.ranges.find? key).map RangeAccumulator.size).getD 0 else 0
  | .removeRange key => if self.op then ((self.ranges.find? key).map RangeAccumulator.size).getD 0 else 0

/-- The bytes a run takes out uncounted, input by input. -/
def lost (self : DefaultObjectStorage κ) : List (Input κ) → Nat
  | [] => 0
  | i :: is =>
    match self.step i with
    | .ok self' => self.uncounted i + lost self' is
    | _ => 0

/-- Every accumulator is bounded, and so is the object size of a new one. -/
structure Bounded (s : DefaultObjectStorage κ) : Prop where
  ranges : ∀ e ∈ s.ranges.entries, e.2.Bounded
  objectSize : s.config.objectSize ≤ 2 ^ 31

/-- A commit the accumulators can count: fewer than 2^31 bytes. -/
def Input.Fits : Input κ → Prop
  | .newCommit _ recordSize _ => recordSize < 2 ^ 31
  | _ => True

section Count

variable {m : SortedMap κ RangeAccumulator}

theorem bounded_insert (hm : ∀ e ∈ m.entries, e.2.Bounded) (k : κ) {v : RangeAccumulator} (hv : v.Bounded) :
    ∀ e ∈ (m.insert k v).entries, e.2.Bounded := by
  intro e he
  rcases SortedMap.mem_insert.mp he with rfl | ⟨he, -⟩
  · exact hv
  · exact hm e he

/-- Putting an accumulator in place of another and counting the change
keeps the count's excess over what the accumulators hold. -/
theorem count_insert {k : κ} {acc : RangeAccumulator} (h : m.find? k = some acc) (acc' : RangeAccumulator)
    (cacheSize : Int) :
    cacheSize + ((acc'.size : Int) - acc.size) - (SortedMap.total RangeAccumulator.size (m.insert k acc') : Int) =
      cacheSize - SortedMap.total RangeAccumulator.size m := by
  have := SortedMap.total_insert_of_find? RangeAccumulator.size h acc'
  omega

end Count

theorem offloadPartOf_spec {self : DefaultObjectStorage κ} (hb : self.Bounded) (key : κ) :
    ∃ self', self.offloadPartOf key = .ok self' ∧ self'.cacheSize - self'.held = self.cacheSize - self.held ∧
      self'.Bounded ∧ self'.config = self.config ∧ self'.partFullRanges = self.partFullRanges := by
  cases hfind : self.ranges.find? key with
  | none => exact ⟨self, by simp [offloadPartOf, hfind], rfl, hb, rfl, rfl⟩
  | some range =>
    obtain ⟨range', hpart, hbounded, -, -⟩ := range.tryOffloadPart_spec (hb.ranges _ (SortedMap.find?_eq_some_iff.mp hfind))
    exact ⟨{ self with
        ranges := self.ranges.insert key range'
        cacheSize := self.cacheSize + ((range'.size : Int) - range.size) },
      by simp [offloadPartOf, hfind, hpart], count_insert hfind range' self.cacheSize,
      ⟨bounded_insert hb.ranges key hbounded, hb.objectSize⟩, rfl, rfl⟩

theorem drainParts_spec (lowWatermark : Int) :
    ∀ (keys : List κ) (ranges : SortedMap κ RangeAccumulator) (cacheSize : Int) (removeKeys : List κ),
      (∀ e ∈ ranges.entries, e.2.Bounded) →
      ∃ ranges' cacheSize' removeKeys',
        drainParts lowWatermark keys ranges cacheSize removeKeys = .ok (ranges', cacheSize', removeKeys') ∧
        cacheSize' - SortedMap.total RangeAccumulator.size ranges' =
          cacheSize - SortedMap.total RangeAccumulator.size ranges ∧
        ∀ e ∈ ranges'.entries, e.2.Bounded
  | [], ranges, cacheSize, removeKeys, hb => ⟨ranges, cacheSize, removeKeys, rfl, rfl, hb⟩
  | key :: keys, ranges, cacheSize, removeKeys, hb => by
    cases hfind : ranges.find? key with
    | none =>
      simpa only [drainParts, hfind] using drainParts_spec lowWatermark keys ranges cacheSize removeKeys hb
    | some range =>
      obtain ⟨range', hpart, hbounded, -, -⟩ := range.tryOffloadPart_spec (hb _ (SortedMap.find?_eq_some_iff.mp hfind))
      have hcount := count_insert hfind range' cacheSize
      have hb' := bounded_insert hb key hbounded
      by_cases hlow : cacheSize + ((range'.size : Int) - range.size) < lowWatermark
      · -- the count is under the low watermark: the loop stops
        exact ⟨ranges.insert key range', cacheSize + ((range'.size : Int) - range.size), removeKeys ++ [key],
          by simp [drainParts, hfind, hpart, hlow], hcount, hb'⟩
      · obtain ⟨ranges', cacheSize', removeKeys', hrun, hcount', hb''⟩ :=
          drainParts_spec lowWatermark keys _ _ (removeKeys ++ [key]) hb'
        exact ⟨ranges', cacheSize', removeKeys', by simp [drainParts, hfind, hpart, hlow, hrun],
          hcount'.trans hcount, hb''⟩

theorem drainPartFull_spec {self : DefaultObjectStorage κ} (hb : self.Bounded) :
    ∃ self', self.drainPartFull = .ok self' ∧ self'.cacheSize - self'.held = self.cacheSize - self.held ∧
      self'.Bounded := by
  by_cases hempty : self.partFullRanges.isEmpty
  · exact ⟨self, by simp [drainPartFull, hempty], rfl, hb⟩
  · obtain ⟨ranges', cacheSize', removeKeys', hrun, hcount, hb'⟩ :=
      drainParts_spec (asI64 self.config.cacheLowWatermark) self.partFullRanges self.ranges self.cacheSize [] hb.ranges
    exact ⟨{ self with
        ranges := ranges'
        cacheSize := cacheSize'
        partFullRanges := removeKeys'.foldl List.erase self.partFullRanges },
      by simp [drainPartFull, hempty, hrun], hcount, hb', hb.objectSize⟩

theorem offloadParts_spec {self : DefaultObjectStorage κ} (hb : self.Bounded) (key : κ) (isPartFull : Bool) :
    ∃ self', self.offloadParts key isPartFull = .ok self' ∧ self'.cacheSize - self'.held = self.cacheSize - self.held ∧
      self'.Bounded := by
  cases isPartFull
  · simpa [offloadParts] using drainPartFull_spec hb
  · obtain ⟨mid, hmid, hcount, hbmid, -, -⟩ := offloadPartOf_spec hb key
    obtain ⟨self', hdrain, hcount', hb'⟩ := drainPartFull_spec hbmid
    exact ⟨self', by simp [offloadParts, hmid, hdrain], hcount'.trans hcount, hb'⟩

/-- **`new_commit` keeps the count**: the count's excess over what the
accumulators hold is the same after a commit. -/
theorem newCommit_spec {self : DefaultObjectStorage κ} (hb : self.Bounded) (key : κ) {recordSize : Nat}
    (hr : recordSize < 2 ^ 31) (now : Nat) :
    ∃ self', self.newCommit key recordSize now = .ok self' ∧
      self'.cacheSize - self'.held = self.cacheSize - self.held ∧ self'.Bounded := by
  cases hop : self.op
  · exact ⟨self, by simp [newCommit, hop], rfl, hb⟩
  cases hfind : self.ranges.find? key with
  | none => exact ⟨self, by simp [newCommit, hop, hfind], rfl, hb⟩
  | some range =>
    obtain ⟨range', change, full, hacc, hchange, hbounded, -, -⟩ :=
      range.accumulate_spec (hb.ranges _ (SortedMap.find?_eq_some_iff.mp hfind)) hr now
    subst hchange
    -- the commit counted, before the limit is checked
    let mid : DefaultObjectStorage κ :=
      { self with
        ranges := self.ranges.insert key range'
        cacheSize := self.cacheSize + ((range'.size : Int) - range.size) }
    have hcount : mid.cacheSize - mid.held = self.cacheSize - self.held := count_insert hfind range' self.cacheSize
    have hbmid : mid.Bounded := ⟨bounded_insert hb.ranges key hbounded, hb.objectSize⟩
    by_cases hlimit : asU64 (self.cacheSize + ((range'.size : Int) - range.size)) < self.config.maxCacheSize
    · refine ⟨{ mid with partFullRanges := if full then setInsert self.partFullRanges key else self.partFullRanges },
        ?_, hcount, hbmid.ranges, hb.objectSize⟩
      rw [newCommit, if_neg (by simp [hop])]
      simp only [hfind, hacc, Outcome.ok_bind]
      rw [if_pos hlimit]
      rfl
    · obtain ⟨self', hparts, hcount', hb'⟩ := offloadParts_spec hbmid key full
      refine ⟨self', ?_, hcount'.trans hcount, hb'⟩
      rw [newCommit, if_neg (by simp [hop])]
      simp only [hfind, hacc, Outcome.ok_bind]
      rw [if_neg hlimit]
      exact hparts

theorem flushAll_spec (maxDuration now : Nat) :
    ∀ (l : List (κ × RangeAccumulator)) (ranges : SortedMap κ RangeAccumulator),
      l.Pairwise (fun a b => a.1 < b.1) → (∀ e ∈ l, ranges.find? e.1 = some e.2) →
      (∀ e ∈ ranges.entries, e.2.Bounded) →
      ∃ ranges', flushAll maxDuration now l ranges = .ok ranges' ∧
        SortedMap.total RangeAccumulator.size ranges' + (l.map fun e => flushed maxDuration now e.2).sum =
          SortedMap.total RangeAccumulator.size ranges ∧ ∀ e ∈ ranges'.entries, e.2.Bounded
  | [], ranges, _, _, hb => ⟨ranges, rfl, by simp, hb⟩
  | (key, range) :: rest, ranges, hsorted, hfind, hb => by
    obtain ⟨hlt, hsorted'⟩ := List.pairwise_cons.mp hsorted
    have hkey : ranges.find? key = some range := hfind _ List.mem_cons_self
    obtain ⟨range', hflush, hbounded, -, hsize⟩ :=
      range.tryFlush_spec (hb _ (SortedMap.find?_eq_some_iff.mp hkey)) maxDuration now
    -- the later entries keep their accumulators
    have hfind' : ∀ e ∈ rest, (ranges.insert key range').find? e.1 = some e.2 := by
      intro e he
      rw [SortedMap.find?_insert_of_ne ranges range' (ne_of_gt (hlt e he))]
      exact hfind e (List.mem_cons_of_mem _ he)
    obtain ⟨ranges', hrun, htotal, hb'⟩ :=
      flushAll_spec maxDuration now rest _ hsorted' hfind' (bounded_insert hb key hbounded)
    have hins := SortedMap.total_insert_of_find? RangeAccumulator.size hkey range'
    have hflushed : range'.size + flushed maxDuration now range = range.size := by
      by_cases hc : range.size ≠ 0 ∧ maxDuration < now - range.timestamp <;> simp [hsize, flushed, hc]
    refine ⟨ranges', by simp [flushAll, hflush, hrun], ?_, hb'⟩
    simp only [List.map_cons, List.sum_cons]
    omega

theorem forceFlush_spec {self : DefaultObjectStorage κ} (hb : self.Bounded) (maxDuration now : Nat) :
    ∃ self', self.forceFlush maxDuration now = .ok self' ∧
      self'.cacheSize - self'.held = self.cacheSize - self.held + self.uncounted (.forceFlush maxDuration now) ∧
      self'.Bounded := by
  obtain ⟨ranges', hrun, htotal, hb'⟩ := flushAll_spec maxDuration now self.ranges.entries self.ranges
    self.ranges.sorted (fun e he => SortedMap.find?_eq_some_iff.mpr he) hb.ranges
  refine ⟨{ self with ranges := ranges' }, by simp [forceFlush, hrun], ?_, hb', hb.objectSize⟩
  simp only [held, uncounted]
  omega

theorem addRange_spec {self : DefaultObjectStorage κ} (hb : self.Bounded) (key : κ) (now : Nat) :
    (self.addRange key now).cacheSize - (self.addRange key now).held =
        self.cacheSize - self.held + self.uncounted (.addRange key now) ∧
      (self.addRange key now).Bounded := by
  cases hop : self.op
  · have heq : self.addRange key now = self := by simp [addRange, hop]
    rw [heq]
    exact ⟨by simp [uncounted, hop], hb⟩
  let acc := RangeAccumulator.new self.config.objectSize self.config.partSize now
  have heq : self.addRange key now = { self with ranges := self.ranges.insert key acc } := by simp [addRange, hop, acc]
  rw [heq]
  refine ⟨?_, bounded_insert hb.ranges key ⟨Nat.two_pow_pos 31, hb.objectSize⟩, hb.objectSize⟩
  -- the new accumulator holds nothing, so the total loses what the old one held
  have hsplit := SortedMap.total_erase_add RangeAccumulator.size self.ranges key
  simp only [uncounted, hop, if_true, held, SortedMap.total_insert, acc, RangeAccumulator.new]
  omega

theorem removeRange_spec {self : DefaultObjectStorage κ} (hb : self.Bounded) (key : κ) :
    (self.removeRange key).cacheSize - (self.removeRange key).held =
        self.cacheSize - self.held + self.uncounted (.removeRange key) ∧
      (self.removeRange key).Bounded := by
  cases hop : self.op
  · have heq : self.removeRange key = self := by simp [removeRange, hop]
    rw [heq]
    exact ⟨by simp [uncounted, hop], hb⟩
  have heq : self.removeRange key = { self with ranges := self.ranges.erase key } := by simp [removeRange, hop]
  rw [heq]
  refine ⟨?_, fun e he => hb.ranges e (SortedMap.mem_erase.mp he).1, hb.objectSize⟩
  have hsplit := SortedMap.total_erase_add RangeAccumulator.size self.ranges key
  simp only [uncounted, hop, if_true, held]
  omega

/-- One input moves the count's excess over what the accumulators hold by
the bytes it takes out uncounted. -/
theorem step_spec {self : DefaultObjectStorage κ} (hb : self.Bounded) (i : Input κ) (hi : Input.Fits i) :
    ∃ self', self.step i = .ok self' ∧
      self'.cacheSize - self'.held = self.cacheSize - self.held + self.uncounted i ∧ self'.Bounded := by
  cases i with
  | newCommit key recordSize now =>
    obtain ⟨self', h, hcount, hb'⟩ := newCommit_spec hb key hi now
    exact ⟨self', h, by simpa [uncounted] using hcount, hb'⟩
  | forceFlush maxDuration now => exact forceFlush_spec hb maxDuration now
  | addRange key now => exact ⟨_, rfl, addRange_spec hb key now⟩
  | removeRange key => exact ⟨_, rfl, removeRange_spec hb key⟩

/-- **The count over a run.** From any state whose accumulators are
bounded, a run of commits of fewer than 2^31 bytes, force-flush rounds, and
ranges added and removed does not panic, and it leaves `cache_size` above
what the accumulators hold by its excess at the start plus the bytes the run
took out uncounted: those the force-flush rounds flushed and those of the
accumulators `add_range` replaced and `remove_range` dropped. -/
theorem run_accounting {self : DefaultObjectStorage κ} (hb : self.Bounded) (inputs : List (Input κ))
    (hfits : ∀ i ∈ inputs, Input.Fits i) :
    ∃ self', self.run inputs = .ok self' ∧
      self'.cacheSize - self'.held = self.cacheSize - self.held + self.lost inputs := by
  induction inputs generalizing self with
  | nil => exact ⟨self, rfl, by simp [lost]⟩
  | cons i is ih =>
    obtain ⟨mid, hstep, hcount, hbmid⟩ := step_spec hb i (hfits i List.mem_cons_self)
    obtain ⟨self', hrun, hcount'⟩ := ih hbmid fun j hj => hfits j (List.mem_cons_of_mem _ hj)
    refine ⟨self', by simp [run, hstep, hrun], ?_⟩
    simp only [lost, hstep, Nat.cast_add]
    omega

/-- A node with the shipped settings: a range is added, takes a commit of a
kilobyte, is flushed by time and takes another commit. -/
theorem run_accounting_time_flush :
    let s : DefaultObjectStorage Nat := ⟨⟨134217728, 16777216, 1073741824, 939524096⟩, true, SortedMap.empty, [], 0⟩
    let inputs : List (Input Nat) := [.addRange 1 0, .newCommit 1 1024 1, .forceFlush 1200 2000, .newCommit 1 512 2001]
    ∃ s', s.run inputs = .ok s' ∧ s'.cacheSize - s'.held = s.cacheSize - s.held + s.lost inputs := by
  intro s inputs
  refine run_accounting ⟨by simp [s, SortedMap.empty], by norm_num [s]⟩ inputs ?_
  simp [inputs, Input.Fits]

end DefaultObjectStorage

end ElasticStream.ObjectStorage
