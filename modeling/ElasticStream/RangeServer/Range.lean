import Mathlib

/-! # A stream range on the range server

`Window` (range-server/src/range_manager/window.rs) admits append requests of
a range in offset order, `check_barrier` moving `next` past each admitted
request, and takes the maximum of the committed offsets it is given.
`Range` (range.rs) wraps the window with its own `Option`-typed committed
offset and drops the window when sealed; `Range::seal` writes the
committed end into the seal request's metadata. The manager (manager.rs) routes
`check_barrier` and `commit(offset + last_offset_delta)` of one range here.

Offsets are `u64` stream offsets and lengths `u32` record counts; no sum of
them reaches `2^64`. -/

namespace ElasticStream.RangeServer

inductive ServiceError where
  | alreadySealed
  | notFound (resource : String)
  | offsetCommitted
  | offsetInFlight
  | offsetOutOfOrder
  deriving DecidableEq, Repr

/-- The store's `AppendError`, on the variants the append path produces. -/
inductive AppendError where
  | committed
  | inflight
  | outOfOrder
  | rangeNotFound
  | rangeSealed
  | internal
  deriving DecidableEq, Repr

/-- `impl From<ServiceError> for AppendError`. -/
def AppendError.ofServiceError : ServiceError → AppendError
  | .offsetCommitted => .committed
  | .offsetInFlight => .inflight
  | .offsetOutOfOrder => .outOfOrder
  | _ => .internal

structure Window where
  next : Nat
  committed : Nat
  deriving DecidableEq, Repr

namespace Window

/-- The initial committed offset is the same as the next offset. -/
def new (next : Nat) : Window := ⟨next, next⟩

/-- `check_barrier` on a request of base `offset` and `len` records. -/
def checkBarrier (w : Window) (offset len : Nat) : Except ServiceError Unit × Window :=
  if offset < w.committed then (.error .offsetCommitted, w)
  else if offset < w.next then (.error .offsetInFlight, w)
  else if offset > w.next then (.error .offsetOutOfOrder, w)
  else (.ok (), { w with next := w.next + len })

def commit (w : Window) (value : Nat) : Nat × Window :=
  let w' := if value > w.committed then { w with committed := value } else w
  (w'.committed, w')

theorem checkBarrier_ok {w w' : Window} {offset len : Nat}
    (h : w.checkBarrier offset len = (.ok (), w')) :
    offset = w.next ∧ w.committed ≤ offset ∧ w' = { w with next := w.next + len } := by
  unfold checkBarrier at h
  by_cases h1 : offset < w.committed
  · simp [h1] at h
  by_cases h2 : offset < w.next
  · simp [h1, h2] at h
  by_cases h3 : offset > w.next
  · simp [h1, h2, h3] at h
  simp only [h1, h2, h3, if_false, Prod.mk.injEq, true_and] at h
  exact ⟨by omega, by omega, h.symm⟩

theorem checkBarrier_error {w w' : Window} {offset len : Nat} {e : ServiceError}
    (h : w.checkBarrier offset len = (.error e, w')) : w' = w := by
  unfold checkBarrier at h
  by_cases h1 : offset < w.committed
  · simp only [h1, if_true, Prod.mk.injEq] at h; exact h.2.symm
  by_cases h2 : offset < w.next
  · simp only [h1, h2, if_true, if_false, Prod.mk.injEq] at h; exact h.2.symm
  by_cases h3 : offset > w.next
  · simp only [h1, h2, h3, if_true, if_false, Prod.mk.injEq] at h; exact h.2.symm
  simp [h1, h2, h3] at h

@[simp] theorem commit_fst (w : Window) (value : Nat) : (w.commit value).1 = (w.commit value).2.committed := rfl

@[simp] theorem commit_committed (w : Window) (value : Nat) :
    (w.commit value).2.committed = max value w.committed := by
  unfold commit; split_ifs with h <;> simp <;> omega

@[simp] theorem commit_next (w : Window) (value : Nat) : (w.commit value).2.next = w.next := by
  unfold commit; split_ifs <;> rfl

end Window

/-- What the range server keeps of a range's metadata: its start and, once
sealed, its end (`end()` in the source). -/
structure RangeMetadata where
  start : Nat
  endOffset : Option Nat
  deriving DecidableEq, Repr

structure Range where
  metadata : RangeMetadata
  committed : Option Nat
  window : Option Window
  deriving DecidableEq, Repr

namespace Range

/-- A range created with an end is sealed and has no window. -/
def new (metadata : RangeMetadata) : Range :=
  { metadata, committed := none,
    window := if metadata.endOffset.isSome then none else some (Window.new metadata.start) }

/-- `Range::commit`: only a larger committed offset is accepted, and the
first one only if it is not below the range start. -/
def commit (r : Range) (newCommittedOffset : Nat) : Except ServiceError Unit × Range :=
  match r.window with
  | none => (.error .alreadySealed, r)
  | some win =>
    let (newCommittedOffset, win) := win.commit newCommittedOffset
    let r := { r with window := some win }
    match r.committed with
    | some committed =>
      (.ok (), if newCommittedOffset > committed then { r with committed := some newCommittedOffset } else r)
    | none =>
      (.ok (), if newCommittedOffset ≥ r.metadata.start then { r with committed := some newCommittedOffset } else r)

end Range

/-- `Range::seal(&mut self, metadata: &mut RangeMetadata)`: the end of the
request (if any) becomes the local end, the local committed offset (or the start)
is written into the request, and the window is dropped. Returns the range
and the request metadata after the call. -/
def Range.seal (r : Range) (metadata : RangeMetadata) : Range × RangeMetadata :=
  let end_ := r.committed.getD r.metadata.start
  let r := match metadata.endOffset with
    | some endOffset => { r with metadata := { r.metadata with endOffset := some endOffset } }
    | none => r
  ({ r with window := none }, { metadata with endOffset := some end_ })

namespace Range

def dataComplete (r : Range) : Bool :=
  match r.committed with
  | some committed => decide (committed ≥ r.metadata.endOffset.getD r.metadata.start)
  | none => false

/-- `DefaultRangeManager::check_barrier` for this range. -/
def checkBarrier (r : Range) (offset len : Nat) : Except AppendError Unit × Range :=
  match r.window with
  | some win =>
    let (res, win) := win.checkBarrier offset len
    (match res with
      | .ok () => .ok ()
      | .error e => .error (AppendError.ofServiceError e), { r with window := some win })
  | none => (.error .rangeSealed, r)

/-- `DefaultRangeManager::commit` for this range. -/
def commitAppend (r : Range) (offset lastOffsetDelta : Nat) : Except ServiceError Unit × Range :=
  r.commit (offset + lastOffsetDelta)

/-! ## One lemma for each operation -/

theorem commit_sealed {r : Range} (h : r.window = none) (v : Nat) : r.commit v = (.error .alreadySealed, r) := by
  unfold commit; rw [h]

theorem commit_window {r : Range} {win : Window} (h : r.window = some win) (v : Nat) :
    (r.commit v).1 = .ok () ∧
      (r.commit v).2 = { r with window := some (win.commit v).2, committed := (r.commit v).2.committed } ∧
      (∀ c, r.committed = some c → (r.commit v).2.committed = some (max (max v win.committed) c)) ∧
      (r.committed = none → (r.commit v).2.committed =
        if max v win.committed ≥ r.metadata.start then some (max v win.committed) else none) := by
  unfold commit; rw [h]
  dsimp only
  cases hc : r.committed with
  | some c =>
    dsimp only
    refine ⟨rfl, ?_, ?_, by simp⟩
    · split_ifs <;> simp
    · intro c' hc'
      cases hc'
      split_ifs with hlt <;> simp only [Window.commit_fst, Window.commit_committed, hc] at * <;> congr 1 <;> omega
  | none =>
    dsimp only
    refine ⟨rfl, ?_, by simp, fun _ => ?_⟩
    · split_ifs <;> simp
    · simp only [Window.commit_fst, Window.commit_committed]
      split_ifs <;> simp

theorem checkBarrier_sealed {r : Range} (h : r.window = none) (offset len : Nat) :
    r.checkBarrier offset len = (.error .rangeSealed, r) := by
  unfold checkBarrier; rw [h]

theorem checkBarrier_ok {r r' : Range} {offset len : Nat}
    (h : r.checkBarrier offset len = (.ok (), r')) :
    ∃ win, r.window = some win ∧ offset = win.next ∧ win.committed ≤ offset ∧
      r' = { r with window := some { win with next := win.next + len } } := by
  unfold checkBarrier at h
  cases hw : r.window with
  | none => rw [hw] at h; cases h
  | some win =>
    rw [hw] at h
    dsimp only at h
    cases hb : win.checkBarrier offset len with
    | mk res win' =>
      rw [hb] at h
      cases res with
      | error e => cases h
      | ok u =>
        obtain ⟨ho, hc, rfl⟩ := Window.checkBarrier_ok hb
        exact ⟨win, rfl, ho, hc, (Prod.mk.inj h).2.symm⟩

theorem checkBarrier_error {r r' : Range} {offset len : Nat} {e : AppendError}
    (h : r.checkBarrier offset len = (.error e, r')) : r' = r := by
  unfold checkBarrier at h
  cases hw : r.window with
  | none => rw [hw] at h; exact (Prod.mk.inj h).2.symm
  | some win =>
    rw [hw] at h
    dsimp only at h
    cases hb : win.checkBarrier offset len with
    | mk res win' =>
      rw [hb] at h
      cases res with
      | error e' =>
        rw [Window.checkBarrier_error hb] at h
        rw [← (Prod.mk.inj h).2]
        cases r; simp_all
      | ok u => cases h

@[simp] theorem seal_window (r : Range) (md : RangeMetadata) : (r.seal md).1.window = none := by
  unfold Range.seal; split <;> rfl

@[simp] theorem seal_committed (r : Range) (md : RangeMetadata) : (r.seal md).1.committed = r.committed := by
  unfold Range.seal; split <;> rfl

@[simp] theorem seal_start (r : Range) (md : RangeMetadata) :
    (r.seal md).1.metadata.start = r.metadata.start := by
  unfold Range.seal; split <;> rfl

@[simp] theorem seal_end (r : Range) (md : RangeMetadata) :
    (r.seal md).2.endOffset = some (r.committed.getD r.metadata.start) := rfl

end Range

end ElasticStream.RangeServer
