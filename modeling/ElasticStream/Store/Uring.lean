import Mathlib
import ElasticStream.Codec.Cursor
import ElasticStream.Store.MergeRange

/-! # Submission-queue accounting of the IO loop

Each round of the store's IO loop (store/src/io/uring.rs) builds the SQEs of
the round, `IO::build_sqe`, and pushes them in one batch,
`IO::submit_data_tasks`, which adds the batch to `inflight`; reaping
completions takes them off again. The only bound on a batch is the slot
count `queue_depth - inflight` that `build_write_sqe` takes new write
buffers up to. The read SQEs of the round, one per merged missed range, the
blocked writes whose barrier has lifted and the SQEs queued for
resubmission join the batch uncounted.

A round whose reads and resubmissions alone exceed the free slots therefore
either overflows the submission queue, and `push_multiple` fails, or leaves
more SQEs in flight than the queue depth, and the next round that builds
writes underflows the `usize` subtraction (`round_overruns_queue_depth`).

The submission queue is taken to be empty when a round pushes: the kernel
has consumed what the previous round submitted. -/

namespace ElasticStream.Store
open ElasticStream.Codec

/-- `StoreError::IoUring`, the error of a failed `push_multiple`. -/
inductive UringError where
  | ioUring
  deriving DecidableEq, Repr

/-- What `build_write_sqe` reads of a buffer of `buf_writer`. -/
structure WriteBuf where
  walOffset : Nat
  limit : Nat
  deriving DecidableEq, Repr

/-- What a round of `build_sqe` finds besides `inflight`. -/
structure Round where
  /-- the missed ranges of the read tasks taken this round, one list per segment -/
  missedEntries : List (List EntryRange)
  /-- blocked writes whose barrier has lifted: `blocked.extract_if` -/
  released : Nat
  /-- `buf_writer.buffering()`, or a record appended this round -/
  needWrite : Bool
  buffers : List WriteBuf
  /-- `write_window.committed` -/
  committed : Nat
  /-- the offsets of the partially filled blocks still in flight -/
  barrier : List Nat
  /-- `resubmit_sqes`, from completions that failed with `EAGAIN` or `EINTR` -/
  resubmits : Nat
  deriving DecidableEq, Repr

/-- `build_read_sqe`: one read SQE for each merged missed range. -/
def buildReadSqe (missedEntries : List (List EntryRange)) : Nat :=
  (missedEntries.map fun ranges => (merge ranges).length).sum

/-- The taken buffers that become SQEs: those holding uncommitted data whose
block no barrier holds back. -/
def writeSqes (committed : Nat) (barrier : List Nat) (buffers : List WriteBuf) : Nat :=
  (buffers.filter fun buf => decide (committed < buf.walOffset + buf.limit) && !barrier.contains buf.walOffset).length

/-- `build_write_sqe`: the released writes, then the buffers up to the slot
count. `queue_depth as usize - self.inflight` overflows, a panic, when more
SQEs are in flight than the queue depth. -/
def buildWriteSqe (queueDepth inflight : Nat) (r : Round) : Outcome UringError Nat :=
  if inflight ≤ queueDepth then
    pure (r.released + writeSqes r.committed r.barrier (r.buffers.take (queueDepth - inflight)))
  else .panic

/-- `build_sqe`: the number of SQEs of the round. -/
def buildSqe (queueDepth inflight : Nat) (r : Round) : Outcome UringError Nat := do
  let reads := buildReadSqe r.missedEntries
  let writes ← if r.released > 0 || r.needWrite then buildWriteSqe queueDepth inflight r else pure 0
  pure (reads + writes + r.resubmits)

/-- The IO loop's count of SQEs in flight, with the configured queue depth and
the size of the submission queue the kernel allocated for it (rounded up to a
power of two). -/
structure IoLoop where
  queueDepth : Nat
  sqEntries : Nat
  inflight : Nat
  deriving DecidableEq, Repr

namespace IoLoop

/-- `submit_data_tasks`: `push_multiple` of the batch into the submission queue. -/
def submitDataTasks (io : IoLoop) (cnt : Nat) : Outcome UringError IoLoop :=
  if cnt = 0 then pure io
  else if cnt ≤ io.sqEntries then pure { io with inflight := io.inflight + cnt }
  else .error .ioUring

/-- One round of the main loop: `build_sqe`, then `submit_data_tasks`. -/
def round (io : IoLoop) (r : Round) : Outcome UringError IoLoop := do
  let cnt ← buildSqe io.queueDepth io.inflight r
  io.submitDataTasks cnt

/-- `reap_data_tasks` after `count` completions. -/
def reap (io : IoLoop) (count : Nat) : IoLoop := { io with inflight := io.inflight - count }

end IoLoop

/-! ## How many SQEs a round builds -/

/-- New writes stay within the slots; released writes do not. -/
theorem buildWriteSqe_le {queueDepth inflight n : Nat} {r : Round}
    (h : buildWriteSqe queueDepth inflight r = .ok n) : n ≤ r.released + (queueDepth - inflight) := by
  unfold buildWriteSqe at h
  split_ifs at h
  cases h
  have hle : writeSqes r.committed r.barrier (r.buffers.take (queueDepth - inflight)) ≤ queueDepth - inflight :=
    calc _ ≤ (r.buffers.take (queueDepth - inflight)).length := List.length_filter_le _ _
      _ ≤ queueDepth - inflight := List.length_take_le _ _
  omega

theorem buildWriteSqe_of_le {queueDepth inflight : Nat} (r : Round) (h : inflight ≤ queueDepth) :
    ∃ n, buildWriteSqe queueDepth inflight r = .ok n := ⟨_, if_pos h⟩

theorem buildWriteSqe_of_lt {queueDepth inflight : Nat} (r : Round) (h : queueDepth < inflight) :
    buildWriteSqe queueDepth inflight r = .panic := if_neg (Nat.not_le.mpr h)

/-- **Spec.** Before the queue is overrun, a round builds its reads and
resubmissions and some writes, at most the released ones and the free slots. -/
theorem buildSqe_spec {queueDepth inflight : Nat} (r : Round) (h : inflight ≤ queueDepth) :
    ∃ w, buildSqe queueDepth inflight r = .ok (buildReadSqe r.missedEntries + w + r.resubmits) ∧
      w ≤ r.released + (queueDepth - inflight) := by
  unfold buildSqe
  split
  · obtain ⟨n, hn⟩ := buildWriteSqe_of_le r h
    exact ⟨n, by simp [hn], buildWriteSqe_le hn⟩
  · exact ⟨0, by simp, Nat.zero_le _⟩

theorem buildSqe_of_lt {queueDepth inflight : Nat} {r : Round} (h : queueDepth < inflight)
    (hw : (r.released > 0 || r.needWrite) = true) : buildSqe queueDepth inflight r = .panic := by
  simp only [buildSqe, hw, if_true, buildWriteSqe_of_lt r h, Outcome.panic_bind]

/-- The batch is pushed when it fits the submission queue, and adds to `inflight`. -/
theorem submitDataTasks_cases (io : IoLoop) (cnt : Nat) (hcnt : 0 < cnt) :
    (cnt ≤ io.sqEntries ∧ io.submitDataTasks cnt = .ok { io with inflight := io.inflight + cnt }) ∨
      io.submitDataTasks cnt = .error .ioUring := by
  unfold IoLoop.submitDataTasks
  rw [if_neg (Nat.pos_iff_ne_zero.mp hcnt)]
  by_cases hle : cnt ≤ io.sqEntries
  · exact .inl ⟨hle, if_pos hle⟩
  · exact .inr (if_neg hle)

/-- A round whose reads and resubmissions alone exceed the free slots either
fails in `push_multiple`, or leaves more SQEs in flight than the queue depth;
a round that builds writes before enough of them are reaped then overflows
`queue_depth - inflight`. -/
theorem round_overruns_queue_depth (io : IoLoop) (r r' : Round) (hle : io.inflight ≤ io.queueDepth)
    (hover : io.queueDepth - io.inflight < buildReadSqe r.missedEntries + r.resubmits)
    (hwrite : (r'.released > 0 || r'.needWrite) = true) :
    io.round r = .error .ioUring ∨
      ∃ io', io.round r = .ok io' ∧ io.queueDepth < io'.inflight ∧
        ∀ count, io.queueDepth + count < io'.inflight → (io'.reap count).round r' = .panic := by
  obtain ⟨w, hbuild, -⟩ := buildSqe_spec r hle
  have hround : io.round r = io.submitDataTasks (buildReadSqe r.missedEntries + w + r.resubmits) := by
    simp only [IoLoop.round, hbuild, Outcome.ok_bind]
  rw [hround]
  rcases submitDataTasks_cases io (buildReadSqe r.missedEntries + w + r.resubmits) (by omega) with
    ⟨-, hok⟩ | herr
  · refine .inr ⟨_, hok, ?_, fun count hcount => ?_⟩
    · show io.queueDepth < io.inflight + _
      omega
    · -- the next round builds writes with more in flight than the queue depth
      change io.queueDepth + count < io.inflight + (buildReadSqe r.missedEntries + w + r.resubmits) at hcount
      have hlt : io.queueDepth < io.inflight + (buildReadSqe r.missedEntries + w + r.resubmits) - count := by
        omega
      simp only [IoLoop.round, IoLoop.reap]
      rw [buildSqe_of_lt hlt hwrite, Outcome.panic_bind]
  · exact .inl herr

/-- Seven reads that miss the cache, in seven segments. -/
def sevenMisses : Round :=
  ⟨[[⟨0, 4096⟩], [⟨4096, 4096⟩], [⟨8192, 4096⟩], [⟨12288, 4096⟩], [⟨16384, 4096⟩], [⟨20480, 4096⟩],
    [⟨24576, 4096⟩]], 0, false, [], 0, [], 0⟩

/-- A round with one write buffer to submit. -/
def oneWrite : Round := ⟨[], 0, true, [⟨0, 4096⟩], 0, [], 0⟩

theorem buildSqe_sevenMisses (queueDepth inflight : Nat) : buildSqe queueDepth inflight sevenMisses = .ok 7 := by
  have hreads : buildReadSqe sevenMisses.missedEntries = 7 := by
    simp [buildReadSqe, sevenMisses]
  have hw : (sevenMisses.released > 0 || sevenMisses.needWrite) = false := rfl
  simp only [buildSqe, hreads, hw, Bool.false_eq_true, if_false, Outcome.pure_eq, Outcome.ok_bind]
  rfl

/-- A queue depth of 6, which the kernel rounds up to 8 entries: the seven
reads go in flight, and the next round's write underflows the slot count. With
a queue depth of 4 the seven reads do not fit the submission queue. -/
theorem round_overruns_queue_depth_six :
    (⟨6, 8, 0⟩ : IoLoop).round sevenMisses = .ok ⟨6, 8, 7⟩ ∧
      ((⟨6, 8, 7⟩ : IoLoop).reap 0).round oneWrite = .panic ∧
      (⟨4, 4, 0⟩ : IoLoop).round sevenMisses = .error .ioUring := by
  have hround : (⟨6, 8, 0⟩ : IoLoop).round sevenMisses = .ok ⟨6, 8, 7⟩ := by
    simp only [IoLoop.round, buildSqe_sevenMisses, Outcome.ok_bind]
    rfl
  have hreads : buildReadSqe sevenMisses.missedEntries + sevenMisses.resubmits = 7 := by
    simp [buildReadSqe, sevenMisses]
  rcases round_overruns_queue_depth ⟨6, 8, 0⟩ sevenMisses oneWrite (by decide)
      (by rw [hreads]; decide) rfl with h | ⟨io', h, -, hpanic⟩
  · rw [hround] at h
    cases h
  · rw [hround] at h
    cases h
    refine ⟨hround, hpanic 0 (by decide), ?_⟩
    simp only [IoLoop.round, buildSqe_sevenMisses, Outcome.ok_bind]
    rfl

end ElasticStream.Store
