import Mathlib
import ElasticStream.Store.BufWriter

/-! # Reserving write buffers

Before it builds a round of SQEs, the IO loop calls
`IO::reserve_write_buffers` (store/src/io/uring.rs) so that the buffer writer
has room for the pending write tasks, each of `total_len()` bytes: the payload
and the 8-byte record prefix. When the room already reserved covers their
total, it returns at once. Otherwise it walks the tasks from the cursor's
place in its segment the way `build_sqe` will write them, counting the footer
that fills a segment when the next record does not fit: first against the
room already reserved, then in reservations that each stop at a segment's end.

The early return weighs the room against the records alone. When the records
cross a segment's end, `build_sqe` also writes a footer, and the writes run
out of room: the first that finds no reserved buffer fails with `OutOfMemory`
(`reserveWriteBuffers_misses_footer`). `build_sqe` drops the error of
`append_record`, and with it the task. -/

namespace ElasticStream.Store
open ElasticStream.Codec

/-- `WriteTask`, with the payload `buffer` only. -/
structure WriteTask where
  buffer : List UInt8
  deriving DecidableEq, Repr

/-- `total_len()`: the payload, CRC (4B), record size (3B) and type (1B). -/
def WriteTask.totalLen (task : WriteTask) : Nat := task.buffer.length + 4 + 3 + 1

/-- `IoTask`; a read task is not looked into here. -/
inductive IoTask where
  | read
  | write (task : WriteTask)
  deriving DecidableEq, Repr

/-- What the `debug_assert!` on each write task checks: its buffer is not empty. -/
def IoTask.nonEmpty : IoTask → Bool
  | .write task => !task.buffer.isEmpty
  | .read => true

namespace AlignedBufWriter

/-- The first loop of `reserve_write_buffers`: spend the room already
reserved, `allocated`, from `pos` in the segment. It stops when the room runs
out, or at the task it does not cover, whose shortfall goes to `toAllocate`,
and returns the writer, the position, the end of the reservations, what is
still to allocate and the tasks left. A turn takes a task or moves to the
next segment, and a task that fits in a segment with a footer needs one move
at most, so twice the number of tasks is enough fuel. -/
def spendAllocated (segmentSize : Nat) :
    Nat → AlignedBufWriter → Nat → Nat → Nat → Nat → List Nat →
      Outcome StoreError (AlignedBufWriter × Nat × Nat × Nat × List Nat)
  | 0, w, pos, maxAllocatedWalOffset, toAllocate, _, requirement =>
    pure (w, pos, maxAllocatedWalOffset, toAllocate, requirement)
  | fuel + 1, w, pos, maxAllocatedWalOffset, toAllocate, allocated, requirement =>
    match requirement with
    | [] => pure (w, pos, maxAllocatedWalOffset, toAllocate, [])
    | n :: rest =>
      if allocated > 0 then do
        Outcome.assert (pos + FOOTER_LENGTH ≤ segmentSize)
        if pos + n + FOOTER_LENGTH > segmentSize then
          -- the footer takes up the rest of the segment
          if allocated ≥ segmentSize - pos then
            spendAllocated segmentSize fuel w 0 maxAllocatedWalOffset toAllocate (allocated - (segmentSize - pos))
              (n :: rest)
          else
            let extra := segmentSize - pos - allocated
            let w ← w.reserveTo (maxAllocatedWalOffset + extra) segmentSize
            spendAllocated segmentSize fuel w 0 w.maxAllocatedWalOffset toAllocate 0 (n :: rest)
        else if allocated ≥ n then
          spendAllocated segmentSize fuel w (pos + n) maxAllocatedWalOffset toAllocate (allocated - n) rest
        else pure (w, pos + n, maxAllocatedWalOffset, toAllocate + (n - allocated), rest)
      else pure (w, pos, maxAllocatedWalOffset, toAllocate, n :: rest)

/-- The second loop: reserve for the tasks left, up to each segment end they
cross. It returns the writer, the end of the reservations and what is still
to allocate. -/
def allocateRest (segmentSize : Nat) :
    Nat → AlignedBufWriter → Nat → Nat → Nat → List Nat → Outcome StoreError (AlignedBufWriter × Nat × Nat)
  | 0, w, _, maxAllocatedWalOffset, toAllocate, _ => pure (w, maxAllocatedWalOffset, toAllocate)
  | fuel + 1, w, pos, maxAllocatedWalOffset, toAllocate, requirement =>
    match requirement with
    | [] => pure (w, maxAllocatedWalOffset, toAllocate)
    | n :: rest => do
      Outcome.assert (pos + FOOTER_LENGTH ≤ segmentSize)
      if pos + n + FOOTER_LENGTH > segmentSize then
        Outcome.assert (segmentSize - pos < n + FOOTER_LENGTH)
        let toAllocate := toAllocate + (segmentSize - pos)
        let w ← w.reserveTo (maxAllocatedWalOffset + toAllocate) segmentSize
        allocateRest segmentSize fuel w 0 w.maxAllocatedWalOffset 0 (n :: rest)
      else allocateRest segmentSize fuel w (pos + n) maxAllocatedWalOffset (toAllocate + n) rest

/-- `reserve_write_buffers`, with the pending data tasks and
`config.store.segment_size`; the writer's alignment is
`config.store.alignment`. -/
def reserveWriteBuffers (w : AlignedBufWriter) (segmentSize : Nat) (pending : List IoTask) :
    Outcome StoreError AlignedBufWriter := do
  Outcome.assert (∀ t ∈ pending, t.nonEmpty)
  let requirement := (pending.map fun t => match t with
    | .write task => task.totalLen
    | .read => 0).filter (0 < ·)
  let requiring := requirement.sum
  if w.remaining ≥ requiring then pure w
  else do
    -- `file_size % alignment` panics on a zero alignment
    Outcome.assert (w.alignment ≠ 0 ∧ segmentSize % w.alignment = 0)
    Outcome.assert (∀ n ∈ requirement, ¬ n + FOOTER_LENGTH > segmentSize)
    let pos := w.cursor % segmentSize
    let fuel := 2 * requirement.length + 1
    let (w, pos, maxAllocatedWalOffset, toAllocate, requirement) ←
      spendAllocated segmentSize fuel w pos w.maxAllocatedWalOffset 0 w.remaining requirement
    let (w, maxAllocatedWalOffset, toAllocate) ←
      allocateRest segmentSize fuel w pos maxAllocatedWalOffset toAllocate requirement
    if toAllocate > 0 then w.reserveTo (maxAllocatedWalOffset + toAllocate) segmentSize else pure w

/-- The writer calls `build_sqe` makes for the pending writes when every
segment it reaches is writable. At `pos` in a segment, a record that does not
fit with a footer after it comes after the footer, which fills the segment:
`append_footer` writes two words, then padding and two timestamps. Then
`append_record` writes two words and the payload. The words' values (CRCs,
lengths and types) do not reach the writer's accounting and are zero here. -/
def appendWrites (segmentSize : Nat) : Nat → List WriteTask → List (List UInt8)
  | _, [] => []
  | pos, task :: rest =>
    if pos + task.totalLen + FOOTER_LENGTH > segmentSize then
      [be32 0, be32 0, List.replicate (segmentSize - pos - RECORD_PREFIX_LENGTH) 0] ++
        [be32 0, be32 0, task.buffer] ++ appendWrites segmentSize task.totalLen rest
    else [be32 0, be32 0, task.buffer] ++ appendWrites segmentSize (pos + task.totalLen) rest

/-- The writes one after another, stopping at the first that fails. -/
def writeAll (w : AlignedBufWriter) (writes : List (List UInt8)) : Outcome StoreError AlignedBufWriter :=
  writes.foldlM (fun w data => w.write data) w

/-- **Writes past the room fail**: a run of writes whose total exceeds the
room ends in `OutOfMemory`. The induction is on the writes; each that fits
uses up its length of the room. -/
theorem writeAll_error : ∀ {w : AlignedBufWriter} {writes : List (List UInt8)}, w.Inv w.cursor →
    w.remaining < (writes.map List.length).sum → writeAll w writes = .error .outOfMemory
  | _, [], _, hlen => absurd hlen (Nat.not_lt_zero _)
  | w, data :: rest, h, hlen => by
    rw [writeAll, List.foldlM_cons]
    by_cases hbuf : w.current.isSome ∨ w.allocated ≠ []
    · by_cases hfit : data.length ≤ w.remaining
      · -- this write fits, and leaves less room than the rest needs
        obtain ⟨w', hw'⟩ := write_isOk h hfit hbuf
        obtain ⟨hinv, -, -, hrem, -⟩ := write_ok h hw'
        rw [hw', Outcome.ok_bind]
        exact writeAll_error hinv (by simp only [List.map_cons, List.sum_cons] at hlen; omega)
      · rw [write_error_of_lt h (Nat.lt_of_not_le hfit), Outcome.error_bind]
    · rw [write_of_no_buffer hbuf, Outcome.error_bind]

/-- The early return of `reserve_write_buffers`: when the reserved room covers
the records of the pending writes, nothing is reserved. -/
theorem reserveWriteBuffers_of_enough {w : AlignedBufWriter} (segmentSize : Nat) {tasks : List WriteTask}
    (hne : ∀ task ∈ tasks, task.buffer ≠ []) (hroom : (tasks.map WriteTask.totalLen).sum ≤ w.remaining) :
    w.reserveWriteBuffers segmentSize (tasks.map .write) = .ok w := by
  have hassert : ∀ t ∈ tasks.map IoTask.write, t.nonEmpty = true := by
    simp only [List.mem_map, forall_exists_index, and_imp]
    rintro _ task htask rfl
    simpa [IoTask.nonEmpty] using hne task htask
  have hreq : ((tasks.map IoTask.write).map fun t => match t with
      | .write task => task.totalLen
      | .read => 0).filter (0 < ·) = tasks.map WriteTask.totalLen := by
    rw [List.map_map]
    exact List.filter_eq_self.mpr fun n hn => by
      obtain ⟨task, -, rfl⟩ := List.mem_map.mp hn
      simp [WriteTask.totalLen]
  unfold reserveWriteBuffers
  rw [Outcome.assert_of_true hassert, Outcome.ok_bind]
  dsimp only
  rw [hreq, if_pos hroom]
  rfl

/-- **`reserve_write_buffers` forgets the footer.** From any writer state that
keeps the representation invariant, when the room reserved covers the records
of the pending writes but not the footer `build_sqe` writes before the first
record that crosses its segment's end, `reserve_write_buffers` reserves
nothing, and `build_sqe`'s writes fail with `OutOfMemory`. -/
theorem reserveWriteBuffers_misses_footer {w : AlignedBufWriter} (h : w.Inv w.cursor) (segmentSize : Nat)
    {tasks : List WriteTask} (hne : ∀ task ∈ tasks, task.buffer ≠ [])
    (hroom : (tasks.map WriteTask.totalLen).sum ≤ w.remaining)
    (hcross : w.remaining < ((appendWrites segmentSize (w.cursor % segmentSize) tasks).map List.length).sum) :
    w.reserveWriteBuffers segmentSize (tasks.map .write) = .ok w ∧
      writeAll w (appendWrites segmentSize (w.cursor % segmentSize) tasks) = .error .outOfMemory :=
  ⟨reserveWriteBuffers_of_enough segmentSize hne hroom, writeAll_error h hcross⟩

/-- The writer `IO::recover` leaves after rebasing onto a last page of 8 bytes
at 32, with 32-byte blocks: 24 bytes of room, to the end of the first 64-byte
segment. -/
def recoveredWriter : AlignedBufWriter := ⟨40, 32, [], some ⟨32, List.replicate 8 0, 32⟩, [], false⟩

theorem reachable_recoveredWriter : recoveredWriter.Reachable :=
  (Trace.Reachable.of_init ⟨0, 32, rfl⟩).tail (.rebase ⟨32, List.replicate 8 0, 32⟩ (by decide) rfl)

/-- A write task of 2 bytes, 10 with its prefix: within the 24 bytes of room,
but not in the segment with a 24-byte footer after it. -/
def crossingTask : WriteTask := ⟨[1, 2]⟩

theorem recovered_writer_out_of_memory :
    recoveredWriter.Inv recoveredWriter.cursor ∧ (∀ task ∈ [crossingTask], task.buffer ≠ []) ∧
      ([crossingTask].map WriteTask.totalLen).sum ≤ recoveredWriter.remaining ∧
      recoveredWriter.remaining <
        ((appendWrites 64 (recoveredWriter.cursor % 64) [crossingTask]).map List.length).sum ∧
      (recoveredWriter.reserveWriteBuffers 64 ([crossingTask].map .write) = .ok recoveredWriter ∧
        writeAll recoveredWriter (appendWrites 64 (recoveredWriter.cursor % 64) [crossingTask]) =
          .error .outOfMemory) :=
  ⟨reachable_recoveredWriter.inv, by decide, by decide, by decide,
    reserveWriteBuffers_misses_footer reachable_recoveredWriter.inv 64 (by decide) (by decide) (by decide)⟩

end AlignedBufWriter

end ElasticStream.Store
