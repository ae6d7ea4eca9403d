import Mathlib
import ElasticStream.Model.RecordBatch
import ElasticStream.Model.MetaLayout
import ElasticStream.Replication.RecordsBlock
import ElasticStream.ObjectStorage.Bound

/-! # Offloading a range to object storage

`RangeOffload` (object-storage/src/range_offload.rs) writes the record batches
of a range into objects: the data, the delimiter byte, a sparse index and a
48-byte footer. A payload at least `object_size` long becomes an object of its
own (`Object::write0`). A smaller one opens a multi-part object, which takes
the payloads that follow as its parts until it is full or flushed
(`MultiPartObject`). Its write loop runs as a task that receives the parts over
a channel; the loop keeps no state but its variables and receives the events in
the order they were sent, so here each event is received as it is sent.

`gen_sparse_index` walks the batches of a payload. After `sparse_size` bytes
that it passed without a mark, it marks the next batch with the offset the
batch ends at, relative to the object's start, and the position the batch
starts at. For a payload of whole batches whose offsets continue one another,
it writes the entries of `sparseEntries`, which mark batches of the data
(`sparseEntries_sublist`): an object written whole is described by its
metadata and index (`writeObject_describes`), and `find_bound` then reads it
right. The position, though, counts from the start of the payload. A
multi-part object concatenates the indexes of its parts as they are, so the
marks of every part after the first point into the parts before it. -/

namespace ElasticStream.ObjectStorage

open ElasticStream.Codec ElasticStream.Model

/-- `SPARSE_SIZE`. -/
def SPARSE_SIZE : Nat := 16 * 1024 * 1024

/-- `BLOCK_DELIMITER`. -/
def BLOCK_DELIMITER : UInt8 := 0x66

/-- `FOOTER_MAGIC`. -/
def FOOTER_MAGIC : Nat := 0x88e241b785f4cff7

/-- `gen_footer`: the position of the sparse index (`data_len + 1`, a `u32`
sum), its length, padding and the magic. -/
def genFooter {ε : Type} (dataLen indexLen : Nat) : Outcome ε (List UInt8) := do
  let indexPosition ← Outcome.add (2 ^ 32) dataLen 1
  pure (be32 (UInt32.ofNat indexPosition) ++ be32 (UInt32.ofNat indexLen) ++ List.replicate 32 0 ++ be64 FOOTER_MAGIC)

/-- A sparse-index entry as `put_u32` writes it: the relative end offset, then
the position. -/
def SparseEntry.bytes (e : SparseEntry) : List UInt8 := be32 (UInt32.ofNat e.endDelta) ++ be32 (UInt32.ofNat e.position)

/-- The variables of the loop of `gen_sparse_index`. -/
structure IndexLoop where
  cursor : Cursor
  sparseIndex : List UInt8
  passThroughSize : Nat
  recordPosition : Nat
  lastRecordSize : Nat
  deriving DecidableEq, Repr

section
variable (c : MetaCodec)

/-- `base_offset as u64 + last_offset_delta as u64`: the `i32` widens with its
sign, as it does to `usize`, and the sum panics on overflow. -/
def recordEndOffset (metadata : RecordBatchMeta) : Outcome DecodeError Nat :=
  Outcome.add (2 ^ 64) metadata.baseOffset.toUInt64.toNat (asUsize metadata.lastOffsetDelta)

/-- The entry of a batch the loop marks, from its metadata: the offset it ends
at less the object's start (a `u64` difference), and its position. -/
def markRecord (startOffset recordPosition : Nat) (metadataSlice : List UInt8) : Outcome DecodeError SparseEntry :=
  match c.root metadataSlice with
  | none => .error .flatbuffer
  | some metadata => do
    let recordEndOffset ← recordEndOffset metadata
    let endDelta ← Outcome.sub recordEndOffset startOffset
    pure ⟨endDelta, recordPosition⟩

namespace IndexLoop

/-- The metadata of a batch: read, with the batch's entry added to the index,
when the batch is marked; skipped otherwise. -/
def passMetadata (startOffset recordPosition : Nat) (recordSparseIndex : Bool) (sparseIndex : List UInt8)
    (cursor : Cursor) (metadataLen : Nat) : Outcome DecodeError (List UInt8 × Cursor) :=
  if recordSparseIndex then do
    let (metadataSlice, cursor) ← cursor.take metadataLen
    let entry ← markRecord c startOffset recordPosition metadataSlice
    pure (sparseIndex ++ entry.bytes, cursor)
  else do
    let cursor ← cursor.advance metadataLen
    pure (sparseIndex, cursor)

/-- The pass-through size after a batch: back to 0 after a mark, else grown by
the batch's size (a `u32` sum). -/
def passThrough {ε : Type} (recordSparseIndex : Bool) (passThroughSize lastRecordSize : Nat) : Outcome ε Nat :=
  if recordSparseIndex then pure 0 else Outcome.add (2 ^ 32) passThroughSize lastRecordSize

/-- One turn of the loop of `gen_sparse_index`; `none` when the payload is used up. -/
def step (startOffset sparseSize : Nat) (st : IndexLoop) : Outcome DecodeError (Option IndexLoop) :=
  if st.cursor.remaining = 0 then pure none else do
  if st.cursor.remaining < 9 then .error .dataLengthMismatch else
  let (magicCode, cursor) ← st.cursor.getI8
  if magicCode ≠ RecordMagic.magic0 then .error .invalidMagic else
  let (metadataLen, cursor) ← cursor.getI32
  let metadataLen := asUsize metadataLen
  if cursor.remaining < metadataLen then .error .dataLengthMismatch else
  let recordPosition ← Outcome.add (2 ^ 32) st.recordPosition st.lastRecordSize
  let recordSparseIndex := decide (sparseSize ≤ st.passThroughSize)
  let (sparseIndex, cursor) ←
    passMetadata c startOffset recordPosition recordSparseIndex st.sparseIndex cursor metadataLen
  let (payloadLen, cursor) ← cursor.getI32
  let payloadLen := asUsize payloadLen
  if cursor.remaining < payloadLen then .error .dataLengthMismatch else
  let cursor ← cursor.advance payloadLen
  let lastRecordSize := (9 + metadataLen + payloadLen) % 2 ^ 32
  let passThroughSize ← passThrough recordSparseIndex st.passThroughSize lastRecordSize
  pure (some ⟨cursor, sparseIndex, passThroughSize, recordPosition, lastRecordSize⟩)

end IndexLoop

/-! ## The loop ends -/

section Remaining

variable {c₀ c₁ : Cursor} {n : Nat}

theorem remaining_le_of_take {xs : List UInt8} (h : c₀.take n = some (xs, c₁)) : c₁.remaining ≤ c₀.remaining := by
  obtain ⟨hrest, -, -⟩ := Cursor.take_eq_some h
  simp only [Cursor.remaining, hrest, List.length_append]
  omega

theorem remaining_le_of_advance (h : c₀.advance n = some c₁) : c₁.remaining ≤ c₀.remaining := by
  obtain ⟨xs, hrest, -, -⟩ := Cursor.advance_eq_some h
  simp only [Cursor.remaining, hrest, List.length_append]
  omega

theorem remaining_lt_of_getI8 {x : Int8} (h : c₀.getI8 = some (x, c₁)) : c₁.remaining < c₀.remaining := by
  obtain ⟨b, -, hrest, -⟩ := Cursor.getI8_eq_some h
  simp [Cursor.remaining, hrest]

theorem remaining_le_of_getI32 {x : Int32} (h : c₀.getI32 = some (x, c₁)) : c₁.remaining ≤ c₀.remaining := by
  obtain ⟨w, -, hrest, -⟩ := Cursor.getI32_eq_some h
  simp only [Cursor.remaining, hrest, List.length_append]
  omega

end Remaining

theorem IndexLoop.remaining_le_of_passMetadata {startOffset recordPosition metadataLen : Nat} {mark : Bool}
    {sparseIndex idx : List UInt8} {cursor c₃ : Cursor}
    (h : IndexLoop.passMetadata c startOffset recordPosition mark sparseIndex cursor metadataLen = .ok (idx, c₃)) :
    c₃.remaining ≤ cursor.remaining := by
  unfold IndexLoop.passMetadata at h
  split_ifs at h
  · obtain ⟨⟨slice, c'⟩, h', h⟩ := Outcome.bind_eq_ok.mp h
    obtain ⟨e, -, h⟩ := Outcome.bind_eq_ok.mp h
    simp only [Outcome.pure_eq, Outcome.ok.injEq, Prod.mk.injEq] at h
    rw [← h.2]
    exact remaining_le_of_take (Outcome.liftM_eq_ok.mp h')
  · obtain ⟨c', h', h⟩ := Outcome.bind_eq_ok.mp h
    simp only [Outcome.pure_eq, Outcome.ok.injEq, Prod.mk.injEq] at h
    rw [← h.2]
    exact remaining_le_of_advance (Outcome.liftM_eq_ok.mp h')

/-- Each turn that goes on reads at least the magic byte. -/
theorem IndexLoop.remaining_lt_of_step {startOffset sparseSize : Nat} {st st' : IndexLoop}
    (h : st.step c startOffset sparseSize = .ok (some st')) : st'.cursor.remaining < st.cursor.remaining := by
  unfold IndexLoop.step at h
  split_ifs at h with h0 h9
  · simp at h
  obtain ⟨⟨magic, c₁⟩, h₁, h⟩ := Outcome.bind_eq_ok.mp h
  have hlt₁ := remaining_lt_of_getI8 (Outcome.liftM_eq_ok.mp h₁)
  dsimp only at h
  split_ifs at h with hmagic
  obtain ⟨⟨lenM, c₂⟩, h₂, h⟩ := Outcome.bind_eq_ok.mp h
  have hle₂ := remaining_le_of_getI32 (Outcome.liftM_eq_ok.mp h₂)
  dsimp only at h
  split_ifs at h with hshort
  obtain ⟨rp, -, h⟩ := Outcome.bind_eq_ok.mp h
  obtain ⟨⟨idx, c₃⟩, h₃, h⟩ := Outcome.bind_eq_ok.mp h
  have hle₃ := IndexLoop.remaining_le_of_passMetadata c h₃
  dsimp only at h
  obtain ⟨⟨lenP, c₄⟩, h₄, h⟩ := Outcome.bind_eq_ok.mp h
  have hle₄ := remaining_le_of_getI32 (Outcome.liftM_eq_ok.mp h₄)
  dsimp only at h
  split_ifs at h with hshortP
  obtain ⟨c₅, h₅, h⟩ := Outcome.bind_eq_ok.mp h
  have hle₅ := remaining_le_of_advance (Outcome.liftM_eq_ok.mp h₅)
  obtain ⟨p, -, h⟩ := Outcome.bind_eq_ok.mp h
  simp only [Outcome.pure_eq, Outcome.ok.injEq, Option.some.injEq] at h
  rw [← h]
  show c₅.remaining < st.cursor.remaining
  omega

/-- The loop of `gen_sparse_index`, until the payload is used up. -/
def IndexLoop.run (startOffset sparseSize : Nat) (st : IndexLoop) : Outcome DecodeError IndexLoop :=
  match h : st.step c startOffset sparseSize with
  | .ok none => pure st
  | .ok (some st') =>
    have _hlt := IndexLoop.remaining_lt_of_step c h
    IndexLoop.run startOffset sparseSize st'
  | .error e => .error e
  | .panic => .panic
termination_by st.cursor.remaining
decreasing_by exact _hlt

theorem IndexLoop.run_of_none {startOffset sparseSize : Nat} {st : IndexLoop}
    (h : st.step c startOffset sparseSize = .ok none) : st.run c startOffset sparseSize = .ok st := by
  rw [IndexLoop.run]
  split <;> simp_all

theorem IndexLoop.run_of_some {startOffset sparseSize : Nat} {st st' : IndexLoop}
    (h : st.step c startOffset sparseSize = .ok (some st')) :
    st.run c startOffset sparseSize = st'.run c startOffset sparseSize := by
  rw [IndexLoop.run]
  split
  · simp_all
  · rename_i st'' h'
    rw [h] at h'
    simp only [Outcome.ok.injEq, Option.some.injEq] at h'
    subst h'
    rfl
  all_goals simp_all

/-- `gen_sparse_index`: the sparse index of `payload`, the end offset of its
last batch, read again from that batch's metadata at `record_position + 1`,
and the pass-through size left for the next payload. -/
def genSparseIndex (startOffset : Nat) (payload : List (List UInt8)) (initPassThroughSize sparseSize : Nat) :
    Outcome DecodeError (List UInt8 × Nat × Nat) := do
  let payload := payload.flatten
  let st ← IndexLoop.run c startOffset sparseSize ⟨Cursor.new payload, [], initPassThroughSize, 0, 0⟩
  let skip ← Outcome.add (2 ^ 32) st.recordPosition 1
  let cursor ← (Cursor.new payload).advance skip
  let (metadataLen, cursor) ← cursor.getI32
  let (metadataSlice, _) ← cursor.take (asUsize metadataLen)
  match c.root metadataSlice with
  | none => .error .flatbuffer
  | some metadata => do
    let endOffset ← recordEndOffset metadata
    pure (st.sparseIndex, endOffset, st.passThroughSize)

/-! ## The writers -/

/-- An object as it is stored, and the metadata committed for it. -/
structure Committed where
  metadata : ObjectMetadata
  bytes : List UInt8
  deriving DecidableEq, Repr

/-- `Object::write0`: the end offset it returns, and the object its task
writes and commits. A payload that does not parse panics the caller; a panic
in the task (the `u64` difference of the end offsets, or the footer's `u32`
sum) loses the object, and the caller still gets the end offset. -/
def writeObject (metadata : ObjectMetadata) (payload : List (List UInt8)) (sparseSize : Nat) :
    Outcome Empty (Nat × Option Committed) :=
  match genSparseIndex c metadata.startOffset payload 0 sparseSize with
  | .ok (sparseIndex, endOffset, _) =>
    let task : Outcome Empty Committed := do
      let endOffsetDelta ← Outcome.sub endOffset metadata.startOffset
      let payloadLength := (payload.map List.length).sum
      let footer ← genFooter (payloadLength % 2 ^ 32) (sparseIndex.length % 2 ^ 32)
      pure ⟨{ metadata with endOffsetDelta := endOffsetDelta % 2 ^ 32, dataLen := payloadLength % 2 ^ 32 },
        payload.flatten ++ [BLOCK_DELIMITER] ++ sparseIndex ++ footer⟩
    match task with
    | .ok committed => pure (endOffset, some committed)
    | _ => pure (endOffset, none)
  | _ => .panic

/-- `MultiPartObject`: the side that sends the parts. -/
structure MultiPartObject where
  startOffset : Nat
  objectSize : Nat
  size : Nat
  lastPassThroughSize : Nat
  deriving DecidableEq, Repr

/-- `MultiPartWriteEvent`, without its completion sender. -/
structure WriteEvent where
  data : List (List UInt8)
  index : List UInt8
  endOffset : Nat
  deriving DecidableEq, Repr

namespace MultiPartObject

def new (startOffset objectSize : Nat) : MultiPartObject := ⟨startOffset, objectSize, 0, 0⟩

/-- `MultiPartObject::write`: the event sent to the write loop, whether the
object is full, and the end offset of the part. The part's index carries on
the pass-through size of the parts before it. -/
def write (self : MultiPartObject) (part : List (List UInt8)) :
    Outcome Empty (MultiPartObject × WriteEvent × Bool × Nat) := do
  let partLength := (part.map List.length).sum
  let size ← Outcome.add (2 ^ 32) self.size (partLength % 2 ^ 32)
  match genSparseIndex c self.startOffset part self.lastPassThroughSize SPARSE_SIZE with
  | .ok (index, newEndOffset, remainPassThroughSize) =>
    pure ({ self with size, lastPassThroughSize := remainPassThroughSize }, ⟨part, index, newEndOffset⟩,
      decide (self.objectSize ≤ size), newEndOffset)
  | _ => .panic

/-- `MultiPartObject::close`: the event with no data. -/
def closeEvent : WriteEvent := ⟨[], [], 0⟩

end MultiPartObject

/-- The variables of the task of `write_loop`: the metadata it commits, the
data length and end offset so far, the sparse index gathered and the bytes
written. -/
structure WriteLoop where
  metadata : ObjectMetadata
  dataLen : Nat
  endOffset : Nat
  sparseIndex : List UInt8
  written : List UInt8
  deriving DecidableEq, Repr

namespace WriteLoop

def new (metadata : ObjectMetadata) : WriteLoop := ⟨metadata, 0, metadata.startOffset, [], []⟩

/-- One event of the loop. Any event with no data closes the object: the
loop writes the delimiter, the index and the footer, completes the object,
commits it and ends. -/
def recv (w : WriteLoop) (event : WriteEvent) : Outcome Empty (WriteLoop ⊕ Committed) := do
  let sparseIndex := w.sparseIndex ++ event.index
  let endOffset := max w.endOffset event.endOffset
  let bytes := event.data.flatten
  let dataLen := w.dataLen + bytes.length
  if bytes.isEmpty then do
    let footer ← genFooter (dataLen % 2 ^ 32) (sparseIndex.length % 2 ^ 32)
    let endOffsetDelta ← Outcome.sub endOffset w.metadata.startOffset
    pure (.inr ⟨{ w.metadata with endOffsetDelta := endOffsetDelta % 2 ^ 32, dataLen := dataLen % 2 ^ 32 },
      w.written ++ [BLOCK_DELIMITER] ++ sparseIndex ++ footer⟩)
  else pure (.inl ⟨w.metadata, dataLen, endOffset, sparseIndex, w.written ++ bytes⟩)

end WriteLoop

/-- An event sent to the write loop, if its task still runs: the loop after
it, and the object it committed. -/
def deliver (loop : Option WriteLoop) (event : WriteEvent) : Outcome Empty (Option WriteLoop × List Committed) :=
  match loop with
  | none => pure (none, [])
  | some w => do
    match ← w.recv event with
    | .inl w => pure (some w, [])
    | .inr committed => pure (none, [committed])

/-- `RangeOffload`: the epoch and object size of the range, and the open
multi-part object with its write loop. -/
structure RangeOffload where
  epoch : Nat
  objectSize : Nat
  multiPartObject : Option (MultiPartObject × Option WriteLoop)
  deriving DecidableEq, Repr

namespace RangeOffload

/-- `RangeOffload::write`: the state after, the objects committed, and the
end offset returned. -/
def write (self : RangeOffload) (startOffset : Nat) (payload : List (List UInt8)) :
    Outcome Empty (RangeOffload × List Committed × Nat) :=
  let payloadLength := (payload.map List.length).sum % 2 ^ 32
  match self.multiPartObject with
  | some (obj, loop) => do
    -- the open multi-part object takes the payload, whatever `startOffset` says
    let (obj, event, objectFull, endOffset) ← obj.write c payload
    let (loop, committed) ← deliver loop event
    if objectFull then do
      let (_, closed) ← deliver loop MultiPartObject.closeEvent
      pure ({ self with multiPartObject := none }, committed ++ closed, endOffset)
    else pure ({ self with multiPartObject := some (obj, loop) }, committed, endOffset)
  | none =>
    let metadata : ObjectMetadata := ⟨self.epoch, startOffset, 0, 0⟩
    if self.objectSize ≤ payloadLength then do
      let (endOffset, committed) ← writeObject c metadata payload SPARSE_SIZE
      pure (self, committed.toList, endOffset)
    else do
      let (obj, event, _, endOffset) ← (MultiPartObject.new startOffset self.objectSize).write c payload
      let (loop, committed) ← deliver (some (WriteLoop.new metadata)) event
      pure ({ self with multiPartObject := some (obj, loop) }, committed, endOffset)

/-- `trigger_flush` and `flush`: the open multi-part object is closed; `flush`
also waits for its commit. -/
def flush (self : RangeOffload) : Outcome Empty (RangeOffload × List Committed) :=
  match self.multiPartObject with
  | none => pure (self, [])
  | some (_, loop) => do
    let (_, committed) ← deliver loop MultiPartObject.closeEvent
    pure ({ self with multiPartObject := none }, committed)

end RangeOffload

end

/-! ## The index a payload of batches gets -/

section Entries

variable (sparseSize : Nat)

/-- The pass-through size after the batches `bs`, from `pass`. -/
def passAfter : List Batch → Nat → Nat
  | [], pass => pass
  | b :: bs, pass => passAfter bs (if sparseSize ≤ pass then 0 else pass + b.len)

/-- The entries the index gets for the batches `bs` laid out from the offset
`baseDelta` (past the object's start) and the byte `position`, when `pass`
bytes were passed without a mark before them: a batch is marked once
`sparseSize` bytes passed, with the offset it ends at and its position. -/
def sparseEntries : List Batch → Nat → Nat → Nat → List SparseEntry
  | [], _, _, _ => []
  | b :: bs, baseDelta, position, pass =>
    let rest := sparseEntries bs (baseDelta + b.delta) (position + b.len) (if sparseSize ≤ pass then 0 else pass + b.len)
    if sparseSize ≤ pass then ⟨baseDelta + b.delta, position⟩ :: rest else rest

variable {sparseSize}

/-- The marks are marks of batches of the data, in its order. -/
theorem sparseEntries_sublist (bs : List Batch) (baseDelta position pass : Nat) :
    (sparseEntries sparseSize bs baseDelta position pass).Sublist ((spans bs baseDelta position).map Span.entry) := by
  induction bs generalizing baseDelta position pass with
  | nil => simp [sparseEntries, spans]
  | cons b bs ih =>
    by_cases hmark : sparseSize ≤ pass
    · have hrest := ih (baseDelta + b.delta) (position + b.len) 0
      simp only [sparseEntries, spans, List.map_cons, Span.entry, if_pos hmark]
      exact hrest.cons_cons _
    · have hrest := ih (baseDelta + b.delta) (position + b.len) (pass + b.len)
      simp only [sparseEntries, spans, List.map_cons, Span.entry, if_neg hmark]
      exact hrest.cons _

/-- The entries of two runs of batches are those of the first, then those of
the second from where the first ends. -/
theorem sparseEntries_append (bs bs' : List Batch) (baseDelta position pass : Nat) :
    sparseEntries sparseSize (bs ++ bs') baseDelta position pass =
      sparseEntries sparseSize bs baseDelta position pass ++
        sparseEntries sparseSize bs' (baseDelta + (bs.map Batch.delta).sum) (position + (bs.map Batch.len).sum)
          (passAfter sparseSize bs pass) := by
  induction bs generalizing baseDelta position pass with
  | nil => simp [sparseEntries, passAfter]
  | cons b bs ih =>
    simp only [List.cons_append, sparseEntries, ih, passAfter, List.map_cons, List.sum_cons, Nat.add_assoc]
    split_ifs <;> rfl

theorem sparseEntries_cons (b : Batch) (bs : List Batch) (baseDelta position pass : Nat) :
    sparseEntries sparseSize (b :: bs) baseDelta position pass =
      sparseEntries sparseSize [b] baseDelta position pass ++
        sparseEntries sparseSize bs (baseDelta + b.delta) (position + b.len) (passAfter sparseSize [b] pass) := by
  simpa using sparseEntries_append [b] bs baseDelta position pass

/-- Laying the batches out `q` bytes further moves every mark by `q`. -/
theorem sparseEntries_shift (bs : List Batch) (baseDelta position pass q : Nat) :
    sparseEntries sparseSize bs baseDelta (position + q) pass =
      (sparseEntries sparseSize bs baseDelta position pass).map fun e => ⟨e.endDelta, e.position + q⟩ := by
  induction bs generalizing baseDelta position pass with
  | nil => rfl
  | cons b bs ih =>
    have hq : position + q + b.len = position + b.len + q := by omega
    simp only [sparseEntries, hq, ih]
    split_ifs <;> simp

theorem passAfter_le (bs : List Batch) (pass : Nat) :
    passAfter sparseSize bs pass ≤ pass + (bs.map Batch.len).sum := by
  induction bs generalizing pass with
  | nil => exact le_refl _
  | cons b bs ih =>
    have := ih (if sparseSize ≤ pass then 0 else pass + b.len)
    simp only [passAfter, List.map_cons, List.sum_cons]
    split_ifs at this ⊢ <;> omega

theorem spans_append (bs bs' : List Batch) (baseDelta position : Nat) :
    spans (bs ++ bs') baseDelta position =
      spans bs baseDelta position ++
        spans bs' (baseDelta + (bs.map Batch.delta).sum) (position + (bs.map Batch.len).sum) := by
  induction bs generalizing baseDelta position with
  | nil => simp [spans]
  | cons b bs ih => simp [spans, ih, Nat.add_assoc]

theorem spans_shift (bs : List Batch) (baseDelta position q : Nat) :
    spans bs baseDelta (position + q) =
      (spans bs baseDelta position).map fun s => ⟨s.baseDelta, s.endDelta, s.position + q⟩ := by
  induction bs generalizing baseDelta position with
  | nil => rfl
  | cons b bs ih =>
    have hq : position + q + b.len = position + b.len + q := by omega
    simp only [spans, hq, ih, List.map_cons]

theorem baseDelta_lt_endDelta {bs : List Batch} (hdelta : ∀ b ∈ bs, 0 < b.delta) {baseDelta position : Nat}
    {s : Span} (hs : s ∈ spans bs baseDelta position) : s.baseDelta < s.endDelta := by
  induction bs generalizing baseDelta position with
  | nil => simp [spans] at hs
  | cons b bs ih =>
    rcases List.mem_cons.mp hs with rfl | hs
    · have := hdelta b List.mem_cons_self
      show baseDelta < baseDelta + b.delta
      omega
    · exact ih (fun b' hb' => hdelta b' (List.mem_cons_of_mem _ hb')) hs

/-- Batches that each hold an offset end at distinct offsets. -/
theorem span_eq_of_endDelta_eq {bs : List Batch} (hdelta : ∀ b ∈ bs, 0 < b.delta) {baseDelta position : Nat}
    {s s' : Span} (hs : s ∈ spans bs baseDelta position) (hs' : s' ∈ spans bs baseDelta position)
    (h : s.endDelta = s'.endDelta) : s = s' := by
  have hlt := baseDelta_lt_endDelta hdelta hs
  have hlt' := baseDelta_lt_endDelta hdelta hs'
  rcases Order.eq_or_rel_of_mem (spans_pairwise bs baseDelta position) hs hs' with heq | hle | hle
  · exact heq
  · omega
  · omega

/-- A mark lies `sparseSize` bytes past the start of the batches at least,
less what passed before them unmarked. -/
theorem le_position_of_mem_sparseEntries (bs : List Batch) (baseDelta position pass : Nat) :
    ∀ e ∈ sparseEntries sparseSize bs baseDelta position pass, position + sparseSize ≤ e.position + pass := by
  induction bs generalizing baseDelta position pass with
  | nil => simp [sparseEntries]
  | cons b bs ih =>
    intro e he
    by_cases hmark : sparseSize ≤ pass
    · simp only [sparseEntries, if_pos hmark, List.mem_cons] at he
      rcases he with rfl | he
      · -- the batch itself is marked
        show position + sparseSize ≤ position + pass
        omega
      · -- the marks after it count from 0 again, past the batch
        have := ih (baseDelta + b.delta) (position + b.len) 0 e he
        omega
    · simp only [sparseEntries, if_neg hmark] at he
      have := ih (baseDelta + b.delta) (position + b.len) (pass + b.len) e he
      omega

/-- **The marks are sparse**: each lies `sparseSize` bytes past the one
before it at least. -/
theorem sparseEntries_spaced (bs : List Batch) (baseDelta position pass : Nat) :
    (sparseEntries sparseSize bs baseDelta position pass).Pairwise
      fun a b => a.position + sparseSize ≤ b.position := by
  induction bs generalizing baseDelta position pass with
  | nil => simp [sparseEntries]
  | cons b bs ih =>
    by_cases hmark : sparseSize ≤ pass
    · simp only [sparseEntries, if_pos hmark]
      refine List.Pairwise.cons (fun e he => ?_) (ih _ _ _)
      have := le_position_of_mem_sparseEntries bs (baseDelta + b.delta) (position + b.len) 0 e he
      show position + sparseSize ≤ e.position
      omega
    · simp only [sparseEntries, if_neg hmark]
      exact ih _ _ _

/-- Marks made for batches laid out after `bs₁` but counted from byte 0
name no batch: the batch that ends at the offset of such a mark starts
`Σ len bs₁` bytes further on. -/
theorem sparseEntries_misplaced {bs₁ bs₂ : List Batch} (hdelta : ∀ b ∈ bs₁ ++ bs₂, 0 < b.delta)
    (hlen : 0 < (bs₁.map Batch.len).sum) (pass : Nat) :
    ∀ e ∈ sparseEntries sparseSize bs₂ (bs₁.map Batch.delta).sum 0 pass,
      (⟨e.endDelta, e.position + (bs₁.map Batch.len).sum⟩ : SparseEntry) ∈ (spans (bs₁ ++ bs₂) 0 0).map Span.entry ∧
        e ∉ (spans (bs₁ ++ bs₂) 0 0).map Span.entry := by
  intro e he
  obtain ⟨s, hs, rfl⟩ := List.mem_map.mp ((sparseEntries_sublist _ _ _ _).subset he)
  -- the span of the batch in the whole data, laid out after the first run
  have hsplit : spans (bs₁ ++ bs₂) 0 0 = spans bs₁ 0 0 ++
      (spans bs₂ (bs₁.map Batch.delta).sum 0).map fun s => ⟨s.baseDelta, s.endDelta, s.position + (bs₁.map Batch.len).sum⟩ := by
    rw [spans_append, ← spans_shift]
    simp
  have hshifted : (⟨s.baseDelta, s.endDelta, s.position + (bs₁.map Batch.len).sum⟩ : Span) ∈ spans (bs₁ ++ bs₂) 0 0 := by
    rw [hsplit]
    exact List.mem_append_right _ (List.mem_map_of_mem hs)
  refine ⟨List.mem_map.mpr ⟨_, hshifted, rfl⟩, ?_⟩
  rintro hmem
  obtain ⟨s', hs', hentry⟩ := List.mem_map.mp hmem
  simp only [Span.entry, SparseEntry.mk.injEq] at hentry
  have heq := span_eq_of_endDelta_eq hdelta hshifted hs' hentry.1.symm
  rw [← heq] at hentry
  have hpos : s.position + (bs₁.map Batch.len).sum = s.position := hentry.2
  omega

end Entries

/-- The position and size of the last batch the loop read, from the values
before the batches `bs`. -/
def lastRecord (recordPosition lastRecordSize : Nat) : List Batch → Nat × Nat
  | [] => (recordPosition, lastRecordSize)
  | b :: bs => lastRecord (recordPosition + lastRecordSize) b.len bs

theorem lastRecord_append_singleton (bs : List Batch) (b : Batch) (recordPosition lastRecordSize : Nat) :
    lastRecord recordPosition lastRecordSize (bs ++ [b]) =
      (recordPosition + lastRecordSize + (bs.map Batch.len).sum, b.len) := by
  induction bs generalizing recordPosition lastRecordSize with
  | nil => rfl
  | cons b' bs ih =>
    rw [List.cons_append, lastRecord, ih, List.map_cons, List.sum_cons]
    congr 1
    omega

/-- The batches continue one another from offset `base`: each starts at the
offset the one before ends at, and holds at least one offset. -/
def Continues : Nat → List RecordBatch → Prop
  | _, [] => True
  | base, r :: rs => r.metadata.baseOffset.toInt = base ∧ 0 < r.metadata.lastOffsetDelta.toInt ∧
      Continues (base + r.metadata.lastOffsetDelta.toInt.toNat) rs

/-! ## One batch at a time -/

/-- `as u64` of an offset that is not negative keeps its value. -/
theorem toNat_toUInt64_of_nonneg {x : Int64} (h : 0 ≤ x.toInt) : x.toUInt64.toNat = x.toInt.toNat := by
  have hb : x.toInt = x.toBitVec.toInt := rfl
  have hn : x.toUInt64.toNat = x.toBitVec.toNat := rfl
  have hlt := x.toBitVec.isLt
  rw [hb, BitVec.toInt_eq_toNat_cond] at h ⊢
  rw [hn]
  split_ifs at h ⊢
  · simp
  · push_cast at h
    omega

theorem asUsize_of_nonneg {x : Int32} (h : 0 ≤ x.toInt) : asUsize x = x.toInt.toNat := by
  have hlt := Int32.toInt_lt x
  unfold asUsize
  rw [Int.emod_eq_of_lt h (by omega)]

section
variable (c : MetaCodec)

theorem recordEndOffset_of_nonneg {m : RecordBatchMeta} (hb : 0 ≤ m.baseOffset.toInt) (hd : 0 ≤ m.lastOffsetDelta.toInt) :
    recordEndOffset m = .ok (m.baseOffset.toInt.toNat + m.lastOffsetDelta.toInt.toNat) := by
  have hb' := Int64.toInt_lt m.baseOffset
  have hd' := Int32.toInt_lt m.lastOffsetDelta
  unfold recordEndOffset
  rw [toNat_toUInt64_of_nonneg hb, asUsize_of_nonneg hd, Outcome.add_of_lt (by omega)]

namespace IndexLoop

theorem passMetadata_frame {M rest idx : List UInt8} {m : RecordBatchMeta} (hm : c.root M = some m)
    {startOffset recordPosition endOffset p : Nat} (hend : recordEndOffset m = .ok endOffset)
    (hstart : startOffset ≤ endOffset) (mark : Bool) :
    passMetadata c startOffset recordPosition mark idx ⟨M ++ rest, p⟩ M.length =
      .ok (if mark then idx ++ SparseEntry.bytes ⟨endOffset - startOffset, recordPosition⟩ else idx,
        ⟨rest, p + M.length⟩) := by
  cases mark
  · simp [passMetadata, Cursor.advance_append]
  · simp [passMetadata, Cursor.take_append, markRecord, hm, hend, Outcome.sub_of_le hstart]

theorem passThrough_of_lt {ε : Type} {pass len : Nat} (h : pass + len < 2 ^ 32) (mark : Bool) :
    (passThrough mark pass len : Outcome ε Nat) = .ok (if mark then 0 else pass + len) := by
  cases mark <;> simp only [passThrough, Bool.false_eq_true, if_false, if_true, Outcome.add_of_lt h, Outcome.pure_eq]

/-- **One turn over a whole batch.** The loop reads the batch, marks it when
`sparse_size` bytes passed, and stands at the next one; the batch's start is
the position reached. -/
theorem step_frame {M P t idx : List UInt8} {m : RecordBatchMeta} {x y : UInt32} (hm : c.root M = some m)
    (hx : asUsize x.toInt32 = M.length) (hy : asUsize y.toInt32 = P.length)
    {startOffset sparseSize pos pass rp lrs endOffset : Nat} (hend : recordEndOffset m = .ok endOffset)
    (hstart : startOffset ≤ endOffset) (hrp : rp + lrs < 2 ^ 32)
    (hpass : pass + (frame 0x22 x M y P).length < 2 ^ 32) :
    step c startOffset sparseSize ⟨⟨frame 0x22 x M y P ++ t, pos⟩, idx, pass, rp, lrs⟩ =
      .ok (some ⟨⟨t, pos + (frame 0x22 x M y P).length⟩,
        if sparseSize ≤ pass then idx ++ SparseEntry.bytes ⟨endOffset - startOffset, rp + lrs⟩ else idx,
        if sparseSize ≤ pass then 0 else pass + (frame 0x22 x M y P).length, rp + lrs,
        (frame 0x22 x M y P).length⟩) := by
  have hrec : 9 + M.length + P.length = (frame 0x22 x M y P).length := by
    simp only [length_frame, MIN_RECORD_BATCH_LEN]
  have hlen32 : (frame 0x22 x M y P).length % 2 ^ 32 = (frame 0x22 x M y P).length := Nat.mod_eq_of_lt (by omega)
  have hne : ¬ (0x22 :: (be32 x ++ (M ++ (be32 y ++ (P ++ t))))).length = 0 := by simp
  have hlen : ¬ (0x22 :: (be32 x ++ (M ++ (be32 y ++ (P ++ t))))).length < 9 := by simp; omega
  have hmeta : ¬ (M ++ (be32 y ++ (P ++ t))).length < M.length := by simp
  have hpayload : ¬ (P ++ t).length < P.length := by simp
  have hmark := @passMetadata_frame c M (be32 y ++ (P ++ t)) idx m hm startOffset (rp + lrs) endOffset (pos + 1 + 4)
    hend hstart (decide (sparseSize ≤ pass))
  have hframe : frame 0x22 x M y P ++ t = 0x22 :: (be32 x ++ (M ++ (be32 y ++ (P ++ t)))) := by
    simp [frame]
  have hpos : pos + 1 + 4 + M.length + 4 + P.length = pos + (frame 0x22 x M y P).length := by
    rw [← hrec]
    omega
  rw [hframe]
  simp only [step, Cursor.remaining_mk, if_neg hne, if_neg hlen, Cursor.getI8_cons, Outcome.liftM_some,
    Outcome.ok_bind, magic_toInt8, ne_eq, not_true_eq_false, if_false, Cursor.getI32_append, hx, hy, if_neg hmeta,
    Outcome.add_of_lt hrp, hmark, Cursor.advance_append rfl, if_neg hpayload, hrec, hlen32,
    passThrough_of_lt hpass, decide_eq_true_eq, hpos, Outcome.pure_eq]

end IndexLoop

/-- A batch as `find_bound` sees it: the offsets it holds and its bytes. -/
def batchOf (r : RecordBatch) : Batch := ⟨r.metadata.lastOffsetDelta.toInt.toNat, (encoded c r).length⟩

namespace IndexLoop

theorem step_encoded {r : RecordBatch} (hr : Fits c r) {base : Nat} (hbase : r.metadata.baseOffset.toInt = base)
    (hdelta : 0 ≤ r.metadata.lastOffsetDelta.toInt) {startOffset : Nat} (hstart : startOffset ≤ base)
    (sparseSize : Nat) {t idx : List UInt8} {pos pass rp lrs : Nat} (hrp : rp + lrs < 2 ^ 32)
    (hpass : pass + (encoded c r).length < 2 ^ 32) :
    step c startOffset sparseSize ⟨⟨encoded c r ++ t, pos⟩, idx, pass, rp, lrs⟩ =
      .ok (some ⟨⟨t, pos + (encoded c r).length⟩,
        idx ++ (sparseEntries sparseSize [batchOf c r] (base - startOffset) (rp + lrs) pass).flatMap SparseEntry.bytes,
        passAfter sparseSize [batchOf c r] pass, rp + lrs, (encoded c r).length⟩) := by
  unfold Fits at hr
  have hb : 0 ≤ r.metadata.baseOffset.toInt := by
    rw [hbase]
    exact Int.natCast_nonneg base
  have hend := recordEndOffset_of_nonneg hb hdelta
  rw [hbase, Int.toNat_natCast] at hend
  have henc : encoded c r = frame 0x22 (UInt32.ofNat (c.pack r.metadata).length) (c.pack r.metadata)
      (UInt32.ofNat r.payload.length) r.payload := FlatRecordBatch.flatten_encode_initFromStruct c r
  have hdiff : base + r.metadata.lastOffsetDelta.toInt.toNat - startOffset =
      base - startOffset + r.metadata.lastOffsetDelta.toInt.toNat := by omega
  rw [henc] at hpass ⊢
  rw [step_frame c (c.root_pack r.metadata) (asUsize_ofNat (by omega)) (asUsize_ofNat (by omega)) hend
    (by omega) hrp hpass]
  simp only [sparseEntries, passAfter, batchOf, henc, hdiff]
  split_ifs <;> simp

/-- **The loop over a payload of batches.** From any values of its variables,
the loop reads every batch, adds the entries of `sparseEntries` counted
from the position reached, and ends at the last batch. -/
theorem run_encoded {startOffset sparseSize : Nat} :
    ∀ {rs : List RecordBatch} {base pos pass rp lrs : Nat} {idx : List UInt8},
      (∀ r ∈ rs, Fits c r) → Continues base rs → startOffset ≤ base →
      rp + lrs + (rs.flatMap (encoded c)).length < 2 ^ 32 → pass + (rs.flatMap (encoded c)).length < 2 ^ 32 →
      run c startOffset sparseSize ⟨⟨rs.flatMap (encoded c), pos⟩, idx, pass, rp, lrs⟩ =
        .ok ⟨⟨[], pos + (rs.flatMap (encoded c)).length⟩,
          idx ++ (sparseEntries sparseSize (rs.map (batchOf c)) (base - startOffset) (rp + lrs) pass).flatMap
            SparseEntry.bytes,
          passAfter sparseSize (rs.map (batchOf c)) pass,
          (lastRecord rp lrs (rs.map (batchOf c))).1, (lastRecord rp lrs (rs.map (batchOf c))).2⟩
  | [], base, pos, pass, rp, lrs, idx, _, _, _, _, _ => by
    rw [run_of_none c (by simp [step])]
    simp [sparseEntries, passAfter, lastRecord]
  | r :: rs, base, pos, pass, rp, lrs, idx, hfits, hcont, hstart, hrp, hpass => by
    obtain ⟨hbase, hdelta, hrest⟩ := hcont
    have hlen : (List.flatMap (encoded c) (r :: rs)).length =
        (encoded c r).length + (rs.flatMap (encoded c)).length := by simp
    rw [hlen] at hrp hpass
    -- the next batch starts where this one ends, and the loop has counted this one's bytes
    have hnext : startOffset ≤ base + r.metadata.lastOffsetDelta.toInt.toNat := by omega
    have hdiff : base + r.metadata.lastOffsetDelta.toInt.toNat - startOffset =
        base - startOffset + (batchOf c r).delta := by simp only [batchOf]; omega
    have hpass' : passAfter sparseSize [batchOf c r] pass + (rs.flatMap (encoded c)).length < 2 ^ 32 := by
      simp only [passAfter, batchOf]
      split_ifs <;> omega
    rw [List.flatMap_cons, run_of_some c (step_encoded c (hfits r List.mem_cons_self) hbase hdelta.le hstart
      sparseSize (by omega) (by omega)),
      run_encoded (fun r' h' => hfits r' (List.mem_cons_of_mem _ h')) hrest hnext (by omega) hpass', hdiff,
      List.map_cons, sparseEntries_cons (batchOf c r) (rs.map (batchOf c))]
    simp only [List.length_append, List.flatMap_append, List.append_assoc, Nat.add_assoc]
    rfl

end IndexLoop

theorem continues_append {base : Nat} {rs rs' : List RecordBatch} :
    Continues base (rs ++ rs') ↔
      Continues base rs ∧ Continues (base + (rs.map fun r => r.metadata.lastOffsetDelta.toInt.toNat).sum) rs' := by
  induction rs generalizing base with
  | nil => simp [Continues]
  | cons r rs ih =>
    simp only [List.cons_append, Continues, ih, List.map_cons, List.sum_cons, Nat.add_assoc]
    tauto

/-- Every batch takes bytes, so a payload of batches is not empty. -/
theorem flatMap_encoded_ne_nil {rs : List RecordBatch} (hne : rs ≠ []) : rs.flatMap (encoded c) ≠ [] := by
  obtain ⟨r, rs', rfl⟩ := List.exists_cons_of_ne_nil hne
  simp [encoded, FlatRecordBatch.flatten_encode_initFromStruct, frame]

theorem length_flatMap_encoded (rs : List RecordBatch) :
    (rs.flatMap (encoded c)).length = ((rs.map (batchOf c)).map Batch.len).sum := by
  simp [batchOf, List.length_flatMap, Function.comp_def]

/-- **`gen_sparse_index` on a payload of batches.** It returns the entries
of `sparseEntries`, with positions counted from the start of the payload,
the offset the last batch ends at, and the pass-through size after the
payload. -/
theorem genSparseIndex_encoded {rs : List RecordBatch} (hne : rs ≠ []) (hfits : ∀ r ∈ rs, Fits c r) {base : Nat}
    (hcont : Continues base rs) {startOffset : Nat} (hstart : startOffset ≤ base) {payload : List (List UInt8)}
    (hpayload : payload.flatten = rs.flatMap (encoded c)) {pass : Nat} (sparseSize : Nat)
    (hlen : (rs.flatMap (encoded c)).length < 2 ^ 32) (hpass : pass + (rs.flatMap (encoded c)).length < 2 ^ 32) :
    genSparseIndex c startOffset payload pass sparseSize =
      .ok ((sparseEntries sparseSize (rs.map (batchOf c)) (base - startOffset) 0 pass).flatMap SparseEntry.bytes,
        base + ((rs.map (batchOf c)).map Batch.delta).sum, passAfter sparseSize (rs.map (batchOf c)) pass) := by
  obtain ⟨rs', r, rfl⟩ : ∃ rs' r, rs = rs' ++ [r] :=
    ⟨rs.dropLast, rs.getLast hne, (List.dropLast_append_getLast hne).symm⟩
  obtain ⟨-, hbase, hdelta, -⟩ := continues_append.mp hcont
  have hfit : Fits c r := hfits r (by simp)
  have hrun := @IndexLoop.run_encoded c startOffset sparseSize (rs' ++ [r]) base 0 pass 0 0 [] hfits hcont hstart
    (by omega) hpass
  -- the last batch is read again from its magic byte on
  have hlast : (lastRecord 0 0 ((rs' ++ [r]).map (batchOf c))).1 = (rs'.flatMap (encoded c)).length := by
    rw [List.map_append, List.map_singleton, lastRecord_append_singleton, length_flatMap_encoded]
    simp
  have hlen' : (rs'.flatMap (encoded c)).length + 1 + 4 + (c.pack r.metadata).length < 2 ^ 32 := by
    simp only [List.flatMap_append, List.length_append, List.flatMap_singleton, length_encoded,
      MIN_RECORD_BATCH_LEN] at hlen
    omega
  unfold Fits at hfit
  have henc : encoded c r = [0x22] ++ (be32 (UInt32.ofNat (c.pack r.metadata).length) ++
      (c.pack r.metadata ++ (be32 (UInt32.ofNat r.payload.length) ++ r.payload))) := by
    rw [encoded, FlatRecordBatch.flatten_encode_initFromStruct]
    simp [frame]
  have hsplit : (rs' ++ [r]).flatMap (encoded c) = (rs'.flatMap (encoded c) ++ [0x22]) ++
      (be32 (UInt32.ofNat (c.pack r.metadata).length) ++
        (c.pack r.metadata ++ (be32 (UInt32.ofNat r.payload.length) ++ r.payload))) := by
    simp only [List.flatMap_append, List.flatMap_singleton, henc, List.append_assoc]
  have hprefix : (rs'.flatMap (encoded c) ++ [0x22]).length = (rs'.flatMap (encoded c)).length + 1 := by simp
  have hb : 0 ≤ r.metadata.baseOffset.toInt := by
    rw [hbase]
    exact Int.natCast_nonneg _
  have hend := recordEndOffset_of_nonneg hb hdelta.le
  rw [hbase, Int.toNat_natCast] at hend
  have htotal : base + (rs'.map fun r => r.metadata.lastOffsetDelta.toInt.toNat).sum +
      r.metadata.lastOffsetDelta.toInt.toNat = base + (((rs' ++ [r]).map (batchOf c)).map Batch.delta).sum := by
    simp [batchOf, Function.comp_def, Nat.add_assoc]
  unfold genSparseIndex
  rw [hpayload]
  simp only [Cursor.new]
  rw [hrun]
  simp only [Outcome.ok_bind, hlast]
  rw [Outcome.add_of_lt (by omega), Outcome.ok_bind, hsplit, Cursor.advance_append hprefix]
  simp only [Outcome.liftM_some, Outcome.ok_bind, Cursor.getI32_append,
    asUsize_ofNat (by omega : (c.pack r.metadata).length < 2 ^ 31), Cursor.take_append rfl, c.root_pack, hend,
    List.nil_append, Nat.zero_add, htotal, Outcome.pure_eq]

/-- **The sparse index of a payload.** On a payload of batches whose offsets
continue from `base`, `gen_sparse_index` returns the offset the last batch
ends at and an index whose entries are the end offsets and positions of
batches of the payload, in order: the first lies `sparseSize` bytes into the
payload at least, less the bytes passed unmarked before it, and each lies
`sparseSize` bytes past the one before it at least. -/
theorem genSparseIndex_marks_spaced {rs : List RecordBatch} (hne : rs ≠ []) (hfits : ∀ r ∈ rs, Fits c r)
    {base : Nat} (hcont : Continues base rs) {startOffset : Nat} (hstart : startOffset ≤ base)
    {payload : List (List UInt8)} (hpayload : payload.flatten = rs.flatMap (encoded c)) {pass : Nat}
    (sparseSize : Nat) (hlen : (rs.flatMap (encoded c)).length < 2 ^ 32)
    (hpass : pass + (rs.flatMap (encoded c)).length < 2 ^ 32) :
    ∃ entries : List SparseEntry, genSparseIndex c startOffset payload pass sparseSize =
        .ok (entries.flatMap SparseEntry.bytes, base + ((rs.map (batchOf c)).map Batch.delta).sum,
          passAfter sparseSize (rs.map (batchOf c)) pass) ∧
      entries.Sublist ((spans (rs.map (batchOf c)) (base - startOffset) 0).map Span.entry) ∧
      (∀ e ∈ entries, sparseSize ≤ e.position + pass) ∧
      entries.Pairwise fun a b => a.position + sparseSize ≤ b.position := by
  refine ⟨_, genSparseIndex_encoded c hne hfits hcont hstart hpayload sparseSize hlen hpass,
    sparseEntries_sublist _ _ _ _, fun e he => ?_, sparseEntries_spaced _ _ _ _⟩
  simpa using le_position_of_mem_sparseEntries _ _ 0 pass e he

/-- A batch of ten offsets from `base` holding `hello world`. -/
def helloBatch (base : Int64) : RecordBatch := ⟨{ Replication.sampleMeta with baseOffset := base }, Replication.helloWorld⟩

theorem length_encoded_helloBatch (base : Int64) : (encoded MetaLayout.codec (helloBatch base)).length = 55 := by
  have hpack : (MetaLayout.codec.pack (helloBatch base).metadata).length = 35 := MetaLayout.length_pack rfl
  rw [length_encoded, hpack, MIN_RECORD_BATCH_LEN]
  rfl

theorem fits_helloBatch (base : Int64) : Fits MetaLayout.codec (helloBatch base) := by
  rw [Fits, ← length_encoded, length_encoded_helloBatch]
  norm_num

theorem continues_hello : Continues 1024 [helloBatch 1024, helloBatch 1034] := by
  simp only [Continues, helloBatch, Replication.sampleMeta]
  decide

theorem fits_hello : ∀ r ∈ [helloBatch 1024, helloBatch 1034], Fits MetaLayout.codec r := by
  intro r hr
  simp only [List.mem_cons, List.not_mem_nil, or_false] at hr
  rcases hr with rfl | rfl <;> exact fits_helloBatch _

/-- Two batches with a sparse size of 50 bytes: the first passes 55 bytes, so
the second is marked. -/
theorem genSparseIndex_marks_spaced_hello :
    let c := MetaLayout.codec
    let rs := [helloBatch 1024, helloBatch 1034]
    ∃ entries : List SparseEntry, genSparseIndex c 1024 (rs.map (encoded c)) 0 50 =
        .ok (entries.flatMap SparseEntry.bytes, 1024 + ((rs.map (batchOf c)).map Batch.delta).sum,
          passAfter 50 (rs.map (batchOf c)) 0) ∧
      entries.Sublist ((spans (rs.map (batchOf c)) (1024 - 1024) 0).map Span.entry) ∧
      (∀ e ∈ entries, 50 ≤ e.position + 0) ∧
      entries.Pairwise fun a b => a.position + 50 ≤ b.position := by
  intro c rs
  have hlen : (rs.flatMap (encoded c)).length = 110 := by
    simp [rs, c, length_encoded_helloBatch]
  exact genSparseIndex_marks_spaced c (List.cons_ne_nil _ _) fits_hello continues_hello le_rfl (by simp [rs]) 50
    (by rw [hlen]; norm_num) (by rw [hlen]; norm_num)

/-! ## An object written whole -/

/-- The footer `gen_footer` writes for a data length and index length that fit. -/
def footerBytes (dataLen indexLen : Nat) : List UInt8 :=
  be32 (UInt32.ofNat (dataLen + 1)) ++ be32 (UInt32.ofNat indexLen) ++ List.replicate 32 0 ++ be64 FOOTER_MAGIC

theorem genFooter_of_lt {ε : Type} {dataLen : Nat} (h : dataLen + 1 < 2 ^ 32) (indexLen : Nat) :
    (genFooter dataLen (indexLen % 2 ^ 32) : Outcome ε (List UInt8)) = .ok (footerBytes dataLen indexLen) := by
  have hmod : UInt32.ofNat (indexLen % 2 ^ 32) = UInt32.ofNat indexLen := UInt32.ofNat_mod_size
  unfold genFooter
  rw [Outcome.add_of_lt h, Outcome.ok_bind, hmod]
  rfl

theorem Continues.delta_pos : ∀ {base : Nat} {rs : List RecordBatch}, Continues base rs →
    ∀ r ∈ rs, 0 < r.metadata.lastOffsetDelta.toInt
  | _, [], _ => by simp
  | _, r :: rs, ⟨_, hd, hrest⟩ => by
    intro r' hr'
    rcases List.mem_cons.mp hr' with rfl | hr'
    · exact hd
    · exact hrest.delta_pos r' hr'

theorem delta_batchOf_pos {r : RecordBatch} (h : 0 < r.metadata.lastOffsetDelta.toInt) : 0 < (batchOf c r).delta := by
  simp only [batchOf]
  omega

/-- The batches of an object's data, from batches that each hold an offset. -/
def objectData (rs : List RecordBatch) (h : ∀ r ∈ rs, 0 < r.metadata.lastOffsetDelta.toInt) : ObjectData :=
  ⟨rs.map (batchOf c), by
    intro b hb
    obtain ⟨r, hr, rfl⟩ := List.mem_map.mp hb
    have := h r hr
    refine ⟨by simp only [batchOf]; omega, ?_⟩
    simp only [batchOf, length_encoded, MIN_RECORD_BATCH_LEN]
    omega⟩

/-- What `Object::write0` writes for a payload of batches continuing from
the object's start: it returns the offset the last batch ends at, and commits
the object with the payload's offsets and bytes counted, its bytes the payload,
the delimiter, the index and the footer. -/
theorem writeObject_encoded {rs : List RecordBatch} (hne : rs ≠ []) (hfits : ∀ r ∈ rs, Fits c r)
    {metadata : ObjectMetadata} (hcont : Continues metadata.startOffset rs) {payload : List (List UInt8)}
    (hpayload : payload.flatten = rs.flatMap (encoded c)) (sparseSize : Nat)
    (hlen : (rs.flatMap (encoded c)).length + 1 < 2 ^ 32)
    (hdelta : ((rs.map (batchOf c)).map Batch.delta).sum < 2 ^ 32) :
    writeObject c metadata payload sparseSize =
      .ok (metadata.startOffset + ((rs.map (batchOf c)).map Batch.delta).sum,
        some ⟨⟨metadata.epoch, metadata.startOffset, ((rs.map (batchOf c)).map Batch.delta).sum,
            (rs.flatMap (encoded c)).length⟩,
          rs.flatMap (encoded c) ++ [BLOCK_DELIMITER] ++
            (sparseEntries sparseSize (rs.map (batchOf c)) 0 0 0).flatMap SparseEntry.bytes ++
            footerBytes (rs.flatMap (encoded c)).length
              ((sparseEntries sparseSize (rs.map (batchOf c)) 0 0 0).flatMap SparseEntry.bytes).length⟩) := by
  have hsum : (payload.map List.length).sum = (rs.flatMap (encoded c)).length := by
    rw [← List.length_flatten, hpayload]
  have hindex := @genSparseIndex_encoded c rs hne hfits metadata.startOffset hcont metadata.startOffset le_rfl
    payload hpayload 0 sparseSize (by omega) (by omega)
  rw [Nat.sub_self] at hindex
  simp only [writeObject, hindex, Outcome.sub_of_le (Nat.le_add_right _ _), Nat.add_sub_cancel_left, hsum,
    Outcome.ok_bind, Nat.mod_eq_of_lt hdelta, Nat.mod_eq_of_lt (show (rs.flatMap (encoded c)).length < 2 ^ 32 by omega),
    genFooter_of_lt hlen, hpayload, Outcome.pure_eq]

/-- The metadata `Object::write0` commits, and the index it writes, describe
the batches of the data. -/
theorem describes_committed (rs : List RecordBatch) (h : ∀ r ∈ rs, 0 < r.metadata.lastOffsetDelta.toInt)
    (sparseSize : Nat) {epoch startOffset : Nat} :
    Describes ⟨⟨epoch, startOffset, ((rs.map (batchOf c)).map Batch.delta).sum, (rs.flatMap (encoded c)).length⟩,
      sparseEntries sparseSize (rs.map (batchOf c)) 0 0 0⟩ (objectData c rs h) := by
  refine ⟨rfl, ?_, sparseEntries_sublist _ 0 0 0⟩
  show (rs.flatMap (encoded c)).length = ((rs.map (batchOf c)).map Batch.len).sum
  exact length_flatMap_encoded c rs

/-- **An object written whole is described by its metadata and its index.**
The metadata counts the offsets and bytes of the batches, and the index the
object holds marks batches of the data, in order, at the positions they start
at. -/
theorem writeObject_describes {rs : List RecordBatch} (hne : rs ≠ []) (hfits : ∀ r ∈ rs, Fits c r)
    {metadata : ObjectMetadata} (hcont : Continues metadata.startOffset rs) {payload : List (List UInt8)}
    (hpayload : payload.flatten = rs.flatMap (encoded c)) (sparseSize : Nat)
    (hlen : (rs.flatMap (encoded c)).length + 1 < 2 ^ 32)
    (hdelta : ((rs.map (batchOf c)).map Batch.delta).sum < 2 ^ 32) :
    ∃ committed, writeObject c metadata payload sparseSize =
        .ok (metadata.startOffset + ((rs.map (batchOf c)).map Batch.delta).sum, some committed) ∧
      committed.metadata.startOffset = metadata.startOffset ∧
      committed.bytes = rs.flatMap (encoded c) ++ [BLOCK_DELIMITER] ++
        (sparseEntries sparseSize (rs.map (batchOf c)) 0 0 0).flatMap SparseEntry.bytes ++
        footerBytes committed.metadata.dataLen
          ((sparseEntries sparseSize (rs.map (batchOf c)) 0 0 0).flatMap SparseEntry.bytes).length ∧
      Describes ⟨committed.metadata, sparseEntries sparseSize (rs.map (batchOf c)) 0 0 0⟩
        (objectData c rs hcont.delta_pos) := by
  exact ⟨_, writeObject_encoded c hne hfits hcont hpayload sparseSize hlen hdelta, rfl, rfl,
    describes_committed c rs hcont.delta_pos sparseSize⟩

/-- Two batches written whole with a sparse size of 50 bytes: the index marks
the second, which starts at byte 55. -/
theorem writeObject_describes_hello :
    let c := MetaLayout.codec
    let rs := [helloBatch 1024, helloBatch 1034]
    ∃ committed, writeObject c ⟨0, 1024, 0, 0⟩ (rs.map (encoded c)) 50 =
        .ok (1024 + ((rs.map (batchOf c)).map Batch.delta).sum, some committed) ∧
      committed.metadata.startOffset = 1024 ∧
      committed.bytes = rs.flatMap (encoded c) ++ [BLOCK_DELIMITER] ++
        (sparseEntries 50 (rs.map (batchOf c)) 0 0 0).flatMap SparseEntry.bytes ++
        footerBytes committed.metadata.dataLen ((sparseEntries 50 (rs.map (batchOf c)) 0 0 0).flatMap SparseEntry.bytes).length ∧
      Describes ⟨committed.metadata, sparseEntries 50 (rs.map (batchOf c)) 0 0 0⟩
        (objectData c rs continues_hello.delta_pos) := by
  intro c rs
  have hlen : (rs.flatMap (encoded c)).length = 110 := by
    simp [rs, c, length_encoded_helloBatch]
  exact writeObject_describes c (List.cons_ne_nil _ _) fits_hello continues_hello (by simp [rs]) 50
    (by rw [hlen]; norm_num) (by decide)

theorem MultiPartObject.write_encoded (obj : MultiPartObject) {rs : List RecordBatch} (hne : rs ≠ [])
    (hfits : ∀ r ∈ rs, Fits c r) {base : Nat} (hcont : Continues base rs) (hstart : obj.startOffset ≤ base)
    {part : List (List UInt8)} (hpart : part.flatten = rs.flatMap (encoded c))
    (hsize : obj.size + (rs.flatMap (encoded c)).length < 2 ^ 32)
    (hpass : obj.lastPassThroughSize + (rs.flatMap (encoded c)).length < 2 ^ 32) :
    obj.write c part =
      .ok ({ obj with
          size := obj.size + (rs.flatMap (encoded c)).length
          lastPassThroughSize := passAfter SPARSE_SIZE (rs.map (batchOf c)) obj.lastPassThroughSize },
        ⟨part, (sparseEntries SPARSE_SIZE (rs.map (batchOf c)) (base - obj.startOffset) 0
          obj.lastPassThroughSize).flatMap SparseEntry.bytes, base + ((rs.map (batchOf c)).map Batch.delta).sum⟩,
        decide (obj.objectSize ≤ obj.size + (rs.flatMap (encoded c)).length),
        base + ((rs.map (batchOf c)).map Batch.delta).sum) := by
  have hsum : (part.map List.length).sum = (rs.flatMap (encoded c)).length := by
    rw [← List.length_flatten, hpart]
  have hindex := @genSparseIndex_encoded c rs hne hfits base hcont obj.startOffset hstart part hpart
    obj.lastPassThroughSize SPARSE_SIZE (by omega) hpass
  simp only [MultiPartObject.write, hsum, Nat.mod_eq_of_lt (show (rs.flatMap (encoded c)).length < 2 ^ 32 by omega),
    Outcome.add_of_lt hsize, Outcome.ok_bind, hindex, Outcome.pure_eq]

namespace WriteLoop

theorem recv_part (w : WriteLoop) {data : List (List UInt8)} (hdata : data.flatten ≠ []) (index : List UInt8)
    (endOffset : Nat) :
    w.recv ⟨data, index, endOffset⟩ =
      .ok (.inl ⟨w.metadata, w.dataLen + data.flatten.length, max w.endOffset endOffset, w.sparseIndex ++ index,
        w.written ++ data.flatten⟩) := by
  simp [recv, List.isEmpty_iff, hdata]

theorem recv_close (w : WriteLoop) (hstart : w.metadata.startOffset ≤ w.endOffset) (hlen : w.dataLen + 1 < 2 ^ 32) :
    w.recv MultiPartObject.closeEvent =
      .ok (.inr ⟨{ w.metadata with
          endOffsetDelta := (w.endOffset - w.metadata.startOffset) % 2 ^ 32
          dataLen := w.dataLen },
        w.written ++ [BLOCK_DELIMITER] ++ w.sparseIndex ++ footerBytes w.dataLen w.sparseIndex.length⟩) := by
  have hfooter := @genFooter_of_lt Empty w.dataLen hlen w.sparseIndex.length
  simp only [recv, MultiPartObject.closeEvent, List.append_nil, Nat.max_zero, List.flatten_nil, List.length_nil,
    Nat.add_zero, List.isEmpty_nil, if_true, hfooter, Outcome.ok_bind, Outcome.sub_of_le hstart,
    Nat.mod_eq_of_lt (show w.dataLen < 2 ^ 32 by omega), Outcome.pure_eq]

end WriteLoop

namespace RangeOffload

/-- A payload smaller than an object opens a multi-part object, whose write
loop takes it as the first part. -/
theorem write_open (epoch objectSize : Nat) (hobject : objectSize < 2 ^ 32) {rs : List RecordBatch} (hne : rs ≠ [])
    (hfits : ∀ r ∈ rs, Fits c r) {startOffset : Nat} (hcont : Continues startOffset rs) {payload : List (List UInt8)}
    (hpayload : payload.flatten = rs.flatMap (encoded c)) (hsmall : (rs.flatMap (encoded c)).length < objectSize) :
    (⟨epoch, objectSize, none⟩ : RangeOffload).write c startOffset payload =
      .ok (⟨epoch, objectSize, some (⟨startOffset, objectSize, (rs.flatMap (encoded c)).length,
          passAfter SPARSE_SIZE (rs.map (batchOf c)) 0⟩,
        some ⟨⟨epoch, startOffset, 0, 0⟩, (rs.flatMap (encoded c)).length,
          startOffset + ((rs.map (batchOf c)).map Batch.delta).sum,
          (sparseEntries SPARSE_SIZE (rs.map (batchOf c)) 0 0 0).flatMap SparseEntry.bytes, rs.flatMap (encoded c)⟩)⟩,
        [], startOffset + ((rs.map (batchOf c)).map Batch.delta).sum) := by
  have hsum : (payload.map List.length).sum = (rs.flatMap (encoded c)).length := by
    rw [← List.length_flatten, hpayload]
  have hdata : payload.flatten ≠ [] := hpayload ▸ flatMap_encoded_ne_nil c hne
  have hpart := (MultiPartObject.new startOffset objectSize).write_encoded c hne hfits hcont le_rfl hpayload
    (by simp only [MultiPartObject.new]; omega) (by simp only [MultiPartObject.new]; omega)
  simp only [MultiPartObject.new, Nat.zero_add, Nat.sub_self] at hpart
  simp only [write, hsum, Nat.mod_eq_of_lt (show (rs.flatMap (encoded c)).length < 2 ^ 32 by omega),
    if_neg (Nat.not_le.mpr hsmall), MultiPartObject.new, hpart, Outcome.ok_bind, deliver, WriteLoop.new,
    WriteLoop.recv_part _ hdata, hpayload, Nat.zero_add, List.nil_append, Outcome.pure_eq,
    Nat.max_eq_right (Nat.le_add_right startOffset _)]

/-- The open multi-part object takes a payload as its next part, whatever
offset the caller passes, and stays open while it is not full. -/
theorem write_part (self : RangeOffload) {obj : MultiPartObject} {w : WriteLoop}
    (hself : self.multiPartObject = some (obj, some w)) {rs : List RecordBatch} (hne : rs ≠ [])
    (hfits : ∀ r ∈ rs, Fits c r) {base : Nat} (hcont : Continues base rs) (hstart : obj.startOffset ≤ base)
    {payload : List (List UInt8)} (hpayload : payload.flatten = rs.flatMap (encoded c))
    (hnotfull : obj.size + (rs.flatMap (encoded c)).length < obj.objectSize) (hobject : obj.objectSize < 2 ^ 32)
    (hpass : obj.lastPassThroughSize + (rs.flatMap (encoded c)).length < 2 ^ 32) (startOffset : Nat) :
    self.write c startOffset payload =
      .ok ({ self with
          multiPartObject := some ({ obj with
              size := obj.size + (rs.flatMap (encoded c)).length
              lastPassThroughSize := passAfter SPARSE_SIZE (rs.map (batchOf c)) obj.lastPassThroughSize },
            some ⟨w.metadata, w.dataLen + (rs.flatMap (encoded c)).length,
              max w.endOffset (base + ((rs.map (batchOf c)).map Batch.delta).sum),
              w.sparseIndex ++ (sparseEntries SPARSE_SIZE (rs.map (batchOf c)) (base - obj.startOffset) 0
                obj.lastPassThroughSize).flatMap SparseEntry.bytes,
              w.written ++ rs.flatMap (encoded c)⟩) },
        [], base + ((rs.map (batchOf c)).map Batch.delta).sum) := by
  have hdata : payload.flatten ≠ [] := hpayload ▸ flatMap_encoded_ne_nil c hne
  have hpart := obj.write_encoded c hne hfits hcont hstart hpayload (by omega) hpass
  simp only [write, hself, hpart, Outcome.ok_bind, deliver, WriteLoop.recv_part _ hdata, hpayload,
    decide_eq_true_eq, if_neg (Nat.not_le.mpr hnotfull), Outcome.pure_eq]

/-- A payload of at least an object's size, with no multi-part object open,
is written whole as one object, committed by the write. -/
theorem write_single (self : RangeOffload) (hself : self.multiPartObject = none) {rs : List RecordBatch}
    (hne : rs ≠ []) (hfits : ∀ r ∈ rs, Fits c r) {startOffset : Nat} (hcont : Continues startOffset rs)
    {payload : List (List UInt8)} (hpayload : payload.flatten = rs.flatMap (encoded c))
    (hbig : self.objectSize ≤ (rs.flatMap (encoded c)).length) (hlen : (rs.flatMap (encoded c)).length + 1 < 2 ^ 32)
    (hdelta : ((rs.map (batchOf c)).map Batch.delta).sum < 2 ^ 32) :
    self.write c startOffset payload =
      .ok (self, [⟨⟨self.epoch, startOffset, ((rs.map (batchOf c)).map Batch.delta).sum, (rs.flatMap (encoded c)).length⟩,
          rs.flatMap (encoded c) ++ [BLOCK_DELIMITER] ++
            (sparseEntries SPARSE_SIZE (rs.map (batchOf c)) 0 0 0).flatMap SparseEntry.bytes ++
            footerBytes (rs.flatMap (encoded c)).length
              ((sparseEntries SPARSE_SIZE (rs.map (batchOf c)) 0 0 0).flatMap SparseEntry.bytes).length⟩],
        startOffset + ((rs.map (batchOf c)).map Batch.delta).sum) := by
  have hsum : (payload.map List.length).sum = (rs.flatMap (encoded c)).length := by
    rw [← List.length_flatten, hpayload]
  have hobj := @writeObject_encoded c rs hne hfits ⟨self.epoch, startOffset, 0, 0⟩ hcont payload hpayload
    SPARSE_SIZE hlen hdelta
  simp only [write, hself, hsum, Nat.mod_eq_of_lt (show (rs.flatMap (encoded c)).length < 2 ^ 32 by omega),
    if_pos hbig, hobj, Outcome.ok_bind, Option.toList_some, Outcome.pure_eq]

/-- A part that fills the open multi-part object closes it: the write loop
takes the part, then writes the delimiter, the index and the footer after
the parts, and commits the object. -/
theorem write_full (self : RangeOffload) {obj : MultiPartObject} {w : WriteLoop}
    (hself : self.multiPartObject = some (obj, some w)) {rs : List RecordBatch} (hne : rs ≠ [])
    (hfits : ∀ r ∈ rs, Fits c r) {base : Nat} (hcont : Continues base rs) (hstart : obj.startOffset ≤ base)
    {payload : List (List UInt8)} (hpayload : payload.flatten = rs.flatMap (encoded c))
    (hfull : obj.objectSize ≤ obj.size + (rs.flatMap (encoded c)).length)
    (hsize : obj.size + (rs.flatMap (encoded c)).length < 2 ^ 32)
    (hpass : obj.lastPassThroughSize + (rs.flatMap (encoded c)).length < 2 ^ 32)
    (hend : w.metadata.startOffset ≤ max w.endOffset (base + ((rs.map (batchOf c)).map Batch.delta).sum))
    (hlen : w.dataLen + (rs.flatMap (encoded c)).length + 1 < 2 ^ 32) (startOffset : Nat) :
    self.write c startOffset payload =
      .ok ({ self with multiPartObject := none },
        [⟨{ w.metadata with
            endOffsetDelta :=
              (max w.endOffset (base + ((rs.map (batchOf c)).map Batch.delta).sum) - w.metadata.startOffset) % 2 ^ 32
            dataLen := w.dataLen + (rs.flatMap (encoded c)).length },
          w.written ++ rs.flatMap (encoded c) ++ [BLOCK_DELIMITER] ++
            (w.sparseIndex ++ (sparseEntries SPARSE_SIZE (rs.map (batchOf c)) (base - obj.startOffset) 0
              obj.lastPassThroughSize).flatMap SparseEntry.bytes) ++
            footerBytes (w.dataLen + (rs.flatMap (encoded c)).length)
              (w.sparseIndex ++ (sparseEntries SPARSE_SIZE (rs.map (batchOf c)) (base - obj.startOffset) 0
                obj.lastPassThroughSize).flatMap SparseEntry.bytes).length⟩],
        base + ((rs.map (batchOf c)).map Batch.delta).sum) := by
  have hdata : payload.flatten ≠ [] := hpayload ▸ flatMap_encoded_ne_nil c hne
  have hpart := obj.write_encoded c hne hfits hcont hstart hpayload hsize hpass
  -- the loop after the part, which the close event then finds
  have hclose := WriteLoop.recv_close ⟨w.metadata, w.dataLen + (rs.flatMap (encoded c)).length,
    max w.endOffset (base + ((rs.map (batchOf c)).map Batch.delta).sum),
    w.sparseIndex ++ (sparseEntries SPARSE_SIZE (rs.map (batchOf c)) (base - obj.startOffset) 0
      obj.lastPassThroughSize).flatMap SparseEntry.bytes, w.written ++ rs.flatMap (encoded c)⟩ hend hlen
  simp only [write, hself, hpart, Outcome.ok_bind, deliver, WriteLoop.recv_part _ hdata, hpayload,
    decide_eq_true_eq, if_pos hfull, hclose, List.nil_append, Outcome.pure_eq]

/-- `flush` closes the open multi-part object: its loop writes the
delimiter, the index and the footer after the parts, and commits it. -/
theorem flush_of_open (self : RangeOffload) {obj : MultiPartObject} {w : WriteLoop}
    (hself : self.multiPartObject = some (obj, some w)) (hstart : w.metadata.startOffset ≤ w.endOffset)
    (hlen : w.dataLen + 1 < 2 ^ 32) :
    self.flush =
      .ok ({ self with multiPartObject := none },
        [⟨{ w.metadata with
            endOffsetDelta := (w.endOffset - w.metadata.startOffset) % 2 ^ 32
            dataLen := w.dataLen },
          w.written ++ [BLOCK_DELIMITER] ++ w.sparseIndex ++ footerBytes w.dataLen w.sparseIndex.length⟩]) := by
  simp only [flush, hself, deliver, WriteLoop.recv_close w hstart hlen, Outcome.ok_bind, Outcome.pure_eq]

/-- `DefaultRangeAccumulator::read_loop`'s use of the offload: each payload
fetched is written at the offset the previous write returned, and the loop
ends with `flush`. The objects committed, and the offset reached. -/
def offloadRun (self : RangeOffload) (nextOffset : Nat) : List (List (List UInt8)) → Outcome Empty (List Committed × Nat)
  | [] => do
    let (_, committed) ← self.flush
    pure (committed, nextOffset)
  | payload :: payloads => do
    let (self, committed, nextOffset) ← self.write c nextOffset payload
    let (committed', nextOffset) ← offloadRun self nextOffset payloads
    pure (committed ++ committed', nextOffset)

end RangeOffload

/-- **A multi-part object's index misplaces the marks of its second part.**
Two payloads of batches, whose offsets continue one another, are written one
after the other and flushed; together they are smaller than an object, so
they become the two parts of one multi-part object. The object and its
metadata count the data's bytes and offsets. When the first part leaves at
least `SPARSE_SIZE` bytes unmarked, the second part's index has marks, and
each of them has the position of its batch within the part: the batch
ending at that offset starts as many bytes later as the first part holds,
and no batch of the object starts at the position it names. -/
theorem multipart_index_misplaces_marks {rs₁ rs₂ : List RecordBatch} (hne₁ : rs₁ ≠ []) (hne₂ : rs₂ ≠ [])
    (hfits : ∀ r ∈ rs₁ ++ rs₂, Fits c r) {startOffset : Nat} (hcont : Continues startOffset (rs₁ ++ rs₂))
    {p₁ p₂ : List (List UInt8)} (hp₁ : p₁.flatten = rs₁.flatMap (encoded c))
    (hp₂ : p₂.flatten = rs₂.flatMap (encoded c)) (epoch objectSize : Nat) (hobject : objectSize < 2 ^ 32)
    (hsize : ((rs₁ ++ rs₂).flatMap (encoded c)).length < objectSize)
    (hdelta : (((rs₁ ++ rs₂).map (batchOf c)).map Batch.delta).sum < 2 ^ 32)
    (hmark : SPARSE_SIZE ≤ passAfter SPARSE_SIZE (rs₁.map (batchOf c)) 0) :
    let bs₁ := rs₁.map (batchOf c)
    let bs₂ := rs₂.map (batchOf c)
    let index₂ := sparseEntries SPARSE_SIZE bs₂ (bs₁.map Batch.delta).sum 0 (passAfter SPARSE_SIZE bs₁ 0)
    let index := sparseEntries SPARSE_SIZE bs₁ 0 0 0 ++ index₂
    let data := (rs₁ ++ rs₂).flatMap (encoded c)
    RangeOffload.offloadRun c ⟨epoch, objectSize, none⟩ startOffset [p₁, p₂] =
        .ok ([⟨⟨epoch, startOffset, ((bs₁ ++ bs₂).map Batch.delta).sum, data.length⟩,
            data ++ [BLOCK_DELIMITER] ++ index.flatMap SparseEntry.bytes ++
              footerBytes data.length (index.flatMap SparseEntry.bytes).length⟩],
          startOffset + ((bs₁ ++ bs₂).map Batch.delta).sum) ∧
      index₂ ≠ [] ∧
      ∀ e ∈ index₂, (⟨e.endDelta, e.position + (rs₁.flatMap (encoded c)).length⟩ : SparseEntry) ∈
          (spans (bs₁ ++ bs₂) 0 0).map Span.entry ∧ e ∉ (spans (bs₁ ++ bs₂) 0 0).map Span.entry := by
  intro bs₁ bs₂ index₂ index data
  obtain ⟨hc₁, hc₂⟩ := continues_append.mp hcont
  have hf₁ : ∀ r ∈ rs₁, Fits c r := fun r hr => hfits r (List.mem_append_left _ hr)
  have hf₂ : ∀ r ∈ rs₂, Fits c r := fun r hr => hfits r (List.mem_append_right _ hr)
  have hΔ₁ : (rs₁.map fun r => r.metadata.lastOffsetDelta.toInt.toNat).sum = (bs₁.map Batch.delta).sum := by
    simp [bs₁, batchOf, Function.comp_def]
  rw [hΔ₁] at hc₂
  have hlen₁ : (rs₁.flatMap (encoded c)).length = (bs₁.map Batch.len).sum := length_flatMap_encoded c rs₁
  have hsize' : (rs₁.flatMap (encoded c)).length + (rs₂.flatMap (encoded c)).length < objectSize := by
    simpa [List.flatMap_append] using hsize
  have hpass := @passAfter_le SPARSE_SIZE bs₁ 0
  have hw₁ := RangeOffload.write_open c epoch objectSize hobject hne₁ hf₁ hc₁ hp₁ (by omega)
  simp only [RangeOffload.offloadRun, hw₁, Outcome.ok_bind]
  rw [RangeOffload.write_part c _ ?hs hne₂ hf₂ hc₂ ?h1 hp₂ ?h2 ?h4 ?h3]
  case hs => rfl
  case h1 => exact Nat.le_add_right _ _
  case h2 =>
    show (rs₁.flatMap (encoded c)).length + (rs₂.flatMap (encoded c)).length < objectSize
    exact hsize'
  case h4 => exact hobject
  case h3 =>
    show passAfter SPARSE_SIZE bs₁ 0 + (rs₂.flatMap (encoded c)).length < 2 ^ 32
    omega
  simp only [Outcome.ok_bind]
  rw [RangeOffload.flush_of_open _ ?hs₂ ?hstart₂ ?hlen₂]
  case hs₂ => rfl
  case hstart₂ =>
    show startOffset ≤ max (startOffset + (bs₁.map Batch.delta).sum)
      (startOffset + (bs₁.map Batch.delta).sum + (bs₂.map Batch.delta).sum)
    omega
  case hlen₂ =>
    show (rs₁.flatMap (encoded c)).length + (rs₂.flatMap (encoded c)).length + 1 < 2 ^ 32
    omega
  simp only [Outcome.ok_bind, Outcome.pure_eq]
  have hΔ : (bs₁.map Batch.delta).sum + (bs₂.map Batch.delta).sum < 2 ^ 32 := by
    simpa [bs₁, bs₂] using hdelta
  -- every batch holds an offset and bytes, so the first part is not empty
  have hpos : ∀ b ∈ bs₁ ++ bs₂, 0 < b.delta := by
    intro b hb
    rw [← List.map_append] at hb
    obtain ⟨r, hr, rfl⟩ := List.mem_map.mp hb
    exact delta_batchOf_pos c (hcont.delta_pos r hr)
  have hlen₁pos : 0 < (bs₁.map Batch.len).sum := by
    rw [← hlen₁]
    exact List.length_pos_of_ne_nil (flatMap_encoded_ne_nil c hne₁)
  refine ⟨?_, ?_, ?_⟩
  · simp only [bs₁, bs₂, index₂, index, data, List.nil_append, List.map_append, List.sum_append,
      List.flatMap_append, List.length_append, Nat.add_sub_cancel_left]
    rw [max_eq_right (by omega), Nat.add_assoc, Nat.add_sub_cancel_left, Nat.mod_eq_of_lt hΔ]
  · obtain ⟨r, rs', hrs⟩ := List.exists_cons_of_ne_nil hne₂
    have hmark' : SPARSE_SIZE ≤ passAfter SPARSE_SIZE bs₁ 0 := hmark
    simp only [index₂, bs₂, hrs, List.map_cons, sparseEntries, if_pos hmark']
    exact List.cons_ne_nil _ _
  · rw [hlen₁]
    exact sparseEntries_misplaced hpos hlen₁pos _

/-- A batch of 16 MiB, offsets 1024 to 1034: alone it passes `SPARSE_SIZE` bytes. -/
def sparseFirstPart : RecordBatch := ⟨Replication.sampleMeta, List.replicate (2 ^ 24 - 44) 0⟩

/-- The batch after it, offsets 1034 to 1044. -/
def sparseSecondPart : RecordBatch := ⟨{ Replication.sampleMeta with baseOffset := 1034 }, Replication.helloWorld⟩

theorem length_encoded_sparseFirstPart : (encoded MetaLayout.codec sparseFirstPart).length = 2 ^ 24 := by
  have hpack : (MetaLayout.codec.pack sparseFirstPart.metadata).length = 35 := MetaLayout.length_pack rfl
  have hpayload : sparseFirstPart.payload.length = 2 ^ 24 - 44 := List.length_replicate
  rw [length_encoded, hpack, hpayload, MIN_RECORD_BATCH_LEN]
  norm_num

theorem length_encoded_sparseSecondPart : (encoded MetaLayout.codec sparseSecondPart).length = 55 := by
  have hpack : (MetaLayout.codec.pack sparseSecondPart.metadata).length = 35 := MetaLayout.length_pack rfl
  rw [length_encoded, hpack, MIN_RECORD_BATCH_LEN]
  rfl

/-- The two batches written as two payloads, with the shipped object size of
128 MiB: the second part's mark names position 0, where the first part's
batch starts, for the batch that starts 16 MiB later. -/
theorem multipart_index_misplaces_marks_16MiB :
    let c := MetaLayout.codec
    let bs₁ := [sparseFirstPart].map (batchOf c)
    let bs₂ := [sparseSecondPart].map (batchOf c)
    let index₂ := sparseEntries SPARSE_SIZE bs₂ (bs₁.map Batch.delta).sum 0 (passAfter SPARSE_SIZE bs₁ 0)
    let index := sparseEntries SPARSE_SIZE bs₁ 0 0 0 ++ index₂
    let data := ([sparseFirstPart] ++ [sparseSecondPart]).flatMap (encoded c)
    RangeOffload.offloadRun c ⟨0, 134217728, none⟩ 1024 [[encoded c sparseFirstPart], [encoded c sparseSecondPart]] =
        .ok ([⟨⟨0, 1024, ((bs₁ ++ bs₂).map Batch.delta).sum, data.length⟩,
            data ++ [BLOCK_DELIMITER] ++ index.flatMap SparseEntry.bytes ++
              footerBytes data.length (index.flatMap SparseEntry.bytes).length⟩],
          1024 + ((bs₁ ++ bs₂).map Batch.delta).sum) ∧
      index₂ ≠ [] ∧
      ∀ e ∈ index₂, (⟨e.endDelta, e.position + ([sparseFirstPart].flatMap (encoded c)).length⟩ : SparseEntry) ∈
          (spans (bs₁ ++ bs₂) 0 0).map Span.entry ∧ e ∉ (spans (bs₁ ++ bs₂) 0 0).map Span.entry := by
  intro c
  have h₁ : (encoded c sparseFirstPart).length = 2 ^ 24 := length_encoded_sparseFirstPart
  have h₂ : (encoded c sparseSecondPart).length = 55 := length_encoded_sparseSecondPart
  have hfits : ∀ r ∈ [sparseFirstPart] ++ [sparseSecondPart], Fits c r := by
    intro r hr
    simp only [List.cons_append, List.nil_append, List.mem_cons, List.not_mem_nil, or_false] at hr
    rcases hr with rfl | rfl
    · rw [Fits, ← length_encoded, h₁]
      norm_num
    · rw [Fits, ← length_encoded, h₂]
      norm_num
  have hcont : Continues 1024 ([sparseFirstPart] ++ [sparseSecondPart]) := by
    simp only [Continues, List.cons_append, List.nil_append, sparseFirstPart, sparseSecondPart,
      Replication.sampleMeta, and_true]
    decide
  refine multipart_index_misplaces_marks c (List.cons_ne_nil _ _) (List.cons_ne_nil _ _) hfits hcont
    (by simp) (by simp) 0 134217728 (by norm_num) ?_ ?_ ?_
  · simp [h₁, h₂]
  · simp only [List.cons_append, List.nil_append, List.map_cons, List.map_nil, batchOf, List.sum_cons,
      List.sum_nil]
    decide
  · simp [passAfter, batchOf, h₁, SPARSE_SIZE]

end

end ElasticStream.ObjectStorage
