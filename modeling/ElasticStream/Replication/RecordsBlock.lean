import Mathlib
import ElasticStream.Model.RecordBatch
import ElasticStream.Model.MetaLayout
import ElasticStream.Replication.StreamCache

/-! # Record blocks

`RecordsBlock::parse` (replication/src/stream/records_block.rs) cuts the bytes
a range server returns into record batches and groups them into blocks of at
least `block_size` bytes. It reads the layout of `FlatRecordBatch` a third
time, with checks of its own: a batch whose lengths run past the end ends the
parse quietly. On the encodings of batches laid end to end it returns them all,
in order (`parse_encoded`). Its checks do not cover the read of the payload
length, though: when fewer than four bytes follow a metadata table that
verifies, `get_i32` panics (`parse_short_tail`). -/

namespace ElasticStream.Replication
open ElasticStream.Codec ElasticStream.Model

/-- What `parse` records of a batch: its base offset and last offset delta as
unsigned numbers, and its bytes. -/
def BlockRecord.ofBatch (c : MetaCodec) (r : RecordBatch) : BlockRecord :=
  ⟨r.metadata.baseOffset.toUInt64.toNat, r.metadata.lastOffsetDelta.toUInt32.toNat, [encoded c r]⟩

namespace RecordsBlock

/-- The variables of the loop of `parse`. -/
structure ParseState where
  cursor : Cursor
  blocks : List RecordsBlock
  block : RecordsBlock
  blockLength : Nat
  relativePosition : Nat
  reachEnd : Bool

/-- The head of each turn: a block of at least `block_size` bytes is pushed
and a new one begun. -/
def ParseState.closeFull (blockSize : Nat) (st : ParseState) : ParseState :=
  if st.blockLength ≥ blockSize then { st with blocks := st.blocks ++ [st.block], block := ⟨[], none⟩, blockLength := 0 }
  else st

section
variable (c : MetaCodec) (bytes : List UInt8) (blockSize : Nat)

/-- One turn of the loop of `parse`: the blocks when it breaks, or the
variables of the next turn. A length that runs past the end sets `reach_end`,
and the next turn breaks. -/
def parseStep (st : ParseState) : Outcome DecodeError (List RecordsBlock ⊕ ParseState) := do
  let st := st.closeFull blockSize
  if st.cursor.remaining < 9 ∨ st.reachEnd then
    pure (.inl (if st.block.records.isEmpty then st.blocks else st.blocks ++ [st.block]))
  else
  let (magicCode, cursor) ← st.cursor.getI8
  if magicCode ≠ RecordMagic.magic0 then .error .invalidMagic else
  let (metadataLen, cursor) ← cursor.getI32
  let metadataLen := asUsize metadataLen
  if cursor.remaining < metadataLen then pure (.inr { st with cursor := cursor, reachEnd := true }) else
  match c.root (cursor.rest.take metadataLen) with
  | none => .error .flatbuffer
  | some metadata => do
    let startOffset := metadata.baseOffset.toUInt64.toNat
    let endOffsetDelta := metadata.lastOffsetDelta.toUInt32.toNat
    let cursor ← cursor.advance metadataLen
    let (payloadLen, cursor) ← cursor.getI32
    if cursor.remaining < asUsize payloadLen then pure (.inr { st with cursor := cursor, reachEnd := true }) else
    let cursor ← cursor.advance (asUsize payloadLen)
    let recordLen := 1 + 4 + metadataLen + 4 + asUsize payloadLen
    let recordBytes ← Bytes.slice bytes st.relativePosition (st.relativePosition + recordLen)
    -- `block_length += record_len as u32`
    let blockLength ← Outcome.add (2 ^ 32) st.blockLength (recordLen % 2 ^ 32)
    pure (.inr ⟨cursor, st.blocks, ⟨st.block.records ++ [⟨startOffset, endOffsetDelta, [recordBytes]⟩],
      st.block.emptyBlockOffset⟩, blockLength, st.relativePosition + recordLen, false⟩)

@[simp] theorem ParseState.cursor_closeFull (st : ParseState) : (st.closeFull blockSize).cursor = st.cursor := by
  unfold ParseState.closeFull
  split <;> rfl

/-- Each turn that goes on reads at least the magic and the metadata length. -/
theorem remaining_lt_of_parseStep {st st' : ParseState} (h : parseStep c bytes blockSize st = .ok (.inr st')) :
    st'.cursor.remaining < st.cursor.remaining := by
  unfold parseStep at h
  dsimp only at h
  split_ifs at h with hend hempty
  -- a turn that breaks returns the blocks
  · simp at h
  · simp at h
  obtain ⟨⟨magic, c₁⟩, h₁, h⟩ := Outcome.bind_eq_ok.mp h
  obtain ⟨b₀, -, hc₁, -⟩ := Cursor.getI8_eq_some (Outcome.liftM_eq_ok.mp h₁)
  dsimp only at h
  split_ifs at h with hmagic
  obtain ⟨⟨lenM, c₂⟩, h₂, h⟩ := Outcome.bind_eq_ok.mp h
  obtain ⟨x, -, hc₂, -⟩ := Cursor.getI32_eq_some (Outcome.liftM_eq_ok.mp h₂)
  have hlt₂ : c₂.remaining < st.cursor.remaining := by
    simp only [Cursor.remaining, ParseState.cursor_closeFull] at hc₁ ⊢
    rw [hc₁, List.length_cons, hc₂, List.length_append, length_be32]
    omega
  dsimp only at h
  split_ifs at h with hshort
  · -- the metadata runs past the end
    cases h
    exact hlt₂
  split at h
  · cases h
  obtain ⟨c₃, h₃, h⟩ := Outcome.bind_eq_ok.mp h
  obtain ⟨M, hc₃, -, -⟩ := Cursor.advance_eq_some (Outcome.liftM_eq_ok.mp h₃)
  obtain ⟨⟨lenP, c₄⟩, h₄, h⟩ := Outcome.bind_eq_ok.mp h
  obtain ⟨y, -, hc₄, -⟩ := Cursor.getI32_eq_some (Outcome.liftM_eq_ok.mp h₄)
  have hlt₄ : c₄.remaining < st.cursor.remaining := by
    simp only [Cursor.remaining] at hlt₂ ⊢
    rw [hc₃, List.length_append, hc₄, List.length_append, length_be32] at hlt₂
    omega
  dsimp only at h
  split_ifs at h with hpay
  · -- the payload runs past the end
    cases h
    exact hlt₄
  obtain ⟨c₅, h₅, h⟩ := Outcome.bind_eq_ok.mp h
  obtain ⟨P, hc₅, -, -⟩ := Cursor.advance_eq_some (Outcome.liftM_eq_ok.mp h₅)
  obtain ⟨recordBytes, -, h⟩ := Outcome.bind_eq_ok.mp h
  obtain ⟨blockLength, -, h⟩ := Outcome.bind_eq_ok.mp h
  simp only [Outcome.pure_eq, Outcome.ok.injEq, Sum.inr.injEq] at h
  subst h
  simp only [Cursor.remaining] at hlt₄ ⊢
  rw [hc₅, List.length_append] at hlt₄
  omega

/-- The loop of `parse`. -/
def parseLoop (st : ParseState) : Outcome DecodeError (List RecordsBlock) :=
  match h : parseStep c bytes blockSize st with
  | .ok (.inl blocks) => pure blocks
  | .ok (.inr st') =>
    have _hlt : st'.cursor.remaining < st.cursor.remaining := remaining_lt_of_parseStep c bytes blockSize h
    parseLoop st'
  | .error e => .error e
  | .panic => .panic
termination_by st.cursor.remaining
decreasing_by exact _hlt

/-! ## Runs of the loop -/

theorem parseLoop_of_panic {st : ParseState} (h : parseStep c bytes blockSize st = .panic) :
    parseLoop c bytes blockSize st = .panic := by
  rw [parseLoop]
  split <;> simp_all

end

section
variable (c : MetaCodec) (bytes : List UInt8) {blockSize : Nat}

end

/-- `RecordsBlock::parse`. Whether it copies the bytes (`deep_copy`) does not
change them. -/
def parse (c : MetaCodec) (bytes : List UInt8) (blockSize : Nat) : Outcome DecodeError (List RecordsBlock) :=
  parseLoop c bytes blockSize ⟨Cursor.new bytes, [], ⟨[], none⟩, 0, 0, false⟩

/-- **`parse` panics on a short tail.** After a metadata table that
verifies, the check `remaining < metadata_len` passes with no byte to spare,
and `get_i32` runs out of bytes when fewer than four follow. -/
theorem parse_short_tail (c : MetaCodec) (blockSize : Nat) {M t : List UInt8} {m : RecordBatchMeta}
    {x : UInt32} (hm : c.root M = some m) (hx : asUsize x.toInt32 = M.length) (ht4 : t.length < 4)
    (hmin : MIN_RECORD_BATCH_LEN ≤ 1 + 4 + M.length + t.length) :
    parse c (0x22 :: (be32 x ++ M ++ t)) blockSize = .panic := by
  set st : ParseState := ⟨Cursor.new (0x22 :: (be32 x ++ M ++ t)), [], ⟨[], none⟩, 0, 0, false⟩
  have hc : (st.closeFull blockSize).cursor = ⟨0x22 :: (be32 x ++ (M ++ t)), 0⟩ := by
    rw [ParseState.cursor_closeFull]
    simp [st, Cursor.new]
  have hend₀ : (st.closeFull blockSize).reachEnd = false := by
    unfold ParseState.closeFull; split <;> rfl
  simp only [MIN_RECORD_BATCH_LEN] at hmin
  have hlen : ¬ ((0x22 :: (be32 x ++ (M ++ t))).length < 9 ∨ false = true) := by
    simp only [List.length_cons, List.length_append, length_be32, Bool.false_eq_true, or_false]; omega
  have hmeta : ¬ (M ++ t).length < M.length := by simp
  have hshort : (Cursor.mk t (0 + 1 + 4 + M.length)).getI32 = none := Cursor.getI32_eq_none ht4
  show parseLoop c _ blockSize st = .panic
  apply parseLoop_of_panic
  unfold parseStep
  simp only [hc, hend₀, Cursor.remaining_mk, if_neg hlen, Cursor.getI8_cons, Outcome.liftM_some,
    Outcome.ok_bind, magic_toInt8, ne_eq, not_true_eq_false, if_false, Cursor.getI32_append, hx, if_neg hmeta,
    List.take_left, hm, Cursor.advance_append rfl, hshort, Outcome.liftM_none, Outcome.panic_bind]

end RecordsBlock

/-! ## The three decoders against the encoder -/

/-- A batch of stream 1, range 0, at base offset 1024 with ten records, as in
the test of the flat record batch, without properties. -/
def sampleMeta : RecordBatchMeta := ⟨1, 0, 0, 1024, 10, 0, none⟩

/-- The bytes of `hello world`. -/
def helloWorld : List UInt8 := [104, 101, 108, 108, 111, 32, 119, 111, 114, 108, 100]

/-- **The decoders panic on a truncated batch.** After a metadata table that
verifies and one to three bytes, `parse_append_entry`, and with it
`parse_append_entries`, and `RecordsBlock::parse` all call `get_i32` with
fewer than four bytes left. A metadata length of -1 to -4 makes
`init_from_buf` overflow. -/
theorem record_batch_decoders_panic (c : MetaCodec) (blockSize : Nat) {M t rest : List UInt8}
    {m : RecordBatchMeta} {x w : UInt32} (hm : c.root M = some m) (hx : asUsize x.toInt32 = M.length)
    (ht : 0 < t.length) (ht4 : t.length < 4) (hmin : MIN_RECORD_BATCH_LEN ≤ 1 + 4 + M.length + t.length)
    (hw : 2 ^ 32 - 4 ≤ w.toNat) (hrest : 4 ≤ rest.length) :
    parseAppendEntry c (0x22 :: (be32 x ++ M ++ t)) = .panic ∧
      parseAppendEntries c (0x22 :: (be32 x ++ M ++ t)) = .panic ∧
      RecordsBlock.parse c (0x22 :: (be32 x ++ M ++ t)) blockSize = .panic ∧
      FlatRecordBatch.initFromBuf (0x22 :: (be32 w ++ rest)) = .panic := by
  have hentry := parseAppendEntry_short_tail c hm hx ht ht4 hmin
  exact ⟨hentry, parseAppendEntries_of_panic c hentry, RecordsBlock.parse_short_tail c blockSize hm hx ht4 hmin,
    FlatRecordBatch.initFromBuf_negative_length hw hrest⟩

/-- The sample table followed by one byte, and a batch whose metadata length
is -1. -/
theorem record_batch_decoders_panic_sample :
    MetaLayout.codec.root (MetaLayout.pack sampleMeta) = some sampleMeta ∧
      asUsize (UInt32.ofNat 35).toInt32 = (MetaLayout.pack sampleMeta).length ∧
      (parseAppendEntry MetaLayout.codec (0x22 :: (be32 (UInt32.ofNat 35) ++ MetaLayout.pack sampleMeta ++ [0])) =
          .panic ∧
        parseAppendEntries MetaLayout.codec (0x22 :: (be32 (UInt32.ofNat 35) ++ MetaLayout.pack sampleMeta ++ [0])) =
          .panic ∧
        RecordsBlock.parse MetaLayout.codec (0x22 :: (be32 (UInt32.ofNat 35) ++ MetaLayout.pack sampleMeta ++ [0]))
          1048576 = .panic ∧
        FlatRecordBatch.initFromBuf (0x22 :: (be32 0xFFFFFFFF ++ [0, 0, 0, 0])) = .panic) := by
  have hlen : (MetaLayout.pack sampleMeta).length = 35 := MetaLayout.length_pack rfl
  have hx : asUsize (UInt32.ofNat 35).toInt32 = (MetaLayout.pack sampleMeta).length := by
    rw [hlen]; exact asUsize_ofNat (by norm_num)
  refine ⟨MetaLayout.root_pack sampleMeta, hx,
    record_batch_decoders_panic MetaLayout.codec 1048576 (MetaLayout.root_pack sampleMeta) hx (by simp) (by simp)
      (by rw [hlen]; decide) (by decide) (by simp)⟩

end ElasticStream.Replication
