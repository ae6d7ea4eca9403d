import Mathlib
import ElasticStream.Codec.Frame

/-! # The Go framer

The placement driver's side of SBP (pd/pkg/sbp/codec/frame.go).
`Framer.ReadFrame` reads one frame from an `io.Reader`: the 16 bytes of the
fixed header, then header and payload together into one buffer from
`mcache.Malloc`, then the checksum, and it cuts the header and the payload out
of the buffer by slicing. `Framer.WriteFrame` lays the frame down in one
buffer and patches the length in at the end.

The reader is a `Cursor` over the bytes it will yield. A slice keeps the bytes
of its backing array beyond its length: `mcache` hands out pooled arrays whose
capacity exceeds the size asked for, holding what an earlier user left there.
Those bytes are a parameter, `spare`, of the read, and every result holds for
all of them. -/

namespace ElasticStream.Codec.Framer

open Outcome Cursor

def fixedHeaderLen : Nat := 16
/-- The fixed header without the header length, and the checksum. -/
def minFrameLen : Nat := fixedHeaderLen - 4 + 4
def maxFrameLen : Nat := 16 * 1024 * 1024
def magicCode : UInt8 := 23

/-- `baseFrame`; the operation code is `rpcfb.OperationCode`, an `int16`, and
`nil` header or payload is `none`. -/
structure BaseFrame where
  opCode : Int16
  flag : UInt8
  streamID : UInt32
  headerFmt : UInt8
  header : Option (List UInt8)
  payload : Option (List UInt8)
  deriving DecidableEq, Repr

/-- The errors of `ReadFrame` and `WriteFrame`, with the numbers their
messages print. A failed `Write` on the connection is left out: the writer
takes every byte. -/
inductive FramerError where
  /-- "read fixed header" -/
  | readFixedHeader
  /-- "frame too small: %d < %d" -/
  | frameTooSmall (frameLen minLen : Nat)
  /-- "frame too large: %d > %d" -/
  | frameTooLarge (frameLen maxLen : Nat)
  /-- "magic code mismatch: %d != %d" -/
  | magicCodeMismatch (got expected : UInt8)
  /-- "read extended header and payload" -/
  | readExtendedHeaderAndPayload
  /-- "read payload checksum" -/
  | readPayloadChecksum
  /-- "payload checksum mismatch: %d != %d" -/
  | payloadChecksumMismatch (ckm checksum : UInt32)
  deriving DecidableEq, Repr

/-- A byte slice: its `len` bytes and the bytes of its backing array after
them, up to its `cap`. -/
structure Slice where
  bytes : List UInt8
  spare : List UInt8

namespace Slice

variable {ε : Type}

/-- `s[:high]`: it may reach into the capacity and panics beyond it. -/
def sliceTo (s : Slice) (high : Nat) : Outcome ε (List UInt8) :=
  if high ≤ s.bytes.length + s.spare.length then .ok ((s.bytes ++ s.spare).take high) else .panic

/-- `s[low:]`: it panics beyond the length. -/
def sliceFrom (s : Slice) (low : Nat) : Outcome ε (List UInt8) :=
  if low ≤ s.bytes.length then .ok (s.bytes.drop low) else .panic

theorem sliceTo_of_le {s : Slice} {high : Nat} (h : high ≤ s.bytes.length) :
    (s.sliceTo high : Outcome ε (List UInt8)) = .ok (s.bytes.take high) := by
  rw [sliceTo, if_pos (by omega), List.take_append_of_le_length h]

theorem sliceFrom_of_gt {s : Slice} {low : Nat} (h : s.bytes.length < low) :
    (s.sliceFrom low : Outcome ε (List UInt8)) = .panic :=
  if_neg (Nat.not_le.mpr h)

end Slice

/-- The header closure of `ReadFrame`: `nil` for no header, else
`tBuf[:headerLen]`. -/
def sliceHeader (tBuf : Slice) (headerLen : UInt32) : Outcome FramerError (Option (List UInt8)) :=
  if headerLen = 0 then pure none else do
    let header ← tBuf.sliceTo headerLen.toNat
    pure (some header)

/-- The payload closure: `nil` for no payload, else `tBuf[headerLen:]`. -/
def slicePayload (tBuf : Slice) (headerLen payloadLen : UInt32) : Outcome FramerError (Option (List UInt8)) :=
  if payloadLen = 0 then pure none else do
    let payload ← tBuf.sliceFrom headerLen.toNat
    pure (some payload)

/-- The tail of `ReadFrame` from the allocation on: header and payload into
`tBuf`, sliced apart, then the checksum, checked against a payload. -/
def readBody (spare : Nat → List UInt8) (r : Cursor) (headerLen payloadLen : UInt32) :
    Outcome FramerError (Option (List UInt8) × Option (List UInt8) × Cursor) :=
  let size := (headerLen + payloadLen).toNat
  match r.take size with
  | none => .error .readExtendedHeaderAndPayload
  | some (bytes, r) => do
    let tBuf : Slice := ⟨bytes, spare size⟩
    let header ← sliceHeader tBuf headerLen
    let payload ← slicePayload tBuf headerLen payloadLen
    match r.getU32 with
    | none => .error .readPayloadChecksum
    | some (checksum, r) =>
      let ckm := crc32 (payload.getD [])
      if payloadLen > 0 ∧ ckm ≠ checksum then .error (.payloadChecksumMismatch ckm checksum)
      else pure (header, payload, r)

/-- `Framer.ReadFrame`. The fixed header is read from a `bytes.Buffer`, whose
`Next(n)[0]` and `binary.BigEndian.Uint32` panic on too few bytes. -/
def readFrame (spare : Nat → List UInt8) (r : Cursor) : Outcome FramerError (BaseFrame × Cursor) :=
  match r.take fixedHeaderLen with
  | none => .error .readFixedHeader
  | some (buf, r) => do
    let headerBuf := Cursor.new buf
    let (frameLen, headerBuf) ← headerBuf.getU32
    if frameLen.toNat < minFrameLen then .error (.frameTooSmall frameLen.toNat minFrameLen) else
    if frameLen.toNat > maxFrameLen then .error (.frameTooLarge frameLen.toNat maxFrameLen) else
    let (magicCode, headerBuf) ← headerBuf.getU8
    if magicCode ≠ Framer.magicCode then .error (.magicCodeMismatch magicCode Framer.magicCode) else
    let (opCode, headerBuf) ← headerBuf.getU16
    let (flag, headerBuf) ← headerBuf.getU8
    let (streamID, headerBuf) ← headerBuf.getU32
    let (headerFmt, headerBuf) ← headerBuf.getU8
    let (high, headerBuf) ← headerBuf.getU8
    let (low, _) ← headerBuf.getU16
    let headerLen : UInt32 := high.toUInt32 <<< 16 ||| low.toUInt32
    -- add the length field's width, take the checksum's off, in `uint32`
    let payloadLen : UInt32 := frameLen + 4 - UInt32.ofNat fixedHeaderLen - headerLen - 4
    let (header, payload, r) ← readBody spare r headerLen payloadLen
    pure (⟨opCode.toInt16, flag, streamID, headerFmt, header, payload⟩, r)

/-- `startWrite`: the fixed header with a zero length, patched in later. -/
def startWrite (frame : BaseFrame) : List UInt8 :=
  let headerLen := (frame.header.getD []).length
  be32 0 ++ [magicCode] ++ be16 frame.opCode.toUInt16 ++ [frame.flag] ++ be32 frame.streamID ++
    [frame.headerFmt] ++
    [UInt8.ofNat (headerLen >>> 16), UInt8.ofNat (headerLen >>> 8), UInt8.ofNat headerLen]

/-- `endWrite`: the length, the bytes after the length field, over the first
four bytes. -/
def endWrite (wbuf : List UInt8) : Except FramerError (List UInt8) :=
  let length := wbuf.length - 4
  if length > maxFrameLen then .error (.frameTooLarge length maxFrameLen)
  else .ok (be32 (UInt32.ofNat length) ++ wbuf.drop 4)

/-- `Framer.WriteFrame`: the bytes of its one `Write`. -/
def writeFrame (frame : BaseFrame) : Except FramerError (List UInt8) :=
  let wbuf := startWrite frame
  let wbuf := match frame.header with
    | some header => wbuf ++ header
    | none => wbuf
  let wbuf := match frame.payload with
    | some payload => wbuf ++ payload ++ be32 (crc32 payload)
    -- dummy checksum
    | none => wbuf ++ be32 0
  endWrite wbuf

/-! ## The lengths of the fixed header -/

/-- The header length Go assembles from the high byte and the 16-bit word is
the 24-bit number they spell. -/
theorem toNat_headerLen (high : UInt8) (low : UInt16) :
    (high.toUInt32 <<< 16 ||| low.toUInt32).toNat = low.toNat + high.toNat * 2 ^ 16 := by
  have hlow : low.toNat < 2 ^ 16 := low.toNat_lt
  have hhigh : high.toNat < 2 ^ 8 := high.toNat_lt
  simp only [UInt32.toNat_or, UInt32.toNat_shiftLeft, UInt8.toNat_toUInt32, UInt16.toNat_toUInt32]
  have hshift : high.toNat <<< ((16 : UInt32).toNat % 32) % 2 ^ 32 = high.toNat <<< 16 := by
    simp only [show (16 : UInt32).toNat % 32 = 16 from rfl, Nat.shiftLeft_eq]
    omega
  rw [hshift, ← Nat.shiftLeft_add_eq_or_of_lt hlow, Nat.shiftLeft_eq]
  omega

theorem payloadLen_eq (frameLen headerLen : UInt32) :
    frameLen + 4 - UInt32.ofNat fixedHeaderLen - headerLen - 4 = frameLen - 16 - headerLen := by
  have h16 : UInt32.ofNat fixedHeaderLen = 16 := rfl
  rw [h16]
  grind

/-- The allocation is the frame length less the fixed header, whatever the
header length: the wraparound of the payload length cancels in the sum. -/
theorem headerLen_add_payloadLen (frameLen headerLen : UInt32) :
    headerLen + (frameLen - 16 - headerLen) = frameLen - 16 := by
  grind

theorem toNat_sub_sixteen {frameLen : UInt32} (h : 16 ≤ frameLen.toNat) :
    (frameLen - 16).toNat = frameLen.toNat - 16 := by
  have hlt := frameLen.toNat_lt
  rw [UInt32.toNat_sub]
  simp only [UInt32.reduceToNat]
  omega

/-! ## Reading a frame -/

section Read

variable {ε : Type} {headerLen payloadLen : UInt32} {header payload : List UInt8}

theorem sliceHeader_eq (hh : headerLen.toNat = header.length) (s : List UInt8) :
    sliceHeader ⟨header ++ payload, s⟩ headerLen = .ok (if header = [] then none else some header) := by
  by_cases h0 : header = []
  · have : headerLen = 0 := UInt32.toNat_inj.mp (by simp [hh, h0])
    simp [sliceHeader, this, h0]
  · have : headerLen ≠ 0 := fun h => h0 (List.length_eq_zero_iff.mp (by simp [← hh, h]))
    have hslice : (Slice.mk (header ++ payload) s).sliceTo header.length =
        (.ok header : Outcome FramerError (List UInt8)) := by
      rw [Slice.sliceTo_of_le (by simp)]
      simp
    simp [sliceHeader, this, h0, hh, hslice]

theorem slicePayload_eq (hh : headerLen.toNat = header.length) (hp : payloadLen.toNat = payload.length)
    (s : List UInt8) :
    slicePayload ⟨header ++ payload, s⟩ headerLen payloadLen =
      .ok (if payload = [] then none else some payload) := by
  by_cases h0 : payload = []
  · have : payloadLen = 0 := UInt32.toNat_inj.mp (by simp [hp, h0])
    simp [slicePayload, this, h0]
  · have : payloadLen ≠ 0 := fun h => h0 (List.length_eq_zero_iff.mp (by simp [← hp, h]))
    simp [slicePayload, this, h0, Slice.sliceFrom, hh]

/-- A header longer than the buffer makes the payload's slice panic, if
there is a payload. -/
theorem slicePayload_of_lt {tBuf : Slice} (hlt : tBuf.bytes.length < headerLen.toNat)
    (hp : payloadLen ≠ 0) : slicePayload tBuf headerLen payloadLen = .panic := by
  simp [slicePayload, hp, Slice.sliceFrom_of_gt hlt]

/-- The header's slice returns or panics; it never fails with an error. -/
theorem sliceHeader_cases (tBuf : Slice) (headerLen : UInt32) :
    sliceHeader tBuf headerLen = .panic ∨ ∃ h, sliceHeader tBuf headerLen = .ok h := by
  unfold sliceHeader Slice.sliceTo
  split_ifs <;> simp

/-- `readBody` on the header, the payload and the checksum field. -/
theorem readBody_eq (hh : headerLen.toNat = header.length) (hp : payloadLen.toNat = payload.length)
    (hsize : header.length + payload.length < 2 ^ 32) (spare : Nat → List UInt8) (ck : UInt32)
    (rest : List UInt8) (pos : Nat) :
    readBody spare ⟨header ++ (payload ++ (be32 ck ++ rest)), pos⟩ headerLen payloadLen =
      if 0 < payload.length ∧ crc32 payload ≠ ck then .error (.payloadChecksumMismatch (crc32 payload) ck)
      else .ok (if header = [] then none else some header, if payload = [] then none else some payload,
        ⟨rest, pos + (header.length + payload.length) + 4⟩) := by
  have hsz : (headerLen + payloadLen).toNat = header.length + payload.length := by
    rw [UInt32.toNat_add, hh, hp, Nat.mod_eq_of_lt hsize]
  have htake : (Cursor.mk (header ++ (payload ++ (be32 ck ++ rest))) pos).take (header.length + payload.length) =
      some (header ++ payload, ⟨be32 ck ++ rest, pos + (header.length + payload.length)⟩) := by
    rw [← List.append_assoc]
    exact take_append (List.length_append)
  have hget : (if payload = [] then none else some payload).getD [] = payload := by
    split_ifs with h0 <;> simp [h0]
  have hpos : payloadLen > 0 ↔ 0 < payload.length := by
    rw [gt_iff_lt, UInt32.lt_iff_toNat_lt, hp]
    rfl
  simp only [readBody, hsz, htake, sliceHeader_eq hh, slicePayload_eq hh hp, ok_bind, getU32_append,
    hget, hpos]
  split_ifs <;> rfl

/-- A header length past the buffer's end panics once the buffer is read,
whatever the capacity holds. -/
theorem readBody_header_past_end (hlt : (headerLen + payloadLen).toNat < headerLen.toNat)
    (hp : payloadLen ≠ 0) {r : Cursor} (hr : (headerLen + payloadLen).toNat ≤ r.rest.length)
    (spare : Nat → List UInt8) : readBody spare r headerLen payloadLen = .panic := by
  obtain ⟨rest, pos⟩ := r
  obtain ⟨bytes, rest, rfl, hbytes⟩ := exists_append_of_le hr
  have htake := @take_append bytes rest _ pos hbytes
  simp only [readBody, htake]
  have hpanic : slicePayload ⟨bytes, spare (headerLen + payloadLen).toNat⟩ headerLen payloadLen = .panic :=
    slicePayload_of_lt (by simpa [hbytes] using hlt) hp
  rcases sliceHeader_cases ⟨bytes, spare (headerLen + payloadLen).toNat⟩ headerLen with hh | ⟨h, hh⟩
  · rw [hh, panic_bind]
  · rw [hh, ok_bind, hpanic, panic_bind]

end Read

/-- `ReadFrame` on a fixed header: the length and magic code checks, then the
body, with the payload length in `uint32`. -/
theorem readFrame_fixedHeader (spare : Nat → List UInt8) (fl : UInt32) (m : UInt8) (op : UInt16)
    (f : UInt8) (sid : UInt32) (t high : UInt8) (low : UInt16) (rest : List UInt8) (pos : Nat) :
    readFrame spare
        ⟨be32 fl ++ (m :: (be16 op ++ (f :: (be32 sid ++ (t :: (high :: (be16 low ++ rest))))))), pos⟩ =
      if fl.toNat < minFrameLen then .error (.frameTooSmall fl.toNat minFrameLen)
      else if fl.toNat > maxFrameLen then .error (.frameTooLarge fl.toNat maxFrameLen)
      else if m ≠ magicCode then .error (.magicCodeMismatch m magicCode)
      else (do
        let headerLen := high.toUInt32 <<< 16 ||| low.toUInt32
        let (header, payload, r) ← readBody spare ⟨rest, pos + 16⟩ headerLen (fl - 16 - headerLen)
        pure (⟨op.toInt16, f, sid, t, header, payload⟩, r)) := by
  -- the sixteen bytes of the fixed header, read whole into `buf`
  set buf := be32 fl ++ (m :: (be16 op ++ (f :: (be32 sid ++ (t :: (high :: (be16 low ++ []))))))) with hbuf
  have hsplit : be32 fl ++ (m :: (be16 op ++ (f :: (be32 sid ++ (t :: (high :: (be16 low ++ rest))))))) =
      buf ++ rest := by
    simp [hbuf]
  have htake : (Cursor.mk (buf ++ rest) pos).take fixedHeaderLen = some (buf, ⟨rest, pos + fixedHeaderLen⟩) :=
    take_append (by simp [hbuf, fixedHeaderLen])
  rw [hsplit, readFrame, htake]
  simp only [hbuf, Cursor.new, getU32_append, getU8_cons, getU16_append, liftM_some, ok_bind, payloadLen_eq]
  rfl

/-- What `ReadFrame` makes of a frame on the wire: the fixed header's fields
as they are, and `nil` for an empty header or payload. -/
def ofWire (w : Wire) : BaseFrame where
  opCode := w.operationCode.toInt16
  flag := w.flag
  streamID := w.streamId
  headerFmt := w.headerFormat
  header := if w.header = [] then none else some w.header
  payload := if w.payload = [] then none else some w.payload

/-- `ReadFrame` reads every frame that `Frame::check` accepts whole and stops
after its checksum, whatever the pooled buffer held. -/
theorem readFrame_wire {w : Wire} (hw : w.Valid) (spare : Nat → List UInt8) (rest : List UInt8)
    (pos : Nat) : readFrame spare ⟨w.bytes ++ rest, pos⟩ = .ok (ofWire w, ⟨rest, pos + w.bytes.length⟩) := by
  obtain ⟨high, low, hsplit, hread⟩ := headerLength_toBytes hw.headerLength_lt
  have hfl := hw.frameLength_eq
  have hhl := hw.headerLength_eq
  have hmax := hw.le_max
  simp only [Wire.bytes, hsplit, List.append_assoc, List.cons_append, readFrame_fixedHeader]
  have hMIN : minFrameLen = 16 := rfl
  have hmagic : ¬ w.magicCode ≠ magicCode := not_not.mpr hw.magicCode_eq
  rw [if_neg (by omega), if_neg (by simp only [MAX_FRAME_LENGTH, maxFrameLen] at hmax ⊢; omega), if_neg hmagic]
  set headerLen := high.toUInt32 <<< 16 ||| low.toUInt32 with hheaderLen
  have hh : headerLen.toNat = w.header.length := by
    rw [hheaderLen, toNat_headerLen, hread, hhl]
  have hsize : w.header.length + w.payload.length < 2 ^ 32 := by
    simp only [MAX_FRAME_LENGTH] at hmax
    omega
  have hp : (w.frameLength - 16 - headerLen).toNat = w.payload.length := by
    rw [UInt32.toNat_sub, toNat_sub_sixteen (by omega), hh]
    omega
  -- a valid frame's checksum matches its payload
  have hck : ¬ (0 < w.payload.length ∧ crc32 w.payload ≠ w.checksum) :=
    fun h => h.2 (hw.checksum_eq (List.ne_nil_of_length_pos h.1)).symm
  rw [readBody_eq hh hp hsize spare w.checksum rest, if_neg hck]
  simp only [ok_bind, pure_eq, ofWire, List.length_append, List.length_cons, length_be32, length_be16]
  congr 3
  omega

/-- A header length past the frame's end makes `ReadFrame` panic once the
reader holds the bytes the frame length promises: the wrapped `uint32`
payload length cancels in the allocation, which is then too short for the
header, and `tBuf[headerLen:]` slices past its length. -/
theorem readFrame_header_past_frame (spare : Nat → List UInt8) {fl : UInt32} (hmin : minFrameLen ≤ fl.toNat)
    (hmax : fl.toNat ≤ maxFrameLen) (op : UInt16) (f : UInt8) (sid : UInt32) (t : UInt8) {hl : Nat}
    (hl24 : hl < 2 ^ 24) (hhl : fl.toNat - 16 < hl) {rest : List UInt8} (hrest : fl.toNat - 16 ≤ rest.length)
    (pos : Nat) :
    readFrame spare
      ⟨be32 fl ++ (magicCode :: (be16 op ++ (f :: (be32 sid ++ (t :: (toBytes 3 hl ++ rest)))))), pos⟩ = .panic := by
  obtain ⟨high, low, hsplit, hread⟩ := headerLength_toBytes hl24
  have hMIN : minFrameLen = 16 := rfl
  simp only [hsplit, List.cons_append, readFrame_fixedHeader]
  rw [if_neg (by omega), if_neg (by omega), if_neg (not_not.mpr rfl)]
  set headerLen := high.toUInt32 <<< 16 ||| low.toUInt32 with hheaderLen
  have hh : headerLen.toNat = hl := by rw [hheaderLen, toNat_headerLen, hread]
  have hsize : (headerLen + (fl - 16 - headerLen)).toNat = fl.toNat - 16 := by
    rw [headerLen_add_payloadLen, toNat_sub_sixteen (by omega)]
  -- the payload length is not zero: it would make the header fill the frame
  have hpl : fl - 16 - headerLen ≠ 0 := by
    intro h0
    have : fl - 16 = headerLen := by
      rw [← headerLen_add_payloadLen fl headerLen, h0, UInt32.add_zero]
    have := congrArg UInt32.toNat this
    rw [toNat_sub_sixteen (by omega), hh] at this
    omega
  rw [readBody_header_past_end (by omega) hpl (by rw [hsize]; exact hrest), panic_bind]

/-- A fixed header of frame length 16 that declares a one-byte header, and a
zero checksum field. Rust's `check` rejects it as `BadFrame`; Go's
`ReadFrame` panics, whatever the pooled buffer held. -/
theorem readFrame_panics_on_one_byte_header :
    (∀ (spare : Nat → List UInt8) (pos : Nat),
      readFrame spare ⟨[0, 0, 0, 16, 23, 0, 0, 0, 0, 0, 0, 1, 0, 0, 0, 1, 0, 0, 0, 0], pos⟩ = .panic) ∧
    Frame.check (Cursor.new [0, 0, 0, 16, 23, 0, 0, 0, 0, 0, 0, 1, 0, 0, 0, 1, 0, 0, 0, 0]) =
      .error (.badFrame (.headerTooLong 1 16)) := by
  refine ⟨fun spare pos => ?_, by decide⟩
  have hbytes : ([0, 0, 0, 16, 23, 0, 0, 0, 0, 0, 0, 1, 0, 0, 0, 1, 0, 0, 0, 0] : List UInt8) =
      be32 16 ++ (magicCode :: (be16 0 ++ (0 :: (be32 1 ++ (0 :: (toBytes 3 1 ++ [0, 0, 0, 0])))))) := by
    decide
  rw [hbytes]
  exact readFrame_header_past_frame spare (by decide) (by decide) 0 0 1 0 (by decide) (by decide) (by decide) pos

/-! ## Writing a frame -/

/-- The frame `WriteFrame` lays down. -/
def BaseFrame.wire (frame : BaseFrame) : Wire where
  frameLength := UInt32.ofNat (16 + (frame.header.getD []).length + (frame.payload.getD []).length)
  magicCode := magicCode
  operationCode := frame.opCode.toUInt16
  flag := frame.flag
  streamId := frame.streamID
  headerFormat := frame.headerFmt
  headerLength := (frame.header.getD []).length
  header := frame.header.getD []
  payload := frame.payload.getD []
  checksum := match frame.payload with
    | some payload => crc32 payload
    | none => 0

/-- The three bytes `startWrite` writes for the header length are the low
three of the number, most significant first. -/
theorem toBytes_three (n : Nat) :
    toBytes 3 n = [UInt8.ofNat (n >>> 16), UInt8.ofNat (n >>> 8), UInt8.ofNat n] := by
  simp [toBytes, Nat.shiftRight_eq_div_pow, Nat.div_div_eq_div_mul]

theorem startWrite_eq (frame : BaseFrame) :
    startWrite frame = be32 0 ++ (magicCode :: (be16 frame.opCode.toUInt16 ++ (frame.flag ::
      (be32 frame.streamID ++ (frame.headerFmt :: toBytes 3 (frame.header.getD []).length))))) := by
  simp [startWrite, toBytes_three]

/-- `endWrite` over the zero length `startWrite` left: the length of what
follows it, patched in. -/
theorem endWrite_zero (rest : List UInt8) :
    endWrite (be32 0 ++ rest) =
      if rest.length > maxFrameLen then .error (.frameTooLarge rest.length maxFrameLen)
      else .ok (be32 (UInt32.ofNat rest.length) ++ rest) := by
  have hdrop : (be32 0 ++ rest).drop 4 = rest := List.drop_left' (length_be32 0)
  simp only [endWrite, List.length_append, length_be32, Nat.add_sub_cancel_left, hdrop]

/-- `WriteFrame` writes the frame's wire bytes, or fails on a frame longer
than `_maxFrameLen`. -/
theorem writeFrame_eq (frame : BaseFrame) :
    writeFrame frame =
      if 16 + (frame.header.getD []).length + (frame.payload.getD []).length > maxFrameLen then
        .error (.frameTooLarge (16 + (frame.header.getD []).length + (frame.payload.getD []).length) maxFrameLen)
      else .ok frame.wire.bytes := by
  -- what follows the length field: the fixed header's rest, header, payload, checksum
  set rest := magicCode :: (be16 frame.opCode.toUInt16 ++ (frame.flag :: (be32 frame.streamID ++
    (frame.headerFmt :: (toBytes 3 (frame.header.getD []).length ++ (frame.header.getD [] ++
      (frame.payload.getD [] ++ be32 frame.wire.checksum))))))) with hrest
  have hwrite : writeFrame frame = endWrite (be32 0 ++ rest) := by
    rcases frame with ⟨op, flag, sid, fmt, _ | header, _ | payload⟩ <;>
    simp [hrest, writeFrame, startWrite_eq, BaseFrame.wire]
  have hlen : rest.length = 16 + (frame.header.getD []).length + (frame.payload.getD []).length := by
    simp only [hrest, List.length_cons, List.length_append, length_be16, length_be32, length_toBytes]
    omega
  rw [hwrite, endWrite_zero, hlen]
  simp only [BaseFrame.wire, Wire.bytes, hrest]

theorem BaseFrame.wire_valid {frame : BaseFrame}
    (h : 16 + (frame.header.getD []).length + (frame.payload.getD []).length ≤ maxFrameLen) :
    frame.wire.Valid := by
  have hlt : 16 + (frame.header.getD []).length + (frame.payload.getD []).length < 2 ^ 32 := by
    simp only [maxFrameLen] at h
    omega
  refine ⟨⟨?_, rfl, ?_⟩, rfl, ?_, ?_⟩
  · simp only [BaseFrame.wire, UInt32.toNat_ofNat', Nat.mod_eq_of_lt hlt]
  · simp only [BaseFrame.wire, maxFrameLen] at h ⊢
    omega
  · simpa only [BaseFrame.wire, UInt32.toNat_ofNat', Nat.mod_eq_of_lt hlt, MAX_FRAME_LENGTH, maxFrameLen]
      using h
  · intro hne
    cases hp : frame.payload with
    | none => simp [BaseFrame.wire, hp] at hne
    | some payload => simp [BaseFrame.wire, hp]

/-- What `WriteFrame` writes is a valid frame on the wire. -/
theorem writeFrame_eq_ok {frame : BaseFrame} {bytes : List UInt8} (h : writeFrame frame = .ok bytes) :
    bytes = frame.wire.bytes ∧ frame.wire.Valid := by
  rw [writeFrame_eq] at h
  split_ifs at h with hmax
  cases h
  exact ⟨rfl, BaseFrame.wire_valid (Nat.not_lt.mp hmax)⟩

/-- Rust's `check` and `parse` take what Go writes: `check` accepts it whole
and `parse` reads it to its end. -/
theorem check_writeFrame {frame : BaseFrame} {bytes : List UInt8} (h : writeFrame frame = .ok bytes) :
    Frame.check (Cursor.new bytes) = .ok ⟨[], bytes.length⟩ ∧
      Frame.parse (Cursor.new bytes) = .ok (frame.wire.frame, ⟨[], bytes.length⟩) := by
  obtain ⟨rfl, hw⟩ := writeFrame_eq_ok h
  have hnew : Cursor.new frame.wire.bytes = ⟨frame.wire.bytes ++ [], 0⟩ := by simp [Cursor.new]
  have hfl := hw.frameLength_eq
  have hmax := hw.le_max
  -- the payload's length and the checksum field fit in 32 bits: no truncated count
  have htrunc : ¬ (0 < frame.wire.payload.length ∧
      (frame.wire.payload.length + 4 + ([] : List UInt8).length) % 2 ^ 32 < frame.wire.payload.length) := by
    simp only [MAX_FRAME_LENGTH] at hmax
    rintro ⟨-, hlt⟩
    rw [Nat.mod_eq_of_lt (by simp; omega)] at hlt
    omega
  rw [hnew, Frame.check_wire hw, if_neg htrunc, Frame.parse_wire hw.toFramed]
  simp

/-- What Rust's `parse` makes of a frame Go writes. -/
theorem BaseFrame.frame_wire (frame : BaseFrame) :
    frame.wire.frame =
      ⟨frame.opCode, frame.flag, frame.streamID, (HeaderFormat.tryFrom frame.headerFmt).getD .unknown,
        if (frame.header.getD []).length = 0 then none else some (frame.header.getD []),
        if (frame.payload.getD []).length = 0 then none else some [frame.payload.getD []]⟩ := by
  simp only [Wire.frame, BaseFrame.wire, Int16.toInt16_toUInt16, Nat.pos_iff_ne_zero]
  split_ifs <;> simp_all

/-! ## Agreement with the Rust codec -/

/-- A Rust frame in Go's terms: the format as its byte, the payload's slices
as one. -/
def ofFrame (f : Frame) : BaseFrame where
  opCode := f.operationCode
  flag := f.flag
  streamID := f.streamId
  headerFmt := f.headerFormat.toU8
  header := f.header
  payload := f.payload.map List.flatten

/-- Go lays a frame down as Rust does: the checksum of the payload's slices is
the checksum of their concatenation. -/
theorem wire_ofFrame (f : Frame) : (ofFrame f).wire = f.wire := by
  rcases f with ⟨op, flag, sid, fmt, h, _ | payload⟩ <;>
  simp [ofFrame, BaseFrame.wire, Frame.wire, crc32Vectored_eq, List.length_flatten, magicCode, MAGIC_CODE]

/-- Go writes the bytes of Rust's `encode`, slices joined. -/
theorem writeFrame_ofFrame {f : Frame} {parts : List (List UInt8)} (h : f.encode = .ok parts) :
    writeFrame (ofFrame f) = .ok parts.flatten := by
  obtain ⟨hbytes, hw⟩ := Frame.encode_eq_ok h
  have hmax := hw.le_max
  have hfl := hw.frameLength_eq
  rw [writeFrame_eq, wire_ofFrame, hbytes, if_neg]
  rw [← wire_ofFrame] at hmax hfl
  simp only [BaseFrame.wire, MAX_FRAME_LENGTH, maxFrameLen] at hmax hfl ⊢
  omega

/-- What Go reads of a frame Rust encodes is what Rust's receiver gets, in
Go's terms. -/
theorem ofWire_wire (f : Frame) : ofWire f.wire = ofFrame f.received := by
  have hheader : (if f.wire.header = [] then none else some f.wire.header) = f.received.header := by
    show (if f.header.getD [] = [] then none else some (f.header.getD [])) = _
    by_cases h0 : f.header.getD [] = [] <;> simp [Frame.received, h0]
  have hpayload : (if f.wire.payload = [] then none else some f.wire.payload) =
      f.received.payload.map List.flatten := by
    show (if (f.payload.getD []).flatten = [] then none else some (f.payload.getD []).flatten) = _
    by_cases h0 : (f.payload.getD []).flatten = [] <;> simp only [Frame.received, List.length_eq_zero_iff, h0]
    · simp
    · simp
  simp only [ofWire, ofFrame, hheader, hpayload]
  simp [Frame.wire, Frame.received]

theorem readFrame_encode {f : Frame} {parts : List (List UInt8)} (h : f.encode = .ok parts)
    (spare : Nat → List UInt8) (rest : List UInt8) (pos : Nat) :
    readFrame spare ⟨parts.flatten ++ rest, pos⟩ = .ok (ofFrame f.received, ⟨rest, pos + parts.flatten.length⟩) := by
  obtain ⟨hbytes, hw⟩ := Frame.encode_eq_ok h
  rw [hbytes, readFrame_wire hw, ofWire_wire]

/-- The Go and Rust frame codecs agree. For the same fields, the payload as
one slice and `nil` as `None`, `WriteFrame` writes the bytes of `encode`
joined; Rust's `check` and `parse` take every frame Go writes; and
`ReadFrame` returns, for every frame Rust encodes, the frame Rust's receiver
gets, whatever the pooled buffer held. -/
theorem writeFrame_agrees_with_encode (op : Int16) (flag : UInt8) (sid : UInt32) (fmt : HeaderFormat)
    (h p : Option (List UInt8)) (hsize : 16 + (h.getD []).length + (p.getD []).length ≤ maxFrameLen) :
    (∃ parts, Frame.encode ⟨op, flag, sid, fmt, h, p.map fun p => [p]⟩ = .ok parts ∧
      writeFrame ⟨op, flag, sid, fmt.toU8, h, p⟩ = .ok parts.flatten) ∧
    (∀ (frame : BaseFrame) (bytes : List UInt8), writeFrame frame = .ok bytes →
      Frame.check (Cursor.new bytes) = .ok ⟨[], bytes.length⟩ ∧
        Frame.parse (Cursor.new bytes) =
          .ok (⟨frame.opCode, frame.flag, frame.streamID, (HeaderFormat.tryFrom frame.headerFmt).getD .unknown,
            if (frame.header.getD []).length = 0 then none else some (frame.header.getD []),
            if (frame.payload.getD []).length = 0 then none else some [frame.payload.getD []]⟩,
            ⟨[], bytes.length⟩)) ∧
    (∀ (f : Frame) (parts : List (List UInt8)), f.encode = .ok parts →
      ∀ (spare : Nat → List UInt8) (rest : List UInt8) (pos : Nat),
        readFrame spare ⟨parts.flatten ++ rest, pos⟩ =
          .ok (ofFrame f.received, ⟨rest, pos + parts.flatten.length⟩)) := by
  refine ⟨?_, fun frame bytes hw => ?_, fun f parts he => readFrame_encode he⟩
  · set rf : Frame := ⟨op, flag, sid, fmt, h, p.map fun p => [p]⟩ with hrf
    -- the bound of `encode` is Go's: the one slice is the payload
    have hle : 16 + (rf.header.getD []).length + ((rf.payload.getD []).map List.length).sum ≤
        MAX_FRAME_LENGTH := by
      cases p <;> simpa [hrf, MAX_FRAME_LENGTH, maxFrameLen] using hsize
    obtain ⟨parts, hparts⟩ := Frame.encode_ok_of_le hle
    have hof : ofFrame rf = ⟨op, flag, sid, fmt.toU8, h, p⟩ := by
      cases p <;> simp [hrf, ofFrame]
    exact ⟨parts, hparts, hof ▸ writeFrame_ofFrame hparts⟩
  · obtain ⟨hcheck, hparse⟩ := check_writeFrame hw
    exact ⟨hcheck, by rw [hparse, BaseFrame.frame_wire]⟩

theorem writeFrame_agrees_with_encode_two_bytes :
    ∃ parts, Frame.encode ⟨1, 0, 1, .flatBuffer, none, some [[1, 2]]⟩ = .ok parts ∧
      writeFrame ⟨1, 0, 1, 1, none, some [1, 2]⟩ = .ok parts.flatten :=
  (writeFrame_agrees_with_encode 1 0 1 .flatBuffer none (some [1, 2]) (by decide)).1

end ElasticStream.Codec.Framer
