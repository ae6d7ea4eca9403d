import Mathlib
import ElasticStream.Codec.Cursor
import ElasticStream.Codec.Crc32

/-! # The frame codec

A frame of the SBP protocol (codec/src/frame.rs) on the wire: a 32-bit
length counting the bytes after it, the magic code, a 16-bit operation code,
a flag byte, a 32-bit stream id, a header format byte and a 24-bit header
length, then the extended header, the payload and the payload's CRC-32.

`Frame::check` decides whether a buffer starts with a whole, well-formed
frame and where it ends; `Frame::parse` decodes one, trusting `check`;
`Frame::encode` writes one as a list of byte slices. A frame as it lies in a
buffer is a `Wire`; the three functions are related through it. -/

namespace ElasticStream.Codec

def MAGIC_CODE : UInt8 := 23
def MIN_FRAME_LENGTH : Nat := 16
def MAX_FRAME_LENGTH : Nat := 16 * 1024 * 1024

inductive HeaderFormat where
  | unknown
  | flatBuffer
  | protoBuffer
  | json
  deriving DecidableEq, Repr

namespace HeaderFormat

/-- `u8::from(HeaderFormat)`. -/
def toU8 : HeaderFormat → UInt8
  | unknown => 0
  | flatBuffer => 1
  | protoBuffer => 2
  | json => 3

/-- `HeaderFormat::try_from(u8)`. -/
def tryFrom (b : UInt8) : Option HeaderFormat :=
  if b = 0 then some unknown
  else if b = 1 then some flatBuffer
  else if b = 2 then some protoBuffer
  else if b = 3 then some json
  else none

@[simp] theorem tryFrom_toU8 (f : HeaderFormat) : tryFrom f.toU8 = some f := by
  cases f <;> rfl

end HeaderFormat

/-- The reasons of `FrameError::BadFrame`, with the numbers its messages print. -/
inductive BadFrame where
  /-- "Length of the incoming frame is: {frame_length}, less than the minimum possible: 16" -/
  | frameTooShort (frameLength minimum : Nat)
  /-- "Header length[{header_length}] exceeds maximum value possible given that frame-length is {frame_length}" -/
  | headerTooLong (headerLength frameLength : Nat)
  /-- "Payload length[{payload_length}] exceeds maximum value possible given that frame-length is
  {frame_length} and header-length is {header_length}" -/
  | payloadTooLong (payloadLength frameLength headerLength : Nat)
  deriving DecidableEq, Repr

inductive FrameError where
  | incomplete
  | badFrame (reason : BadFrame)
  | tooLongFrame (found max : Nat)
  | magicCodeMismatch (found expected : UInt8)
  | payloadChecksumMismatch (expected actual : UInt32)
  | connectionReset
  deriving DecidableEq, Repr

structure Frame where
  operationCode : Int16
  flag : UInt8
  streamId : UInt32
  headerFormat : HeaderFormat
  header : Option (List UInt8)
  payload : Option (List (List UInt8))
  deriving DecidableEq, Repr

namespace Frame

open Outcome

/-- The end of `Frame::check`, from the payload on: the payload if the
lengths leave one, then the checksum field. -/
def checkPayload (frameLength headerLength : Nat) (src : Cursor) : Outcome FrameError Cursor := do
  let (payload, src) ← if headerLength + MIN_FRAME_LENGTH < frameLength then do
      let payloadLength := frameLength - headerLength - MIN_FRAME_LENGTH
      -- `src.remaining() as u32`: the count is cut to 32 bits
      if payloadLength > src.remaining % 2 ^ 32 then
        .error (.badFrame (.payloadTooLong payloadLength frameLength headerLength))
      else do
        let (body, src) ← src.take payloadLength
        pure (some body, src)
    else pure (none, src)
  assert (src.remaining ≥ 4)
  match payload with
  | some body => do
    let (checksum, src) ← src.getU32
    let ckm := crc32 body
    if checksum ≠ ckm then .error (.payloadChecksumMismatch checksum ckm) else pure src
  | none => src.advance 4

/-- `Frame::check`. -/
def check (src : Cursor) : Outcome FrameError Cursor :=
  match src.getU32 with
  | none => .error .incomplete
  | some (frameLength, src) =>
    let frameLength := frameLength.toNat
    if frameLength < MIN_FRAME_LENGTH then
      .error (.badFrame (.frameTooShort frameLength MIN_FRAME_LENGTH))
    else if frameLength > MAX_FRAME_LENGTH then
      .error (.tooLongFrame frameLength MAX_FRAME_LENGTH)
    -- the frame is not all in the buffer yet
    else if src.remaining < frameLength then .error .incomplete
    else do
      let (magicCode, src) ← src.getU8
      if MAGIC_CODE ≠ magicCode then .error (.magicCodeMismatch magicCode MAGIC_CODE) else
      -- operation code, flag, stream id, header format
      let src ← src.advance 2
      let src ← src.advance 1
      let src ← src.advance 4
      let src ← src.advance 1
      let (high, src) ← src.getU8
      let (low, src) ← src.getU16
      let headerLength := low.toNat + high.toNat * 2 ^ 16
      if headerLength > frameLength - MIN_FRAME_LENGTH then
        .error (.badFrame (.headerTooLong headerLength frameLength))
      else do
        let src ← src.advance headerLength
        checkPayload frameLength headerLength src

/-- `Frame::parse`. Its `remaining` counter is `u32`, whose subtractions
panic on underflow. -/
def parse (src : Cursor) : Outcome FrameError (Frame × Cursor) := do
  let (frameLength, src) ← src.getU32
  let remaining := frameLength.toNat
  -- magic code
  let src ← src.advance 1
  let remaining ← sub remaining 1
  let (opCode, src) ← src.getU16
  let remaining ← sub remaining 2
  let (flag, src) ← src.getU8
  let remaining ← sub remaining 1
  let (streamId, src) ← src.getU32
  let remaining ← sub remaining 4
  let (headerFormat, src) ← src.getU8
  let remaining ← sub remaining 1
  let headerFormat := (HeaderFormat.tryFrom headerFormat).getD .unknown
  let (high, src) ← src.getU8
  let (low, src) ← src.getU16
  let headerLength := low.toNat + high.toNat * 2 ^ 16
  let remaining ← sub remaining 3
  let (header, src) ← if headerLength > 0 then do
      let (header, src) ← src.take headerLength
      pure (some header, src)
    else pure (none, src)
  let remaining ← sub remaining headerLength
  let payloadLength ← sub remaining 4
  let (payload, src) ← if payloadLength > 0 then do
      let (payload, src) ← src.take payloadLength
      pure (some [payload], src)
    else pure (none, src)
  let remaining ← sub remaining payloadLength
  -- payload checksum
  let src ← src.advance 4
  let remaining ← sub remaining 4
  assert (0 = remaining)
  pure (⟨opCode.toInt16, flag, streamId, headerFormat, header, payload⟩, src)

/-- `Frame::encode`: the fixed header and the extended header in one slice,
then the payload's slices and the checksum. -/
def encode (self : Frame) : Except FrameError (List (List UInt8)) :=
  let headerLen := match self.header with
    | some header => header.length
    | none => 0
  let payloadLen := ((self.payload.getD []).map List.length).sum
  let frameLength := 16 + headerLen + payloadLen
  if frameLength > MAX_FRAME_LENGTH then
    .error (.tooLongFrame (frameLength % 2 ^ 32) MAX_FRAME_LENGTH)
  else
    let basicPart := be32 (UInt32.ofNat frameLength) ++ [MAGIC_CODE] ++
      be16 self.operationCode.toUInt16 ++ [self.flag] ++ be32 self.streamId ++
      [self.headerFormat.toU8] ++
      match self.header with
      | some header => (be32 (UInt32.ofNat header.length)).drop 1 ++ header
      | none => [0] ++ be16 0
    match self.payload with
    | some payload => .ok (basicPart :: payload ++ [be32 (crc32Vectored payload)])
    -- a dummy checksum
    | none => .ok [basicPart, [0, 0, 0, 0]]

end Frame

/-! ## A frame as it lies in a buffer -/

/-- The fields of one frame in the order they are laid out: the fixed
header's, the extended header, the payload and the checksum field. -/
structure Wire where
  frameLength : UInt32
  magicCode : UInt8
  operationCode : UInt16
  flag : UInt8
  streamId : UInt32
  headerFormat : UInt8
  headerLength : Nat
  header : List UInt8
  payload : List UInt8
  checksum : UInt32
  deriving DecidableEq, Repr

namespace Wire

def bytes (w : Wire) : List UInt8 :=
  be32 w.frameLength ++ (w.magicCode :: (be16 w.operationCode ++ (w.flag :: (be32 w.streamId ++
    (w.headerFormat :: (toBytes 3 w.headerLength ++ (w.header ++ (w.payload ++ be32 w.checksum))))))))

/-- The lengths agree: the length field counts the 12 bytes of the fixed
header after it, the header, the payload and the checksum. -/
structure Framed (w : Wire) : Prop where
  frameLength_eq : w.frameLength.toNat = 16 + w.header.length + w.payload.length
  headerLength_eq : w.headerLength = w.header.length
  headerLength_lt : w.headerLength < 2 ^ 24

/-- A frame `check` accepts. -/
structure Valid (w : Wire) : Prop extends w.Framed where
  magicCode_eq : w.magicCode = MAGIC_CODE
  le_max : w.frameLength.toNat ≤ MAX_FRAME_LENGTH
  checksum_eq : w.payload ≠ [] → w.checksum = crc32 w.payload

/-- What `parse` makes of the frame. -/
def frame (w : Wire) : Frame where
  operationCode := w.operationCode.toInt16
  flag := w.flag
  streamId := w.streamId
  headerFormat := (HeaderFormat.tryFrom w.headerFormat).getD .unknown
  header := if w.headerLength > 0 then some w.header else none
  payload := if w.payload.length > 0 then some [w.payload] else none

theorem length_bytes (w : Wire) :
    w.bytes.length = 20 + w.header.length + w.payload.length := by
  simp [bytes]
  omega

theorem Framed.length_bytes {w : Wire} (hw : w.Framed) : w.bytes.length = w.frameLength.toNat + 4 := by
  rw [Wire.length_bytes, hw.frameLength_eq]
  omega

/-- A valid frame is at most `MAX_FRAME_LENGTH + 4` bytes on the wire. -/
theorem Valid.length_le {w : Wire} (hw : w.Valid) : w.bytes.length ≤ MAX_FRAME_LENGTH + 4 := by
  rw [hw.length_bytes]
  exact Nat.add_le_add_right hw.le_max 4

end Wire

/-- The three bytes of a header length are its high byte and a 16-bit word. -/
theorem toBytes_headerLength (high : UInt8) (low : UInt16) :
    toBytes 3 (low.toNat + high.toNat * 2 ^ 16) = high :: be16 low := by
  have hlow := low.toNat_lt
  have hhigh := high.toNat_lt
  have hdiv : (low.toNat + high.toNat * 2 ^ 16) / 256 ^ 2 = high.toNat := by omega
  have hmod : (low.toNat + high.toNat * 2 ^ 16) % 256 ^ 2 = low.toNat := by omega
  rw [toBytes_succ_eq_cons, hdiv, ← toBytes_mod, hmod, UInt8.ofNat_toNat]
  rfl

/-- The high byte and the word read back from three bytes spell the length. -/
theorem headerLength_toBytes {n : Nat} (h : n < 2 ^ 24) :
    ∃ high low, toBytes 3 n = high :: be16 low ∧ low.toNat + high.toNat * 2 ^ 16 = n := by
  refine ⟨UInt8.ofNat (n / 2 ^ 16), UInt16.ofNat n, ?_, ?_⟩
  · have h16 : (2 : Nat) ^ 16 = 256 ^ 2 := by norm_num
    rw [toBytes_succ_eq_cons, be16, UInt16.toNat_ofNat', h16, toBytes_mod]
  · simp only [UInt16.toNat_ofNat', UInt8.toNat_ofNat']
    omega

namespace Frame

open Cursor

/-- The payload stage of `check` on the bytes after the header: a payload
of the length the lengths leave, then the checksum field. -/
theorem checkPayload_eq {fl hl : Nat} (hhl : hl + MIN_FRAME_LENGTH ≤ fl) {body tail : List UInt8}
    (hbody : body.length = fl - hl - MIN_FRAME_LENGTH) (ck : UInt32) (pos : Nat) :
    checkPayload fl hl ⟨body ++ (be32 ck ++ tail), pos⟩ =
      if 0 < body.length ∧ (body.length + 4 + tail.length) % 2 ^ 32 < body.length then
        .error (.badFrame (.payloadTooLong body.length fl hl))
      else if 0 < body.length ∧ ck ≠ crc32 body then .error (.payloadChecksumMismatch ck (crc32 body))
      else .ok ⟨tail, pos + body.length + 4⟩ := by
  have hMIN : MIN_FRAME_LENGTH = 16 := rfl
  rcases Nat.eq_zero_or_pos body.length with hp | hp
  · -- no payload: the checksum field is skipped
    obtain rfl := List.length_eq_zero_iff.mp hp
    rw [checkPayload, if_neg (by omega)]
    simp (disch := omega) only [Outcome.pure_eq, Outcome.ok_bind, remaining_mk, List.nil_append,
      List.length_append, length_be32, Outcome.assert_of_true, advance_append (length_be32 _),
      Outcome.liftM_some, List.length_nil, Nat.lt_irrefl, false_and, if_false, Nat.add_zero]
  · rw [checkPayload, if_pos (by omega), ← hbody, remaining_mk, List.length_append, List.length_append,
      length_be32]
    by_cases htrunc : (body.length + 4 + tail.length) % 2 ^ 32 < body.length
    · rw [if_pos (by rwa [← Nat.add_assoc]), if_pos ⟨hp, htrunc⟩]
      rfl
    rw [if_neg (by rwa [← Nat.add_assoc]), if_neg (fun h => htrunc h.2), take_append rfl]
    simp (disch := omega) only [Outcome.liftM_some, Outcome.pure_eq, Outcome.ok_bind, remaining_mk,
      length_be32, List.length_append, Outcome.assert_of_true, getU32_append, hp, true_and]

/-- `check` on a whole frame: it accepts and stops after the checksum, unless
the bytes after the header number `2^32` or more and their count, cut to 32
bits, falls below the payload's length. -/
theorem check_wire {w : Wire} (hw : w.Valid) (tail : List UInt8) (pos : Nat) :
    check ⟨w.bytes ++ tail, pos⟩ =
      if 0 < w.payload.length ∧ (w.payload.length + 4 + tail.length) % 2 ^ 32 < w.payload.length then
        .error (.badFrame (.payloadTooLong w.payload.length w.frameLength.toNat w.headerLength))
      else .ok ⟨tail, pos + w.bytes.length⟩ := by
  obtain ⟨high, low, hsplit, hread⟩ := headerLength_toBytes hw.headerLength_lt
  have hMIN : MIN_FRAME_LENGTH = 16 := rfl
  have hfl := hw.frameLength_eq
  have hhl := hw.headerLength_eq
  have hmax := hw.le_max
  simp only [check, Wire.bytes, hsplit, List.append_assoc, List.cons_append, getU32_append, getU8_cons,
    advance_append (length_be16 _), advance_cons, advance_append (length_be32 _), getU16_append,
    hread, hw.magicCode_eq, Outcome.liftM_some, Outcome.ok_bind, if_neg (Nat.not_lt.mpr hmax),
    remaining_mk, List.length_cons, List.length_append, length_be16, length_be32, ne_eq,
    not_true_eq_false, if_false, advance_append hhl.symm]
  rw [if_neg (by omega), if_neg (by omega), if_neg (by omega),
    checkPayload_eq (by omega) (by omega) w.checksum]
  -- a valid frame's checksum matches its payload
  have hck : ¬ (0 < w.payload.length ∧ w.checksum ≠ crc32 w.payload) :=
    fun h => h.2 (hw.checksum_eq (List.ne_nil_of_length_pos h.1))
  rw [if_neg hck]
  split_ifs
  · rfl
  · simp only [Outcome.ok.injEq, Cursor.mk.injEq, true_and, Wire.length_bytes]
    omega

/-- `parse` on a frame whose lengths agree reads it whole and stops after the
checksum. -/
theorem parse_wire {w : Wire} (hw : w.Framed) (tail : List UInt8) (pos : Nat) :
    parse ⟨w.bytes ++ tail, pos⟩ = .ok (w.frame, ⟨tail, pos + w.bytes.length⟩) := by
  obtain ⟨high, low, hsplit, hread⟩ := headerLength_toBytes hw.headerLength_lt
  have hfl := hw.frameLength_eq
  have hhl := hw.headerLength_eq
  simp only [parse, Wire.bytes, hsplit, List.append_assoc, List.cons_append,
    getU32_append, getU8_cons, advance_cons, getU16_append, getU32_append, hread, Outcome.liftM_some,
    Outcome.ok_bind]
  have hrem : w.frameLength.toNat - 1 - 2 - 1 - 4 - 1 - 3 = 4 + w.header.length + w.payload.length := by
    omega
  have hpl : 4 + w.header.length + w.payload.length - w.header.length - 4 = w.payload.length := by
    omega
  simp (disch := omega) only [Outcome.sub_of_le, Outcome.ok_bind, hrem, hhl, hpl,
    Outcome.assert_of_true, Wire.frame]
  -- an empty header or payload is not read and comes back absent
  rcases Nat.eq_zero_or_pos w.header.length with hh | hh <;>
  rcases Nat.eq_zero_or_pos w.payload.length with hp | hp <;>
  simp [hh, hp, List.length_eq_zero_iff.mp, take_append, advance_append] <;> omega

/-- The twelve bytes of a fixed header after the length field. -/
theorem exists_fixedHeader {l : List UInt8} (h : 12 ≤ l.length) :
    ∃ m op f sid t high low r,
      l = m :: (be16 op ++ (f :: (be32 sid ++ (t :: (high :: (be16 low ++ r)))))) := by
  obtain ⟨m, l, rfl⟩ := List.exists_cons_of_length_pos (by omega : 0 < l.length)
  obtain ⟨op, l, rfl⟩ := exists_be16 (by simp at h; omega : 2 ≤ l.length)
  obtain ⟨f, l, rfl⟩ := List.exists_cons_of_length_pos (by simp at h; omega : 0 < l.length)
  obtain ⟨sid, l, rfl⟩ := exists_be32 (by simp at h; omega : 4 ≤ l.length)
  obtain ⟨t, l, rfl⟩ := List.exists_cons_of_length_pos (by simp at h; omega : 0 < l.length)
  obtain ⟨high, l, rfl⟩ := List.exists_cons_of_length_pos (by simp at h; omega : 0 < l.length)
  obtain ⟨low, r, rfl⟩ := exists_be16 (by simp at h; omega : 2 ≤ l.length)
  exact ⟨m, op, f, sid, t, high, low, r, rfl⟩

/-- Every way `check` can end: with an error, or on a whole valid frame at the
front of the buffer, stopping right after it. It never panics. -/
theorem check_cases (c : Cursor) :
    (∃ e, check c = .error e) ∨
      ∃ (w : Wire) (tail : List UInt8), w.Valid ∧ c.rest = w.bytes ++ tail ∧
        check c = .ok ⟨tail, c.pos + w.bytes.length⟩ := by
  obtain ⟨rest, pos⟩ := c
  rcases Nat.lt_or_ge rest.length 4 with hshort | hlen
  · have hnone : (Cursor.mk rest pos).take 4 = none := take_eq_none hshort
    exact .inl ⟨.incomplete, by simp [check, getU32, hnone]⟩
  obtain ⟨fl, rest, rfl⟩ := exists_be32 hlen
  by_cases hguard : fl.toNat < MIN_FRAME_LENGTH ∨ fl.toNat > MAX_FRAME_LENGTH ∨ rest.length < fl.toNat
  · left
    simp only [check, getU32_append, remaining_mk]
    split_ifs <;> first | exact ⟨_, rfl⟩ | omega
  have hMIN : MIN_FRAME_LENGTH = 16 := rfl
  simp only [not_or, Nat.not_lt] at hguard
  obtain ⟨hmin, hmax, hwhole⟩ := hguard
  obtain ⟨m, op, f, sid, t, high, low, r, rfl⟩ := exists_fixedHeader (by omega : 12 ≤ rest.length)
  simp only [List.length_cons, List.length_append, length_be16, length_be32] at hwhole
  simp only [check, getU32_append, remaining_mk, getU8_cons, advance_append (length_be16 _),
    advance_cons, advance_append (length_be32 _), getU16_append, Outcome.liftM_some,
    Outcome.ok_bind, if_neg (Nat.not_lt.mpr hmin), if_neg (Nat.not_lt.mpr hmax),
    List.length_cons, List.length_append, length_be16, length_be32]
  rw [if_neg (by omega)]
  set hl := low.toNat + high.toNat * 2 ^ 16 with hhl
  by_cases hm : MAGIC_CODE ≠ m
  · exact .inl ⟨_, by rw [if_pos hm]⟩
  rw [if_neg hm]
  by_cases hh : hl > fl.toNat - MIN_FRAME_LENGTH
  · exact .inl ⟨_, by rw [if_pos hh]⟩
  rw [if_neg hh]
  obtain ⟨header, r, rfl, hheader⟩ := exists_append_of_le (by omega : hl ≤ r.length)
  simp only [advance_append hheader, Outcome.liftM_some, Outcome.ok_bind]
  simp only [List.length_append] at hwhole
  -- what follows the header: the payload the lengths leave, then the checksum field
  obtain ⟨body, r, rfl, hbody⟩ :=
    exists_append_of_le (by omega : fl.toNat - hl - MIN_FRAME_LENGTH ≤ r.length)
  simp only [List.length_append] at hwhole
  obtain ⟨ck, tail, rfl⟩ := exists_be32 (by omega : 4 ≤ r.length)
  rw [checkPayload_eq (by omega) hbody ck]
  have hlt : hl < 2 ^ 24 := by have := low.toNat_lt; have := high.toNat_lt; omega
  have hsplit : toBytes 3 hl = high :: be16 low := toBytes_headerLength high low
  have hmagic : m = MAGIC_CODE := (not_not.mp hm).symm
  split_ifs with htrunc hck
  · exact .inl ⟨_, rfl⟩
  · exact .inl ⟨_, rfl⟩
  right
  refine ⟨⟨fl, m, op, f, sid, t, hl, header, body, ck⟩, tail,
    ⟨⟨by simp; omega, hheader.symm, hlt⟩, hmagic, hmax, fun hne => ?_⟩, by simp [Wire.bytes, hsplit], ?_⟩
  · by_contra hne'
    exact hck ⟨List.length_pos_of_ne_nil hne, hne'⟩
  · simp only [Outcome.ok.injEq, Cursor.mk.injEq, true_and, Wire.length_bytes]
    omega

/-- `check` guards `parse`: it never reads past the end of the buffer, and
where it accepts, `parse` from the same start reads the frame without an
underflow or a read past the end and stops where `check` stopped. -/
theorem check_guards_parse (b : List UInt8) :
    check (Cursor.new b) ≠ .panic ∧
      ∀ c, check (Cursor.new b) = .ok c → ∃ frame, parse (Cursor.new b) = .ok (frame, c) := by
  rcases check_cases (Cursor.new b) with ⟨e, he⟩ | ⟨w, tail, hw, hrest, hok⟩
  · refine ⟨by simp [he], fun c hc => ?_⟩
    rw [he] at hc
    cases hc
  · refine ⟨by simp [hok], fun c hc => ⟨w.frame, ?_⟩⟩
    rw [hok] at hc
    cases hc
    have hnew : Cursor.new b = ⟨w.bytes ++ tail, 0⟩ := by rw [← hrest]; rfl
    rw [hnew, parse_wire hw.toFramed]

/-! ## What `encode` writes -/

/-- The frame `encode` lays down. -/
def wire (f : Frame) : Wire where
  frameLength := UInt32.ofNat (16 + (f.header.getD []).length + ((f.payload.getD []).map List.length).sum)
  magicCode := MAGIC_CODE
  operationCode := f.operationCode.toUInt16
  flag := f.flag
  streamId := f.streamId
  headerFormat := f.headerFormat.toU8
  headerLength := (f.header.getD []).length
  header := f.header.getD []
  payload := (f.payload.getD []).flatten
  checksum := match f.payload with
    | some payload => crc32Vectored payload
    | none => 0

/-- The three low bytes of a length below `2^24`, as `encode` cuts them from
its four. -/
theorem tail_be32 {n : Nat} (h : n < 2 ^ 24) : (be32 (UInt32.ofNat n)).tail = toBytes 3 n := by
  rw [be32, UInt32.toNat_ofNat', Nat.mod_eq_of_lt (by omega), toBytes_succ_eq_cons]
  rfl

theorem wire_valid {f : Frame}
    (h : 16 + (f.header.getD []).length + ((f.payload.getD []).map List.length).sum ≤ MAX_FRAME_LENGTH) :
    f.wire.Valid := by
  have hsum : ((f.payload.getD []).map List.length).sum = (f.payload.getD []).flatten.length :=
    List.length_flatten.symm
  have hlt : 16 + (f.header.getD []).length + ((f.payload.getD []).map List.length).sum < 2 ^ 32 := by
    simp only [MAX_FRAME_LENGTH] at h; omega
  refine ⟨⟨?_, rfl, ?_⟩, rfl, ?_, ?_⟩
  · simp only [wire, UInt32.toNat_ofNat', Nat.mod_eq_of_lt hlt]
    omega
  · simp only [wire, MAX_FRAME_LENGTH] at h ⊢; omega
  · simpa only [wire, UInt32.toNat_ofNat', Nat.mod_eq_of_lt hlt] using h
  · intro hne
    cases hp : f.payload with
    | none => simp [wire, hp] at hne
    | some payload => simp [wire, hp, crc32Vectored_eq]

theorem encode_eq_ok {f : Frame} {parts : List (List UInt8)} (h : f.encode = .ok parts) :
    parts.flatten = f.wire.bytes ∧ f.wire.Valid := by
  have hmax : 16 + (f.header.getD []).length + ((f.payload.getD []).map List.length).sum ≤
      MAX_FRAME_LENGTH := by
    by_contra hgt
    rcases f with ⟨_, _, _, _, _ | _, _ | _⟩ <;> simp_all [encode]
  have hvalid := wire_valid hmax
  refine ⟨?_, hvalid⟩
  have hlt : (f.header.getD []).length < 2 ^ 24 := by simpa [wire] using hvalid.headerLength_lt
  rcases f with ⟨op, flag, sid, fmt, _ | header, _ | payload⟩ <;>
  simp only [Option.getD_none, Option.getD_some, List.length_nil, List.map_nil, List.sum_nil] at hlt hmax <;>
  simp [encode] at h <;> rw [if_neg (by omega)] at h <;> simp only [Except.ok.injEq] at h <;> subst h <;>
  simp [wire, Wire.bytes, tail_be32 hlt, be16, (by decide : be32 0 = [0, 0, 0, 0])]

/-- `encode` fails only on a frame longer than `MAX_FRAME_LENGTH`. -/
theorem encode_ok_of_le {f : Frame}
    (h : 16 + (f.header.getD []).length + ((f.payload.getD []).map List.length).sum ≤ MAX_FRAME_LENGTH) :
    ∃ parts, f.encode = .ok parts := by
  rcases f with ⟨op, flag, sid, fmt, _ | header, _ | payload⟩ <;>
  simp only [Option.getD_none, Option.getD_some, List.length_nil, List.map_nil, List.sum_nil] at h ⊢ <;>
  simp only [encode, gt_iff_lt, Option.getD_none, Option.getD_some, List.length_nil, List.map_nil,
    List.sum_nil] <;>
  rw [if_neg (by omega)] <;> exact ⟨_, rfl⟩

/-- The frame a receiver gets for `f`: the fixed header's fields as they
were, an empty header or payload absent, and the payload as one slice. -/
def received (f : Frame) : Frame where
  operationCode := f.operationCode
  flag := f.flag
  streamId := f.streamId
  headerFormat := f.headerFormat
  header := if (f.header.getD []).length = 0 then none else some (f.header.getD [])
  payload := if (f.payload.getD []).flatten.length = 0 then none else some [(f.payload.getD []).flatten]

theorem frame_wire (f : Frame) : f.wire.frame = f.received := by
  simp only [Wire.frame, wire, received, Int16.toInt16_toUInt16, HeaderFormat.tryFrom_toU8,
    Option.getD_some, Nat.pos_iff_ne_zero]
  split_ifs <;> simp_all

/-- The bytes of `f` on the wire: the fixed header, the header, the payload
and the checksum. -/
def encodedLength (f : Frame) : Nat :=
  20 + (f.header.getD []).length + (f.payload.getD []).flatten.length

@[simp] theorem length_wire_bytes (f : Frame) : f.wire.bytes.length = f.encodedLength := by
  simp [Wire.length_bytes, wire, encodedLength]

/-- A buffer that holds only the front of a valid frame is `Incomplete`. -/
theorem check_of_lt {w : Wire} (hw : w.Valid) {b : List UInt8} (hb : b <+: w.bytes)
    (hlt : b.length < w.bytes.length) (pos : Nat) : check ⟨b, pos⟩ = .error .incomplete := by
  rcases Nat.lt_or_ge b.length 4 with hshort | hlen
  · have hnone : (Cursor.mk b pos).take 4 = none := take_eq_none hshort
    simp [check, getU32, hnone]
  -- the length field is whole: the frame's, followed by less than it counts
  obtain ⟨r, hr⟩ : ∃ r, b = be32 w.frameLength ++ r := by
    refine ⟨(w.bytes.drop 4).take (b.length - 4), ?_⟩
    rw [List.prefix_iff_eq_take.mp hb]
    simp only [Wire.bytes, List.take_append, length_be32,
      List.take_of_length_le (by simp; omega : (be32 w.frameLength).length ≤ b.length)]
    simp
  subst hr
  have hfl := hw.frameLength_eq
  have hmax := hw.le_max
  simp only [List.length_append, length_be32, Wire.length_bytes] at hlt
  have hMIN : MIN_FRAME_LENGTH = 16 := rfl
  simp only [check, getU32_append, remaining_mk, if_neg (by omega : ¬ w.frameLength.toNat < MIN_FRAME_LENGTH),
    if_neg (Nat.not_lt.mpr hmax)]
  rw [if_pos (by omega)]

end Frame

end ElasticStream.Codec
