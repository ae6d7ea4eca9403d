import Mathlib
import ElasticStream.Codec.Frame
import ElasticStream.Trace.Reachable

/-! # Reading frames off a connection

`Connection::read_frame` (transport/src/connection.rs) keeps what the socket
delivered in a read buffer and calls `parse_frame` on it: `Frame::check` on
a cursor at the buffer's start, then `Frame::parse` from the start again and
the buffer advanced by the position `check` reached. While no whole frame is
buffered it reads the next chunk the socket delivers.

A stream of encoded frames comes back frame by frame, whatever the chunks,
as long as no chunk is near `2^32` bytes: `check` cuts the count of bytes
after a frame's header to 32 bits, and a buffer of `2^32` bytes or more can
make it reject a whole, valid frame. -/

namespace ElasticStream.Transport

open Codec Frame

/-- `Connection::parse_frame`: the frame, if the buffer holds a whole one,
and the buffer after it. -/
def parseFrame (buffer : List UInt8) : Outcome FrameError (Option Frame × List UInt8) :=
  match check (Cursor.new buffer) with
  | .ok buf => do
    let len := buf.pos
    let (frame, _) ← parse (Cursor.new buffer)
    pure (some frame, buffer.drop len)
  | .error .incomplete => pure (none, buffer)
  | .error e => .error e
  | .panic => .panic

/-- What `read_frame` returns when a read delivers nothing: the peer closed
the connection, cleanly only between frames. -/
def endOfStream (buffer : List UInt8) : Outcome FrameError (Option Frame) :=
  if buffer.isEmpty then pure none else .error .connectionReset

/-- A connection reading frames: its read buffer, the chunks the socket has
still to deliver, and the frames returned so far. -/
structure Reader where
  buffer : List UInt8
  chunks : List (List UInt8)
  frames : List Frame

/-- One turn of the loop of `read_frame`: return the frame `parse_frame`
finds, or read the next chunk into the buffer. -/
inductive Step : Reader → Reader → Prop
  | frame {r : Reader} {f : Frame} {buffer : List UInt8} :
      parseFrame r.buffer = .ok (some f, buffer) → Step r ⟨buffer, r.chunks, r.frames ++ [f]⟩
  | read {r : Reader} {c : List UInt8} {cs : List (List UInt8)} :
      parseFrame r.buffer = .ok (none, r.buffer) → r.chunks = c :: cs →
      Step r ⟨r.buffer ++ c, cs, r.frames⟩

namespace Reader

/-- A connection that has read nothing yet, the socket to deliver `chunks`. -/
def init (chunks : List (List UInt8)) : Reader := ⟨[], chunks, []⟩

def Reachable (chunks : List (List UInt8)) : Reader → Prop :=
  Trace.Reachable Step (· = init chunks)

end Reader

/-- The bytes of frames sent one after another. -/
def stream (fs : List Frame) : List UInt8 := (fs.map fun f => f.wire.bytes).flatten

@[simp] theorem stream_nil : stream [] = [] := rfl

@[simp] theorem stream_cons (f : Frame) (fs : List Frame) :
    stream (f :: fs) = f.wire.bytes ++ stream fs := rfl

/-- The bytes `encode` returns for frames it accepts are their stream. -/
theorem flatten_encode_all {fs : List Frame} {partss : List (List (List UInt8))}
    (h : List.Forall₂ (fun f parts => f.encode = .ok parts) fs partss) :
    (partss.map List.flatten).flatten = stream fs ∧ ∀ f ∈ fs, f.wire.Valid := by
  induction h with
  | nil => simp
  | cons hf _ ih =>
    obtain ⟨hbytes, hvalid⟩ := encode_eq_ok hf
    refine ⟨by simp [hbytes, ih.1], ?_⟩
    intro f hmem
    rcases List.mem_cons.mp hmem with rfl | hmem
    · exact hvalid
    · exact ih.2 f hmem

/-- `parse_frame` on a buffer that holds the front of a stream starting with
a valid frame: no frame while the frame is not whole, otherwise the frame
and the buffer after it. -/
theorem parseFrame_stream {w : Wire} (hw : w.Valid) {b rest : List UInt8}
    (hb : b <+: w.bytes ++ rest) (hsmall : b.length < 2 ^ 32) :
    parseFrame b =
      if b.length < w.bytes.length then .ok (none, b) else .ok (some w.frame, b.drop w.bytes.length) := by
  split_ifs with hlt
  · have hpre : b <+: w.bytes :=
      List.prefix_of_prefix_length_le hb (List.prefix_append _ _) hlt.le
    simp [parseFrame, Cursor.new, check_of_lt hw hpre hlt]
  · obtain ⟨tail, rfl⟩ : w.bytes <+: b :=
      List.prefix_of_prefix_length_le (List.prefix_append _ _) hb (Nat.not_lt.mp hlt)
    have hlen := hw.length_bytes
    simp only [List.length_append, Wire.length_bytes] at hsmall
    -- fewer than `2^32` bytes: the count `check` cuts to 32 bits is exact
    have hcheck := check_wire hw tail 0
    rw [if_neg (by rw [Nat.mod_eq_of_lt (by omega)]; omega)] at hcheck
    simp [parseFrame, Cursor.new, hcheck, parse_wire hw.toFramed]

theorem parseFrame_nil : parseFrame [] = .ok (none, []) := by
  have hnone : (Cursor.new []).take 4 = none := Cursor.take_eq_none (by decide)
  simp [parseFrame, check, Cursor.getU32, hnone]

section Run

variable {fs : List Frame}

/-- `parse_frame` on a buffer holding the front of what is left of the stream
of `fs`, `k` frames in. -/
theorem parseFrame_drop (hvalid : ∀ f ∈ fs, f.wire.Valid) {k : Nat} {b more : List UInt8}
    (hb : b ++ more = stream (fs.drop k)) (hsmall : b.length < 2 ^ 32) :
    match fs.drop k with
    | [] => parseFrame b = .ok (none, b)
    | f :: _ => parseFrame b =
        if b.length < f.encodedLength then .ok (none, b)
        else .ok (some f.received, b.drop f.encodedLength) := by
  cases hd : fs.drop k with
  | nil =>
    rw [hd, stream_nil, List.append_eq_nil_iff] at hb
    rw [hb.1, parseFrame_nil]
  | cons f rest =>
    rw [hd, stream_cons] at hb
    have hf : f ∈ fs := List.mem_of_mem_drop (hd ▸ List.mem_cons_self)
    rw [parseFrame_stream (hvalid f hf) (hb ▸ List.prefix_append b more) hsmall, length_wire_bytes,
      frame_wire]

/-- Where a reader stands in the stream of `fs`: it has returned the received
forms of the first frames, and its buffer and the chunks still to come hold
the rest of the stream. -/
structure Inv (fs : List Frame) (r : Reader) : Prop where
  within : ∃ k, r.frames = (fs.take k).map received ∧ r.buffer ++ r.chunks.flatten = stream (fs.drop k)
  buffer_lt : r.buffer.length < 2 ^ 32
  chunks_le : ∀ c ∈ r.chunks, c.length + MAX_FRAME_LENGTH + 4 ≤ 2 ^ 32

theorem inv_frame (hvalid : ∀ f ∈ fs, f.wire.Valid) {r : Reader} {f : Frame} {buffer : List UInt8}
    (hi : Inv fs r) (hparse : parseFrame r.buffer = .ok (some f, buffer)) :
    Inv fs ⟨buffer, r.chunks, r.frames ++ [f]⟩ := by
  obtain ⟨⟨k, hframes, hrest⟩, hlt, hchunks⟩ := hi
  have hnext := parseFrame_drop hvalid hrest hlt
  cases hd : fs.drop k with
  | nil =>
    rw [hd, hparse] at hnext
    cases hnext
  | cons g rest =>
    rw [hd] at hnext hrest
    dsimp only at hnext
    rw [hparse] at hnext
    split_ifs at hnext with hshort
    · cases hnext
    -- the frame returned is the next one, and the buffer is past it
    obtain ⟨rfl, rfl⟩ : f = g.received ∧ buffer = r.buffer.drop g.encodedLength := by
      simpa using hnext
    have htake : fs.take (k + 1) = fs.take k ++ [g] := by rw [List.take_add, hd]; rfl
    have hdrop : fs.drop (k + 1) = rest := by rw [← List.drop_drop, hd]; rfl
    have hafter : r.buffer.drop g.encodedLength ++ r.chunks.flatten = stream rest := by
      have := congrArg (List.drop g.wire.bytes.length) hrest
      rwa [List.drop_append_of_le_length (by rw [length_wire_bytes]; omega), stream_cons, List.drop_left,
        length_wire_bytes] at this
    refine ⟨⟨k + 1, ?_, ?_⟩, ?_, hchunks⟩
    · simp [hframes, htake]
    · rw [hdrop]; exact hafter
    · simp only [List.length_drop]; omega

theorem inv_read (hvalid : ∀ f ∈ fs, f.wire.Valid) {r : Reader} {c : List UInt8}
    {cs : List (List UInt8)} (hi : Inv fs r) (hparse : parseFrame r.buffer = .ok (none, r.buffer))
    (hchunk : r.chunks = c :: cs) : Inv fs ⟨r.buffer ++ c, cs, r.frames⟩ := by
  obtain ⟨⟨k, hframes, hrest⟩, hlt, hchunks⟩ := hi
  have hnext := parseFrame_drop hvalid hrest hlt
  have hc : c.length + MAX_FRAME_LENGTH + 4 ≤ 2 ^ 32 := hchunks c (by simp [hchunk])
  refine ⟨⟨k, hframes, by simpa [hchunk] using hrest⟩, ?_, fun c' hc' => hchunks c' (by simp [hchunk, hc'])⟩
  -- a read happens only on less than a frame, so the buffer stays below `2^32` bytes
  cases hd : fs.drop k with
  | nil =>
    rw [hd, stream_nil, hchunk, List.flatten_cons, List.append_eq_nil_iff, List.append_eq_nil_iff] at hrest
    simp [hrest.1, hrest.2.1]
  | cons g rest =>
    rw [hd, hparse] at hnext
    dsimp only at hnext
    have hg : g.wire.Valid := hvalid g (List.mem_of_mem_drop (hd ▸ List.mem_cons_self))
    have hshort : r.buffer.length < g.encodedLength := by
      by_contra hlong
      rw [if_neg hlong] at hnext
      cases hnext
    have hle := hg.length_le
    rw [length_wire_bytes] at hle
    simp only [List.length_append]
    omega

theorem inv_step (hvalid : ∀ f ∈ fs, f.wire.Valid) {r r' : Reader} (hi : Inv fs r) (hs : Step r r') :
    Inv fs r' := by
  cases hs with
  | frame hparse => exact inv_frame hvalid hi hparse
  | read hparse hchunk => exact inv_read hvalid hi hparse hchunk

theorem inv_init {partss : List (List (List UInt8))} {chunks : List (List UInt8)}
    (hencode : List.Forall₂ (fun f parts => f.encode = .ok parts) fs partss)
    (hB : chunks.flatten = (partss.map List.flatten).flatten)
    (hchunks : ∀ c ∈ chunks, c.length + MAX_FRAME_LENGTH + 4 ≤ 2 ^ 32) :
    Inv fs (Reader.init chunks) :=
  ⟨⟨0, rfl, by simp [Reader.init, hB, (flatten_encode_all hencode).1]⟩, by simp [Reader.init], hchunks⟩

end Run

/-- Once the socket has delivered every chunk and the buffer holds no whole
frame, every frame has come back and the buffer is empty: the end of the
stream is a clean shutdown. -/
theorem read_frames_complete {fs : List Frame} {partss : List (List (List UInt8))}
    {chunks : List (List UInt8)}
    (hencode : List.Forall₂ (fun f parts => f.encode = .ok parts) fs partss)
    (hB : chunks.flatten = (partss.map List.flatten).flatten)
    (hchunks : ∀ c ∈ chunks, c.length + MAX_FRAME_LENGTH + 4 ≤ 2 ^ 32)
    {r : Reader} (hr : r.Reachable chunks) (hdone : r.chunks = [])
    (hnone : parseFrame r.buffer = .ok (none, r.buffer)) :
    r.frames = fs.map received ∧ endOfStream r.buffer = .ok none := by
  have hvalid := (flatten_encode_all hencode).2
  have hi : Inv fs r := Trace.Reachable.invariant (Inv fs)
    (fun _ hs => by subst hs; exact inv_init hencode hB hchunks) (fun _ _ hi hs => inv_step hvalid hi hs) hr
  obtain ⟨⟨k, hframes, hrest⟩, hlt, -⟩ := hi
  have hnext := parseFrame_drop hvalid hrest hlt
  rw [hdone, List.flatten_nil, List.append_nil] at hrest
  cases hd : fs.drop k with
  | nil =>
    rw [hd, stream_nil] at hrest
    have htake : fs.take k = fs := List.take_of_length_le (List.drop_eq_nil_iff.mp hd)
    simp [hframes, htake, hrest, endOfStream]
  | cons g rest =>
    -- the buffer holds the whole rest of the stream, so a whole next frame
    rw [hd] at hnext hrest
    dsimp only at hnext
    have hlong : ¬ r.buffer.length < g.encodedLength := by
      rw [hrest, stream_cons, List.length_append, length_wire_bytes]
      omega
    rw [if_neg hlong, hnone] at hnext
    cases hnext

end ElasticStream.Transport
