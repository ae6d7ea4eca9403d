import Mathlib
import ElasticStream.Store.Record
import ElasticStream.Store.BlockCache
import ElasticStream.Codec.Cursor
import ElasticStream.Collections.HalfOpen
import ElasticStream.Trace.Reachable

/-! # The aligned buffer writer

`AlignedBufWriter` (store/src/io/buf/aligned_buf_writer.rs) stages what the IO
loop appends to the WAL in block-aligned `AlignedBuf`s: the `full` buffers
waiting to be written out, the `current` one being appended to, and the
`allocated` ones that `reserve_to` set aside ahead. `write` fills `current`
and `swap`s the next reserved buffer in when it is full; `take` hands buffers
to io_uring, draining the full ones and sharing `current`.

The representation invariant `Inv` says the buffers lie end to end in the WAL
and the next byte goes right after the last one written. From it follow
`max_allocated_wal_offset() = cursor + remaining()`, that a write of at most
`remaining()` bytes succeeds and appends exactly its bytes, and that `take`
hands out a prefix of the buffered bytes in WAL order. A write of no bytes to
a writer that holds no buffer at all fails all the same: its loop asks `swap`
for a buffer before it looks at the data (`write_nothing_without_buffer`).

A taken `Arc` of `current` sees later writes to it; the model hands out the
buffer as it is at the `take`. `AlignedBuf::new` does not fail here: its
layout and allocation errors are not modelled. -/

namespace ElasticStream.Store
open ElasticStream.Codec ElasticStream.Collections

namespace AlignedBuf

/-- `AlignedBuf::new`: `len` bytes rounded up to whole blocks, none written. -/
def new (walOffset len alignment : Nat) : AlignedBuf :=
  ⟨walOffset, [], (len + alignment - 1) / alignment * alignment⟩

/-- `remaining()`: the room left. -/
def remaining (b : AlignedBuf) : Nat := b.capacity - b.limit

def hasData (b : AlignedBuf) : Bool := 0 < b.limit

/-- `write_buf(cursor, buf)`: append the bytes if they fit, and say whether
they did. -/
def writeBuf (b : AlignedBuf) (cursor : Nat) (buf : List UInt8) : Outcome StoreError (Bool × AlignedBuf) := do
  Outcome.assert (cursor = b.walOffset + b.limit)
  if b.limit + buf.length > b.capacity then pure (false, b)
  else pure (true, { b with data := b.data ++ buf })

theorem capacity_new_ge {alignment : Nat} (h : 0 < alignment) (walOffset len : Nat) :
    len ≤ (new walOffset len alignment).capacity := by
  have := @Nat.lt_div_mul_add (len + alignment - 1) alignment h
  simp only [new]
  omega

theorem capacity_new_of_dvd {alignment : Nat} (h : 0 < alignment) (walOffset k : Nat) :
    (new walOffset (k * alignment) alignment).capacity = k * alignment := by
  have hdiv : (k * alignment + alignment - 1) / alignment = k := by
    rw [Nat.add_sub_assoc h, Nat.add_comm, Nat.add_mul_div_right _ _ h,
      Nat.div_eq_of_lt (Nat.sub_lt h Nat.one_pos), Nat.zero_add]
  simp only [new, hdiv]

theorem limit_append (b : AlignedBuf) (bytes : List UInt8) :
    ({ b with data := b.data ++ bytes } : AlignedBuf).limit = b.limit + bytes.length := by
  simp [limit]

theorem writeBuf_of_fits {b : AlignedBuf} {cursor : Nat} {buf : List UInt8} (hpos : cursor = b.walOffset + b.limit)
    (hfit : b.limit + buf.length ≤ b.capacity) :
    b.writeBuf cursor buf = .ok (true, { b with data := b.data ++ buf }) := by
  simp [writeBuf, hpos, Nat.not_lt.mpr hfit]

end AlignedBuf

/-- A buffer stands for the WAL interval it is allocated for. -/
instance : HalfOpen AlignedBuf := ⟨AlignedBuf.walOffset, fun b => b.walOffset + b.capacity⟩

@[simp] theorem lo_alignedBuf (b : AlignedBuf) : HalfOpen.lo b = b.walOffset := rfl

@[simp] theorem hi_alignedBuf (b : AlignedBuf) : HalfOpen.hi b = b.walOffset + b.capacity := rfl

/-- `AlignedBufWriter`. -/
structure AlignedBufWriter where
  cursor : Nat
  alignment : Nat
  full : List AlignedBuf
  current : Option AlignedBuf
  allocated : List AlignedBuf
  buffering : Bool
  deriving DecidableEq, Repr

namespace AlignedBufWriter

def new (cursor alignment : Nat) : AlignedBufWriter := ⟨cursor, alignment, [], none, [], false⟩

def resetCursor (w : AlignedBufWriter) (cursor : Nat) : AlignedBufWriter := { w with cursor }

/-- `rebase_buf`: append after the partially written last page of the WAL. -/
def rebaseBuf (w : AlignedBufWriter) (buf : AlignedBuf) : Outcome StoreError AlignedBufWriter := do
  Outcome.assert (w.full = [])
  Outcome.assert (w.allocated = [])
  Outcome.assert (w.cursor = buf.walOffset + buf.limit)
  pure { w with current := some buf }

def maxAllocatedWalOffset (w : AlignedBufWriter) : Nat :=
  match w.allocated.getLast? with
  | some buffer => buffer.walOffset + buffer.capacity
  | none =>
    match w.current with
    | some buffer => buffer.walOffset + buffer.capacity
    | none => w.cursor

/-- The buffers `reserve_to` pushes to cover `additional` bytes from `offset`:
first whole blocks, for data that fills them, then one block for the partial
rest. -/
def reserveBlocks (offset additional alignment : Nat) : List AlignedBuf :=
  let block := if alignment ≤ additional then
      some (AlignedBuf.new offset (additional / alignment * alignment) alignment)
    else none
  let offset := match block with
    | some buf => offset + buf.capacity
    | none => offset
  let partialBlock := if additional % alignment ≠ 0 then some (AlignedBuf.new offset alignment alignment) else none
  block.toList ++ partialBlock.toList

/-- `reserve_to(wal_offset, file_size)`: reserve up to `walOffset`. Both
`debug_assert_eq!` checks hold by construction and are left out. -/
def reserveTo (w : AlignedBufWriter) (walOffset fileSize : Nat) : Outcome StoreError AlignedBufWriter :=
  let maxAllocatedWalOffset := w.maxAllocatedWalOffset
  if walOffset ≤ maxAllocatedWalOffset then pure w
  -- `/ file_size` by zero
  else if fileSize = 0 then .panic
  -- "AlignedBuf to allocate is spanning over multiple segment files"
  else if maxAllocatedWalOffset / fileSize ≠ (walOffset - 1) / fileSize then .panic
  -- `/ self.alignment` by zero
  else if w.alignment = 0 then .panic
  else
    let additional := walOffset - maxAllocatedWalOffset
    pure { w with allocated := w.allocated ++ reserveBlocks maxAllocatedWalOffset additional w.alignment }

/-- `swap`: retire the full `current` and take the next reserved buffer. -/
def swap (w : AlignedBufWriter) : Outcome StoreError AlignedBufWriter :=
  match w.allocated with
  | [] => .error .outOfMemory
  | buf :: allocated =>
    match w.current with
    | some prev => do
      Outcome.assert (prev.remaining = 0)
      pure { w with full := w.full ++ [prev], current := some buf, allocated }
    | none => pure { w with current := some buf, allocated }

/-- The loop of `write`: `offset` is `cursor + pos` and `data` is
`data[pos..]`. Every turn but the last swaps a reserved buffer in, so one turn
more than there are reserved buffers is always enough. -/
def writeLoop : Nat → AlignedBufWriter → Nat → List UInt8 → Outcome StoreError AlignedBufWriter
  | 0, _, _, _ => .error .outOfMemory
  | fuel + 1, w, offset, data =>
    match w.current with
    | some buf =>
      let r := buf.remaining
      if data.length ≤ r then do
        let (_, buf) ← buf.writeBuf offset data
        pure { w with current := some buf }
      else do
        let (_, buf) ← buf.writeBuf offset (data.take r)
        let w ← { w with current := some buf }.swap
        writeLoop fuel w (offset + r) (data.drop r)
    | none => do
      let w ← w.swap
      writeLoop fuel w offset data

/-- `write(data)`. -/
def write (w : AlignedBufWriter) (data : List UInt8) : Outcome StoreError AlignedBufWriter := do
  let w' ← writeLoop (w.allocated.length + 1) w w.cursor data
  pure { w' with cursor := w.cursor + data.length, buffering := true }

/-- `write_u32(value)`: its bytes in big-endian order. -/
def writeU32 (w : AlignedBufWriter) (value : UInt32) : Outcome StoreError AlignedBufWriter :=
  w.write (be32 value)

/-- `take(slots)`: the first `slots` full buffers, drained, and `current` if
it holds data and a slot is left. -/
def take (w : AlignedBufWriter) (slots : Nat) : List AlignedBuf × AlignedBufWriter :=
  let items := w.full.take slots
  let full := w.full.drop slots
  -- `extract_if` runs its counting filter on every full buffer
  let taken := w.full.length
  if taken < slots then
    let items := match w.current with
      | some buf => if buf.hasData then items ++ [buf] else items
      | none => items
    (items, { w with full, buffering := false })
  else if full.isEmpty then
    (items, { w with full, buffering := decide (0 < (w.current.map (·.limit)).getD 0) })
  else (items, { w with full })

def remaining (w : AlignedBufWriter) : Nat :=
  (w.current.map (·.remaining)).getD 0 + (w.allocated.map (·.remaining)).sum

/-! ## The representation invariant -/

/-- The buffers in WAL order: full, current, reserved. -/
def layout (w : AlignedBufWriter) : List AlignedBuf := w.full ++ w.current.toList ++ w.allocated

/-- Where the buffered bytes begin: the first buffer, or the cursor. -/
def base (w : AlignedBufWriter) : Nat := (w.layout.head?.map (·.walOffset)).getD w.cursor

/-- The bytes the writer holds, from `base` on. -/
def walBytes (w : AlignedBufWriter) : List UInt8 := ((w.full ++ w.current.toList).map (·.data)).flatten

/-- The buffers lie end to end; full ones are filled, reserved ones empty;
and the next byte goes to `pos`, right after the last one written. `pos` is
the cursor, except inside `write`, which moves the cursor at its end. -/
structure Inv (w : AlignedBufWriter) (pos : Nat) : Prop where
  tiles : ∃ s, HalfOpen.Tiles s w.layout
  fits : ∀ b ∈ w.layout, b.limit ≤ b.capacity
  full_filled : ∀ b ∈ w.full, b.limit = b.capacity
  allocated_empty : ∀ b ∈ w.allocated, b.limit = 0
  cursor_current : ∀ c ∈ w.current, pos = c.walOffset + c.limit
  cursor_none : w.current = none → w.full = [] ∧ ∀ b ∈ w.allocated.head?, pos = b.walOffset

theorem inv_new (cursor alignment : Nat) : (new cursor alignment).Inv cursor :=
  ⟨⟨cursor, by simp [layout, new]⟩, by simp [layout, new], by simp [new], by simp [new], by simp [new],
    fun _ => ⟨rfl, by simp [new]⟩⟩

theorem sum_capacity_full {w : AlignedBufWriter} {pos : Nat} (h : w.Inv pos) :
    (w.full.map (·.capacity)).sum = (w.full.map (·.limit)).sum :=
  congrArg List.sum (List.map_congr_left fun b hb => (h.full_filled b hb).symm)

theorem sum_remaining_allocated {w : AlignedBufWriter} {pos : Nat} (h : w.Inv pos) :
    (w.allocated.map (·.remaining)).sum = (w.allocated.map (·.capacity)).sum :=
  congrArg List.sum (List.map_congr_left fun b hb => by simp [AlignedBuf.remaining, h.allocated_empty b hb])

theorem data_eq_nil_of_allocated {w : AlignedBufWriter} {pos : Nat} (h : w.Inv pos) {b : AlignedBuf}
    (hb : b ∈ w.allocated) : b.data = [] :=
  List.eq_nil_of_length_eq_zero (h.allocated_empty b hb)

/-- The spans of a tiling of buffers are their capacities. -/
theorem stop_eq_add_capacity {s : Nat} {l : List AlignedBuf} (h : HalfOpen.Tiles s l) :
    HalfOpen.stop s l = s + (l.map (·.capacity)).sum := by
  rw [HalfOpen.stop_eq_add_sum h (fun b _ => by simp)]
  simp

/-- The buffered bytes end at the cursor. -/
theorem base_add_length_walBytes {w : AlignedBufWriter} (h : w.Inv w.cursor) :
    w.base + w.walBytes.length = w.cursor := by
  obtain ⟨s, hs⟩ := h.tiles
  cases hc : w.current with
  | none =>
    obtain ⟨hf, ha⟩ := h.cursor_none hc
    cases hal : w.allocated with
    | nil => simp [base, walBytes, layout, hf, hc, hal]
    | cons b rest =>
      have := ha b (by simp [hal])
      simp [base, walBytes, layout, hf, hc, hal, this]
  | some c =>
    have hcur := h.cursor_current c (by simp [hc])
    rw [layout, hc, Option.toList_some, HalfOpen.tiles_append, HalfOpen.tiles_append] at hs
    obtain ⟨⟨hfull, hcs, -⟩, -⟩ := hs
    have hstart : c.walOffset = s + (w.full.map (·.capacity)).sum := by
      rw [← stop_eq_add_capacity hfull, ← lo_alignedBuf c, hcs]
    have hbase : w.base = s := by
      cases hf : w.full with
      | nil => simp [base, layout, hc, hf] at hstart ⊢; omega
      | cons b rest =>
        rw [hf] at hfull
        simp only [base, layout, hf, List.cons_append, List.head?_cons, Option.map_some, Option.getD_some]
        exact (HalfOpen.tiles_cons.mp hfull).1
    have hlen : w.walBytes.length = (w.full.map (·.limit)).sum + c.limit := by
      simp [walBytes, hc, List.length_flatten, Function.comp_def, AlignedBuf.limit]
    rw [hbase, hlen, ← sum_capacity_full h]
    omega

/-- `max_allocated_wal_offset() = cursor + remaining()`. -/
theorem maxAllocatedWalOffset_eq {w : AlignedBufWriter} (h : w.Inv w.cursor) :
    w.maxAllocatedWalOffset = w.cursor + w.remaining := by
  obtain ⟨s, hs⟩ := h.tiles
  rw [layout, HalfOpen.tiles_append] at hs
  obtain ⟨hhead, hrest⟩ := hs
  cases hl : w.allocated.getLast? with
  | some b =>
    -- the last reserved buffer ends where the tiling of the reserved ones does
    have hend : w.maxAllocatedWalOffset = b.walOffset + b.capacity := by simp [maxAllocatedWalOffset, hl]
    rw [hend, ← hi_alignedBuf, ← HalfOpen.stop_of_getLast? (HalfOpen.stop s (w.full ++ w.current.toList)) hl,
      stop_eq_add_capacity hrest, remaining, sum_remaining_allocated h]
    cases hc : w.current with
    | none =>
      obtain ⟨hf, ha⟩ := h.cursor_none hc
      cases hal : w.allocated with
      | nil => simp [hal] at hl
      | cons a rest =>
        rw [hal] at hrest
        have := ha a (by simp [hal])
        simp only [hf, hc, Option.toList_none, List.append_nil, HalfOpen.stop_nil] at hrest ⊢
        rw [(HalfOpen.tiles_cons.mp hrest).1.symm.trans (by simpa using this.symm)]
        simp
    | some c =>
      have hcur := h.cursor_current c (by simp [hc])
      have hfit := h.fits c (by simp [layout, hc])
      simp only [Option.toList_some, HalfOpen.stop_append, HalfOpen.stop_cons, HalfOpen.stop_nil,
        hi_alignedBuf, Option.map_some, Option.getD_some, AlignedBuf.remaining]
      omega
  | none =>
    have hal : w.allocated = [] := List.getLast?_eq_none_iff.mp hl
    cases hc : w.current with
    | none => simp [maxAllocatedWalOffset, remaining, hal, hc]
    | some c =>
      have hcur := h.cursor_current c (by simp [hc])
      have hfit := h.fits c (by simp [layout, hc])
      simp only [maxAllocatedWalOffset, remaining, hal, hc, List.getLast?_nil, Option.map_some, Option.getD_some,
        List.map_nil, List.sum_nil, AlignedBuf.remaining]
      omega

/-- `Inv` does not read the cursor or the flag. -/
theorem inv_with {w : AlignedBufWriter} {pos : Nat} (cursor : Nat) (buffering : Bool) :
    ({ w with cursor, buffering }).Inv pos ↔ w.Inv pos :=
  ⟨fun h => ⟨h.tiles, h.fits, h.full_filled, h.allocated_empty, h.cursor_current, h.cursor_none⟩,
    fun h => ⟨h.tiles, h.fits, h.full_filled, h.allocated_empty, h.cursor_current, h.cursor_none⟩⟩

/-! ## `swap` and one turn of `write` -/

theorem swap_eq_ok {w w' : AlignedBufWriter} :
    w.swap = .ok w' ↔ ∃ b rest, w.allocated = b :: rest ∧ (∀ c ∈ w.current, c.remaining = 0) ∧
      w' = { w with full := w.full ++ w.current.toList, current := some b, allocated := rest } := by
  obtain ⟨cursor, alignment, full, current, allocated, buffering⟩ := w
  cases allocated with
  | nil => simp [swap]
  | cons b rest =>
    cases current with
    | none => simp [swap, eq_comm]
    | some prev =>
      by_cases hp : prev.remaining = 0
      · simp [swap, hp, eq_comm]
      · simp [swap, hp, Outcome.assert]

/-- `swap` moves buffers from one part to the next and changes none of them. -/
theorem layout_swap {w w' : AlignedBufWriter} (hs : w.swap = .ok w') : w'.layout = w.layout := by
  obtain ⟨b, rest, ha, -, rfl⟩ := swap_eq_ok.mp hs
  simp [layout, ha]

/-- The reserved buffer after `current` starts where `current` ends. -/
theorem Inv.next_walOffset {w : AlignedBufWriter} {pos : Nat} (h : w.Inv pos) {c b : AlignedBuf}
    {rest : List AlignedBuf} (hc : w.current = some c) (ha : w.allocated = b :: rest) :
    b.walOffset = c.walOffset + c.capacity := by
  obtain ⟨s, hs⟩ := h.tiles
  simp only [layout, hc, ha, Option.toList_some, HalfOpen.tiles_append, HalfOpen.stop_append,
    HalfOpen.stop_cons, HalfOpen.stop_nil, HalfOpen.tiles_cons] at hs
  simpa using hs.2.1

theorem Inv.swap {w w' : AlignedBufWriter} {pos : Nat} (h : w.Inv pos) (hs : w.swap = .ok w') :
    w'.Inv pos ∧ w'.walBytes = w.walBytes ∧ w'.remaining = w.remaining ∧
      w'.allocated.length + 1 = w.allocated.length ∧ w'.current.isSome := by
  have hl := layout_swap hs
  obtain ⟨b, rest, ha, hrem, rfl⟩ := swap_eq_ok.mp hs
  have hb : b.limit = 0 := h.allocated_empty b (by simp [ha])
  refine ⟨⟨hl ▸ h.tiles, hl ▸ h.fits, fun x hx => ?_, fun x hx => h.allocated_empty x (by simp [ha, hx]),
    fun x hx => ?_, fun hnone => by simp at hnone⟩, ?_, ?_, by simp [ha], by simp⟩
  · -- the retired `current` was full
    simp only [List.mem_append, Option.mem_toList] at hx
    rcases hx with hx | hx
    · exact h.full_filled x hx
    · have := hrem x hx
      have := h.fits x (by simp [layout, hx])
      simp only [AlignedBuf.remaining] at *
      omega
  · -- the next byte goes to the start of the new `current`
    rw [Option.mem_def, Option.some.injEq] at hx
    rw [← hx]
    cases hc : w.current with
    | none =>
      have := (h.cursor_none hc).2 b (by simp [ha])
      omega
    | some c =>
      have hcur := h.cursor_current c (by simp [hc])
      have hfull := hrem c (by simp [hc])
      have hfit := h.fits c (by simp [layout, hc])
      have := h.next_walOffset hc ha
      simp only [AlignedBuf.remaining] at hfull
      omega
  · simp [walBytes, List.eq_nil_of_length_eq_zero hb]
  · cases hc : w.current with
    | none => simp [remaining, ha, hc]
    | some c =>
      have := hrem c (by simp [hc])
      simp [remaining, ha, hc, this]

theorem swap_of_cons {w : AlignedBufWriter} {b : AlignedBuf} {rest : List AlignedBuf} (ha : w.allocated = b :: rest)
    (hrem : ∀ c ∈ w.current, c.remaining = 0) : ∃ w', w.swap = .ok w' :=
  ⟨_, swap_eq_ok.mpr ⟨b, rest, ha, hrem, rfl⟩⟩

/-- Appending bytes that fit to `current`. -/
theorem Inv.appendCurrent {w : AlignedBufWriter} {pos : Nat} (h : w.Inv pos) {c : AlignedBuf}
    (hc : w.current = some c) {bytes : List UInt8} (hfit : bytes.length ≤ c.remaining) :
    ({ w with current := some { c with data := c.data ++ bytes } }).Inv (pos + bytes.length) ∧
      ({ w with current := some { c with data := c.data ++ bytes } }).walBytes = w.walBytes ++ bytes ∧
      ({ w with current := some { c with data := c.data ++ bytes } }).remaining + bytes.length = w.remaining := by
  have hcur := h.cursor_current c (by simp [hc])
  have hcap := h.fits c (by simp [layout, hc])
  simp only [AlignedBuf.remaining] at hfit
  refine ⟨⟨?_, fun b hb => ?_, h.full_filled, h.allocated_empty, fun x hx => ?_, fun hnone => by simp at hnone⟩,
    ?_, ?_⟩
  · -- same places, so the same tiling
    obtain ⟨s, hs⟩ := h.tiles
    refine ⟨s, ?_⟩
    simp only [layout, hc, Option.toList_some, HalfOpen.tiles_append, HalfOpen.tiles_cons, HalfOpen.tiles_nil,
      lo_alignedBuf, hi_alignedBuf, HalfOpen.stop_append, HalfOpen.stop_cons, HalfOpen.stop_nil] at hs ⊢
    exact hs
  · simp only [layout, List.mem_append, Option.mem_toList, Option.some.injEq] at hb
    rcases hb with (hb | rfl) | hb
    · exact h.fits b (by simp [layout, hb])
    · simp only [AlignedBuf.limit_append]
      omega
    · exact h.fits b (by simp [layout, hb])
  · rw [Option.mem_def, Option.some.injEq] at hx
    rw [← hx]
    simp only [AlignedBuf.limit_append]
    omega
  · simp [walBytes, hc]
  · simp only [remaining, hc, Option.map_some, Option.getD_some, AlignedBuf.remaining, AlignedBuf.limit_append]
    omega

/-! ## `write` -/

/-- **A write loop that returns is right**: it appended the data to the
buffered bytes and used up as much room. The induction is on the fuel; each
turn that does not end the loop fills `current` and swaps. -/
theorem writeLoop_ok : ∀ (fuel : Nat) {w w' : AlignedBufWriter} {pos : Nat} {data : List UInt8},
    w.Inv pos → writeLoop fuel w pos data = .ok w' →
    w'.Inv (pos + data.length) ∧ w'.walBytes = w.walBytes ++ data ∧ w'.remaining + data.length = w.remaining
  | 0, _, _, _, _, _, hw => by cases hw
  | fuel + 1, w, w', pos, data, h, hw => by
    rw [writeLoop] at hw
    cases hc : w.current with
    | some c =>
      have hcur := h.cursor_current c (by simp [hc])
      have hcap := h.fits c (by simp [layout, hc])
      have hr : c.remaining = c.capacity - c.limit := rfl
      rw [hc] at hw
      dsimp only at hw
      by_cases hle : data.length ≤ c.remaining
      · -- the last turn: the rest fits in `current`
        rw [if_pos hle, AlignedBuf.writeBuf_of_fits hcur (by omega), Outcome.ok_bind] at hw
        cases hw
        exact h.appendCurrent hc hle
      · -- fill `current`, swap, and go on with the rest
        have htake : (data.take c.remaining).length = c.remaining := by
          rw [List.length_take]
          omega
        rw [if_neg hle, AlignedBuf.writeBuf_of_fits hcur (by omega), Outcome.ok_bind] at hw
        obtain ⟨w₂, hs, hloop⟩ := Outcome.bind_eq_ok.mp hw
        obtain ⟨hinv₁, hbytes₁, hrem₁⟩ := h.appendCurrent hc (Nat.le_of_eq htake)
        rw [htake] at hinv₁ hrem₁
        obtain ⟨hinv₂, hbytes₂, hrem₂, -, -⟩ := hinv₁.swap hs
        obtain ⟨hinv₃, hbytes₃, hrem₃⟩ := writeLoop_ok fuel hinv₂ hloop
        rw [List.length_drop] at hinv₃ hrem₃
        refine ⟨?_, ?_, ?_⟩
        · rwa [show pos + c.remaining + (data.length - c.remaining) = pos + data.length by omega] at hinv₃
        · rw [hbytes₃, hbytes₂, hbytes₁, List.append_assoc, List.take_append_drop]
        · omega
    | none =>
      -- no `current` yet: swap the first reserved buffer in
      rw [hc] at hw
      obtain ⟨w₂, hs, hloop⟩ := Outcome.bind_eq_ok.mp hw
      obtain ⟨hinv₂, hbytes₂, hrem₂, -, -⟩ := h.swap hs
      obtain ⟨hinv₃, hbytes₃, hrem₃⟩ := writeLoop_ok fuel hinv₂ hloop
      exact ⟨hinv₃, hbytes₂ ▸ hbytes₃, hrem₂ ▸ hrem₃⟩

/-- **The write loop returns** when there is room for the data and some
buffer to write to. Every turn but the last uses up a reserved buffer, so the
fuel `write` gives is enough. -/
theorem writeLoop_isOk : ∀ (fuel : Nat) {w : AlignedBufWriter} {pos : Nat} {data : List UInt8},
    w.Inv pos → data.length ≤ w.remaining → (w.current.isSome ∨ w.allocated ≠ []) → w.allocated.length < fuel →
    ∃ w', writeLoop fuel w pos data = .ok w'
  | 0, _, _, _, _, _, _, hfuel => absurd hfuel (Nat.not_lt_zero _)
  | fuel + 1, w, pos, data, h, hlen, hbuf, hfuel => by
    rw [writeLoop]
    cases hc : w.current with
    | some c =>
      have hcur := h.cursor_current c (by simp [hc])
      have hcap := h.fits c (by simp [layout, hc])
      have hr : c.remaining = c.capacity - c.limit := rfl
      dsimp only
      by_cases hle : data.length ≤ c.remaining
      · rw [if_pos hle, AlignedBuf.writeBuf_of_fits hcur (by omega), Outcome.ok_bind]
        exact ⟨_, rfl⟩
      · have htake : (data.take c.remaining).length = c.remaining := by
          rw [List.length_take]
          omega
        rw [if_neg hle, AlignedBuf.writeBuf_of_fits hcur (by omega), Outcome.ok_bind]
        dsimp only
        -- the data runs past `current`, so a reserved buffer follows it
        obtain ⟨b, rest, ha⟩ : ∃ b rest, w.allocated = b :: rest := by
          cases hal : w.allocated with
          | nil =>
            simp only [remaining, hc, hal, Option.map_some, Option.getD_some, List.map_nil, List.sum_nil,
              Nat.add_zero] at hlen
            exact absurd hlen hle
          | cons b rest => exact ⟨b, rest, rfl⟩
        obtain ⟨hinv₁, -, hrem₁⟩ := h.appendCurrent hc (Nat.le_of_eq htake)
        rw [htake] at hinv₁ hrem₁
        have hfilled : ({ c with data := c.data ++ data.take c.remaining } : AlignedBuf).remaining = 0 := by
          simp only [AlignedBuf.remaining, AlignedBuf.limit_append, List.length_take]
          omega
        have ha₁ : ({ w with current := some { c with data := c.data ++ data.take c.remaining } } :
            AlignedBufWriter).allocated = b :: rest := ha
        obtain ⟨w₂, hs⟩ := swap_of_cons ha₁ (by simp [hfilled])
        obtain ⟨hinv₂, -, hrem₂, hlen₂, hcur₂⟩ := hinv₁.swap hs
        have hfuel₂ : w₂.allocated.length < fuel := by
          rw [ha₁, List.length_cons] at hlen₂
          rw [ha, List.length_cons] at hfuel
          omega
        have hroom : (data.drop c.remaining).length ≤ w₂.remaining := by
          rw [List.length_drop, hrem₂]
          omega
        obtain ⟨w₃, hloop⟩ := writeLoop_isOk fuel hinv₂ hroom (.inl hcur₂) hfuel₂
        exact ⟨w₃, by rw [hs, Outcome.ok_bind, hloop]⟩
    | none =>
      dsimp only
      obtain ⟨b, rest, ha⟩ : ∃ b rest, w.allocated = b :: rest := by
        cases hal : w.allocated with
        | nil => simp [hc, hal] at hbuf
        | cons b rest => exact ⟨b, rest, rfl⟩
      obtain ⟨w₂, hs⟩ := swap_of_cons ha (by simp [hc])
      obtain ⟨hinv₂, -, hrem₂, hlen₂, hcur₂⟩ := h.swap hs
      have hfuel₂ : w₂.allocated.length < fuel := by
        rw [ha, List.length_cons] at hlen₂ hfuel
        omega
      obtain ⟨w₃, hloop⟩ := writeLoop_isOk fuel hinv₂ (hrem₂ ▸ hlen) (.inl hcur₂) hfuel₂
      exact ⟨w₃, by rw [hs, Outcome.ok_bind, hloop]⟩

/-- A `write` that returns appended the data at the cursor. -/
theorem write_ok {w w' : AlignedBufWriter} {data : List UInt8} (h : w.Inv w.cursor) (hw : w.write data = .ok w') :
    w'.Inv w'.cursor ∧ w'.cursor = w.cursor + data.length ∧ w'.walBytes = w.walBytes ++ data ∧
      w'.remaining + data.length = w.remaining ∧ w'.base = w.base := by
  obtain ⟨w₁, hloop, hw'⟩ := Outcome.bind_eq_ok.mp hw
  cases hw'
  obtain ⟨hinv, hbytes, hrem⟩ := writeLoop_ok _ h hloop
  have hinv' : ({ w₁ with cursor := w.cursor + data.length, buffering := true } : AlignedBufWriter).Inv
      (w.cursor + data.length) := (inv_with _ _).mpr hinv
  refine ⟨hinv', rfl, hbytes, hrem, ?_⟩
  -- both writers' bytes end at their cursors, and the new bytes are the old ones and the data
  have h₀ := base_add_length_walBytes h
  have h₁ := base_add_length_walBytes hinv'
  change _ + w₁.walBytes.length = w.cursor + data.length at h₁
  rw [hbytes, List.length_append] at h₁
  omega

/-- **`write` returns** when there is room for the data and some buffer to
write to. -/
theorem write_isOk {w : AlignedBufWriter} {data : List UInt8} (h : w.Inv w.cursor) (hlen : data.length ≤ w.remaining)
    (hbuf : w.current.isSome ∨ w.allocated ≠ []) : ∃ w', w.write data = .ok w' := by
  obtain ⟨w₁, hloop⟩ := writeLoop_isOk (w.allocated.length + 1) h hlen hbuf (Nat.lt_succ_self _)
  exact ⟨_, by rw [write, hloop, Outcome.ok_bind]; rfl⟩

theorem swap_of_nil {w : AlignedBufWriter} (ha : w.allocated = []) : w.swap = .error .outOfMemory := by
  simp [swap, ha]

/-- **A write loop past the room fails** with `OutOfMemory`: it fills what is
reserved, and the `swap` after the last reserved buffer finds none. -/
theorem writeLoop_error : ∀ (fuel : Nat) {w : AlignedBufWriter} {pos : Nat} {data : List UInt8},
    w.Inv pos → w.remaining < data.length → writeLoop fuel w pos data = .error .outOfMemory
  | 0, _, _, _, _, _ => rfl
  | fuel + 1, w, pos, data, h, hlen => by
    rw [writeLoop]
    cases hc : w.current with
    | some c =>
      have hcur := h.cursor_current c (by simp [hc])
      have hcap := h.fits c (by simp [layout, hc])
      have hr : c.remaining = c.capacity - c.limit := rfl
      have hle : ¬ data.length ≤ c.remaining := by
        simp only [remaining, hc, Option.map_some, Option.getD_some] at hlen
        omega
      have htake : (data.take c.remaining).length = c.remaining := by
        rw [List.length_take]
        omega
      dsimp only
      rw [if_neg hle, AlignedBuf.writeBuf_of_fits hcur (by omega), Outcome.ok_bind]
      dsimp only
      obtain hal | ⟨b, rest, hal⟩ : w.allocated = [] ∨ ∃ b rest, w.allocated = b :: rest := by
        cases w.allocated <;> simp
      · have ha₁ : ({ w with current := some { c with data := c.data ++ data.take c.remaining } } :
            AlignedBufWriter).allocated = [] := hal
        rw [swap_of_nil ha₁, Outcome.error_bind]
      · -- `current` is filled and swapped out, and the rest still does not fit
        obtain ⟨hinv₁, -, hrem₁⟩ := h.appendCurrent hc (Nat.le_of_eq htake)
        rw [htake] at hinv₁ hrem₁
        have hfilled : ({ c with data := c.data ++ data.take c.remaining } : AlignedBuf).remaining = 0 := by
          simp only [AlignedBuf.remaining, AlignedBuf.limit_append, List.length_take]
          omega
        have ha₁ : ({ w with current := some { c with data := c.data ++ data.take c.remaining } } :
            AlignedBufWriter).allocated = b :: rest := hal
        obtain ⟨w₂, hs⟩ := swap_of_cons ha₁ (by simp [hfilled])
        obtain ⟨hinv₂, -, hrem₂, -, -⟩ := hinv₁.swap hs
        have hover : w₂.remaining < (data.drop c.remaining).length := by
          rw [List.length_drop, hrem₂]
          omega
        rw [hs, Outcome.ok_bind, writeLoop_error fuel hinv₂ hover]
    | none =>
      dsimp only
      obtain hal | ⟨b, rest, hal⟩ : w.allocated = [] ∨ ∃ b rest, w.allocated = b :: rest := by
        cases w.allocated <;> simp
      · rw [swap_of_nil hal, Outcome.error_bind]
      · obtain ⟨w₂, hs⟩ := swap_of_cons hal (by simp [hc])
        obtain ⟨hinv₂, -, hrem₂, -, -⟩ := h.swap hs
        rw [hs, Outcome.ok_bind, writeLoop_error fuel hinv₂ (hrem₂ ▸ hlen)]

/-- A `write` of more than the room fails with `OutOfMemory`. -/
theorem write_error_of_lt {w : AlignedBufWriter} {data : List UInt8} (h : w.Inv w.cursor)
    (hlen : w.remaining < data.length) : w.write data = .error .outOfMemory := by
  rw [write, writeLoop_error _ h hlen, Outcome.error_bind]

/-- With no buffer at all, every write fails, even one of no bytes. -/
theorem write_of_no_buffer {w : AlignedBufWriter} (hbuf : ¬ (w.current.isSome ∨ w.allocated ≠ [])) (data : List UInt8) :
    w.write data = .error .outOfMemory := by
  simp only [not_or, Option.not_isSome_iff_eq_none, ne_eq, not_not] at hbuf
  simp [write, writeLoop, hbuf.1, hbuf.2, swap]

/-- Room implies a buffer to write to. -/
theorem buffer_of_remaining_pos {w : AlignedBufWriter} (h : 0 < w.remaining) :
    w.current.isSome ∨ w.allocated ≠ [] := by
  cases hc : w.current with
  | some c => exact .inl rfl
  | none =>
    refine .inr fun hal => ?_
    simp [remaining, hc, hal] at h

/-! ## `reserve_to` -/

theorem limit_of_mem_reserveBlocks {offset additional alignment : Nat} {b : AlignedBuf}
    (hb : b ∈ reserveBlocks offset additional alignment) : b.limit = 0 := by
  -- each block is an `AlignedBuf.new`, with nothing written
  unfold reserveBlocks at hb
  dsimp only at hb
  split_ifs at hb <;> simp only [Option.toList_some, Option.toList_none, List.cons_append, List.nil_append,
    List.append_nil, List.mem_cons, List.not_mem_nil, or_false] at hb
  · rcases hb with rfl | rfl <;> rfl
  · subst hb
    rfl
  · subst hb
    rfl

theorem tiles_reserveBlocks (offset additional alignment : Nat) :
    HalfOpen.Tiles offset (reserveBlocks offset additional alignment) := by
  unfold reserveBlocks
  dsimp only
  split_ifs <;> simp [AlignedBuf.new]

/-- The reserved blocks reach past the bytes asked for. -/
theorem le_stop_reserveBlocks {alignment : Nat} (h : 0 < alignment) (offset additional : Nat) :
    offset + additional ≤ HalfOpen.stop offset (reserveBlocks offset additional alignment) := by
  have hdm : additional / alignment * alignment + additional % alignment = additional := by
    rw [Nat.mul_comm]
    exact Nat.div_add_mod additional alignment
  have hmod := Nat.mod_lt additional h
  have hpart := AlignedBuf.capacity_new_ge h
  have hblock := AlignedBuf.capacity_new_of_dvd h
  unfold reserveBlocks
  dsimp only
  split_ifs with hle hrem
  · have := hpart (offset + (AlignedBuf.new offset (additional / alignment * alignment) alignment).capacity) alignment
    simp only [Option.toList_some, List.cons_append, List.nil_append, HalfOpen.stop_cons, HalfOpen.stop_nil,
      hi_alignedBuf, hblock] at this ⊢
    simp only [AlignedBuf.new] at this ⊢
    omega
  · simp only [Option.toList_some, Option.toList_none, List.append_nil, HalfOpen.stop_cons, HalfOpen.stop_nil,
      hi_alignedBuf, hblock]
    simp only [AlignedBuf.new]
    omega
  · have := hpart offset alignment
    simp only [Option.toList_some, Option.toList_none, List.nil_append, HalfOpen.stop_cons, HalfOpen.stop_nil,
      hi_alignedBuf]
    simp only [AlignedBuf.new] at this ⊢
    omega
  · -- fewer bytes than a block, and none left over: nothing was asked for
    simp only [Option.toList_none, List.append_nil, HalfOpen.stop_nil]
    have : additional % alignment = additional := Nat.mod_eq_of_lt (Nat.lt_of_not_le hle)
    omega

theorem reserveTo_eq_ok {w w' : AlignedBufWriter} {walOffset fileSize : Nat}
    (hr : w.reserveTo walOffset fileSize = .ok w') :
    (walOffset ≤ w.maxAllocatedWalOffset ∧ w' = w) ∨
      (w.maxAllocatedWalOffset < walOffset ∧ 0 < w.alignment ∧ w' = { w with
        allocated := w.allocated ++ reserveBlocks w.maxAllocatedWalOffset (walOffset - w.maxAllocatedWalOffset) w.alignment }) := by
  unfold reserveTo at hr
  dsimp only at hr
  by_cases h₁ : walOffset ≤ w.maxAllocatedWalOffset
  · rw [if_pos h₁] at hr
    exact .inl ⟨h₁, (Outcome.ok.inj hr).symm⟩
  -- the three panics
  rw [if_neg h₁] at hr
  by_cases h₂ : fileSize = 0
  · rw [if_pos h₂] at hr
    cases hr
  rw [if_neg h₂] at hr
  by_cases h₃ : w.maxAllocatedWalOffset / fileSize ≠ (walOffset - 1) / fileSize
  · rw [if_pos h₃] at hr
    cases hr
  rw [if_neg h₃] at hr
  by_cases h₄ : w.alignment = 0
  · rw [if_pos h₄] at hr
    cases hr
  rw [if_neg h₄] at hr
  exact .inr ⟨Nat.lt_of_not_le h₁, Nat.pos_of_ne_zero h₄, (Outcome.ok.inj hr).symm⟩

theorem maxAllocatedWalOffset_of_getLast? {w : AlignedBufWriter} {pos : Nat} (h : w.Inv pos) {y : AlignedBuf}
    (hy : w.layout.getLast? = some y) : w.maxAllocatedWalOffset = y.walOffset + y.capacity := by
  unfold maxAllocatedWalOffset
  cases ha : w.allocated.getLast? with
  | some b =>
    simp only [layout, List.getLast?_append, ha, Option.some_or, Option.some.injEq] at hy
    simp [hy]
  | none =>
    have hal := List.getLast?_eq_none_iff.mp ha
    cases hc : w.current with
    | some c =>
      simp only [layout, hal, hc, List.append_nil, Option.toList_some, List.getLast?_append,
        List.getLast?_singleton, Option.some_or, Option.some.injEq] at hy
      simp [hy]
    | none => simp [layout, hal, hc, (h.cursor_none hc).1] at hy

/-- The buffers tile up to `max_allocated_wal_offset()`. -/
theorem Inv.tiles_to_max {w : AlignedBufWriter} (h : w.Inv w.cursor) :
    ∃ s, HalfOpen.Tiles s w.layout ∧ HalfOpen.stop s w.layout = w.maxAllocatedWalOffset := by
  cases hy : w.layout.getLast? with
  | none =>
    have hl := List.getLast?_eq_none_iff.mp hy
    exact ⟨w.maxAllocatedWalOffset, by simp [hl], by simp [hl]⟩
  | some y =>
    obtain ⟨s, hs⟩ := h.tiles
    exact ⟨s, hs, by rw [HalfOpen.stop_of_getLast? s hy, maxAllocatedWalOffset_of_getLast? h hy, hi_alignedBuf]⟩

/-- A `reserve_to` that returns keeps the invariant and reserves at least up to
the offset asked for. -/
theorem reserveTo_ok {w w' : AlignedBufWriter} {walOffset fileSize : Nat} (h : w.Inv w.cursor)
    (hr : w.reserveTo walOffset fileSize = .ok w') :
    w'.Inv w'.cursor ∧ w'.cursor = w.cursor ∧ w'.full = w.full ∧ w'.current = w.current ∧
      walOffset ≤ w'.maxAllocatedWalOffset := by
  rcases reserveTo_eq_ok hr with ⟨hle, rfl⟩ | ⟨hlt, halign, rfl⟩
  · exact ⟨h, rfl, rfl, rfl, hle⟩
  set m := w.maxAllocatedWalOffset with hm
  set blocks := reserveBlocks m (walOffset - m) w.alignment with hblocks
  obtain ⟨s, hs, hstop⟩ := h.tiles_to_max
  have hnew : HalfOpen.Tiles m blocks := tiles_reserveBlocks m (walOffset - m) w.alignment
  have hempty : ∀ b ∈ blocks, b.limit = 0 := fun b hb => limit_of_mem_reserveBlocks hb
  have hinv : ({ w with allocated := w.allocated ++ blocks } : AlignedBufWriter).Inv w.cursor := by
    refine ⟨⟨s, ?_⟩, fun b hb => ?_, h.full_filled, fun b hb => ?_, h.cursor_current, fun hc => ⟨(h.cursor_none hc).1, ?_⟩⟩
    · -- the new blocks start where the old buffers end
      have : HalfOpen.Tiles s (w.layout ++ blocks) := HalfOpen.tiles_append.mpr ⟨hs, hstop ▸ hnew⟩
      simpa [layout, List.append_assoc] using this
    · simp only [layout, List.mem_append] at hb
      rcases hb with (hb | hb) | hb | hb
      · exact h.fits b (by simp [layout, hb])
      · exact h.fits b (by simp [layout, hb])
      · exact h.fits b (by simp [layout, hb])
      · rw [hempty b hb]
        exact Nat.zero_le _
    · rcases List.mem_append.mp hb with hb | hb
      · exact h.allocated_empty b hb
      · exact hempty b hb
    · -- with nothing reserved before, the first new block starts at the cursor
      intro b hb
      cases hal : w.allocated with
      | cons a rest => exact (h.cursor_none hc).2 b (by simpa [hal] using hb)
      | nil =>
        have hc' : w.current = none := hc
        have hmax : m = w.cursor := by simp [hm, maxAllocatedWalOffset, hal, hc']
        cases hbl : blocks with
        | nil => simp [hal, hbl] at hb
        | cons b' rest =>
          rw [hbl] at hnew
          simp only [hal, hbl, List.nil_append, List.head?_cons, Option.mem_def, Option.some.injEq] at hb
          subst hb
          rw [← hmax, ← (HalfOpen.tiles_cons.mp hnew).1, lo_alignedBuf]
  refine ⟨hinv, rfl, rfl, rfl, ?_⟩
  -- the new blocks add their capacities to the room
  have hmax := maxAllocatedWalOffset_eq hinv
  have hmax₀ := maxAllocatedWalOffset_eq h
  have hreach := le_stop_reserveBlocks halign m (walOffset - m)
  rw [← hblocks, stop_eq_add_capacity hnew] at hreach
  have hcap : (blocks.map (·.remaining)).sum = (blocks.map (·.capacity)).sum :=
    congrArg List.sum (List.map_congr_left fun b hb => by simp [AlignedBuf.remaining, hempty b hb])
  have hrem : ({ w with allocated := w.allocated ++ blocks } : AlignedBufWriter).remaining =
      w.remaining + (blocks.map (·.capacity)).sum := by
    simp only [remaining, List.map_append, List.sum_append, hcap]
    omega
  rw [hmax, hrem]
  change walOffset ≤ w.cursor + _
  omega

/-! ## `take` and `rebase_buf` -/

theorem take_snd (w : AlignedBufWriter) (slots : Nat) :
    ∃ buffering, (w.take slots).2 = { w with full := w.full.drop slots, buffering } := by
  unfold take
  dsimp only
  split_ifs
  · exact ⟨false, rfl⟩
  · exact ⟨_, rfl⟩
  · exact ⟨w.buffering, rfl⟩

/-- `take` drains a prefix of the full buffers and keeps the rest in place. -/
theorem Inv.take {w : AlignedBufWriter} {pos : Nat} (h : w.Inv pos) (slots : Nat) :
    (w.take slots).2.Inv pos ∧ (w.take slots).2.cursor = w.cursor ∧
      w.walBytes = ((w.full.take slots).map (·.data)).flatten ++ (w.take slots).2.walBytes := by
  obtain ⟨buffering, hb⟩ := take_snd w slots
  rw [hb]
  refine ⟨⟨?_, fun b hb => h.fits b ?_, fun b hb => h.full_filled b (List.mem_of_mem_drop hb), h.allocated_empty,
    h.cursor_current, fun hc => ⟨by simp [(h.cursor_none hc).1], (h.cursor_none hc).2⟩⟩, rfl, ?_⟩
  · -- what is left is a suffix of the tiling
    obtain ⟨s, hs⟩ := h.tiles
    rw [layout, ← List.take_append_drop slots w.full, List.append_assoc, List.append_assoc,
      HalfOpen.tiles_append] at hs
    exact ⟨_, by simpa [layout, List.append_assoc] using hs.2⟩
  · simp only [layout, List.mem_append] at hb ⊢
    rcases hb with (hb | hb) | hb
    · exact .inl (.inl (List.mem_of_mem_drop hb))
    · exact .inl (.inr hb)
    · exact .inr hb
  · show ((w.full ++ w.current.toList).map (·.data)).flatten =
      ((w.full.take slots).map (·.data)).flatten ++ ((w.full.drop slots ++ w.current.toList).map (·.data)).flatten
    rw [← List.flatten_append, ← List.map_append, ← List.append_assoc, List.take_append_drop]

theorem rebaseBuf_eq_ok {w w' : AlignedBufWriter} {buf : AlignedBuf} :
    w.rebaseBuf buf = .ok w' ↔
      w.full = [] ∧ w.allocated = [] ∧ w.cursor = buf.walOffset + buf.limit ∧ w' = { w with current := some buf } := by
  unfold rebaseBuf
  by_cases h₁ : w.full = []
  · by_cases h₂ : w.allocated = []
    · by_cases h₃ : w.cursor = buf.walOffset + buf.limit
      · simp [h₁, h₂, h₃, eq_comm]
      · simp [h₁, h₂, h₃, Outcome.assert]
    · simp [h₁, h₂, Outcome.assert]
  · simp [h₁, Outcome.assert]

theorem Inv.rebase {w w' : AlignedBufWriter} {buf : AlignedBuf} (hfit : buf.limit ≤ buf.capacity)
    (hr : (w.resetCursor (buf.walOffset + buf.limit)).rebaseBuf buf = .ok w') : w'.Inv w'.cursor := by
  obtain ⟨hf, ha, -, rfl⟩ := rebaseBuf_eq_ok.mp hr
  simp only [resetCursor] at hf ha
  refine ⟨⟨buf.walOffset, ?_⟩, fun b hb => ?_, by simp [resetCursor, hf], by simp [resetCursor, ha],
    fun c hc => ?_, fun hc => by simp at hc⟩
  · simp [layout, resetCursor, hf, ha]
  · simp only [layout, resetCursor, hf, ha, Option.toList_some, List.nil_append, List.append_nil,
      List.mem_singleton] at hb
    rw [hb]
    exact hfit
  · simp only [Option.mem_def, Option.some.injEq] at hc
    rw [← hc]
    rfl

/-! ## Runs of the writer -/

/-- One call on the writer that returns. `rebase_buf` comes right after
`reset_cursor` to the end of its buffer's data, and that buffer holds no more
than its capacity, as every `AlignedBuf` does. -/
inductive Step : AlignedBufWriter → AlignedBufWriter → Prop
  | reserveTo {w w' : AlignedBufWriter} (walOffset fileSize : Nat) :
      w.reserveTo walOffset fileSize = .ok w' → Step w w'
  | write {w w' : AlignedBufWriter} (data : List UInt8) : w.write data = .ok w' → Step w w'
  | writeU32 {w w' : AlignedBufWriter} (value : UInt32) : w.writeU32 value = .ok w' → Step w w'
  | take (w : AlignedBufWriter) (slots : Nat) : Step w (w.take slots).2
  | rebase {w w' : AlignedBufWriter} (buf : AlignedBuf) : buf.limit ≤ buf.capacity →
      (w.resetCursor (buf.walOffset + buf.limit)).rebaseBuf buf = .ok w' → Step w w'

/-- The writers reached from `new` by calls that return. -/
def Reachable (w : AlignedBufWriter) : Prop :=
  Trace.Reachable Step (fun w => ∃ cursor alignment, w = new cursor alignment) w

theorem inv_step {w w' : AlignedBufWriter} (h : w.Inv w.cursor) (hs : Step w w') : w'.Inv w'.cursor := by
  cases hs with
  | reserveTo _ _ hr => exact (reserveTo_ok h hr).1
  | write _ hw => exact (write_ok h hw).1
  | writeU32 _ hw => exact (write_ok h hw).1
  | take slots =>
    obtain ⟨hinv, hcur, -⟩ := h.take slots
    rwa [← hcur] at hinv
  | rebase _ hfit hr => exact Inv.rebase hfit hr

theorem Reachable.inv {w : AlignedBufWriter} (hw : w.Reachable) : w.Inv w.cursor :=
  Trace.Reachable.invariant (fun w => w.Inv w.cursor) (fun _ ⟨c, a, he⟩ => he ▸ inv_new c a)
    (fun _ _ h hs => inv_step h hs) hw

end AlignedBufWriter

end ElasticStream.Store
