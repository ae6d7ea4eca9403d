import Mathlib
import ElasticStream.ObjectStorage.RangeOffload

/-! # A whole run of the offload

`DefaultRangeAccumulator::read_loop` hands the offload of a range one payload
after another, each at the offset the previous write returned, and flushes
it at the end. The offload is a state machine: between two writes it is idle
or it fills a multi-part object, and a write commits a whole object, opens a
multi-part object, adds a part to it, or fills and closes it.

`Offloading` says what the open object holds between two writes, and each
write and the flush keep it. From it, over any run: the committed objects
hold every byte of the payloads once and in order, each starts at the offset
the previous one ends at, the first at the run's start and the last at the
offset the run returns, and every object but the last holds at least an
object's size of data.
-/

namespace ElasticStream.ObjectStorage

open ElasticStream.Codec ElasticStream.Model

/-! ## Committed objects -/

/-- The bytes of a committed object before its delimiter. -/
def Committed.data (o : Committed) : List UInt8 := o.bytes.take o.metadata.dataLen

/-- The layout of a committed object: its data, the delimiter, an index and
the footer of both lengths, with the metadata counting the data. -/
def Committed.Framed (o : Committed) : Prop :=
  ∃ index, o.data.length = o.metadata.dataLen ∧
    o.bytes = o.data ++ [BLOCK_DELIMITER] ++ index ++ footerBytes o.metadata.dataLen index.length

section Layout

variable {o : Committed} {data index : List UInt8} (hlen : o.metadata.dataLen = data.length)
  (hbytes : o.bytes = data ++ [BLOCK_DELIMITER] ++ index ++ footerBytes o.metadata.dataLen index.length)
include hlen hbytes

theorem Committed.data_of : o.data = data := by
  simp [Committed.data, hbytes, hlen]

theorem Committed.framed_of : o.Framed :=
  ⟨index, by rw [Committed.data_of hlen hbytes, hlen], by rw [Committed.data_of hlen hbytes]; exact hbytes⟩

end Layout

/-- Objects that follow one another in offsets, the first starting at `s`
and the last ending at `e`. -/
def Contiguous : Nat → List Committed → Nat → Prop
  | s, [], e => s = e
  | s, o :: os, e => o.metadata.startOffset = s ∧ Contiguous (s + o.metadata.endOffsetDelta) os e

theorem Contiguous.append {os os' : List Committed} :
    ∀ {s t e : Nat}, Contiguous s os t → Contiguous t os' e → Contiguous s (os ++ os') e := by
  induction os with
  | nil =>
    intro s t e hst hte
    rw [show s = t from hst]
    exact hte
  | cons o os ih =>
    rintro s t e ⟨hstart, hrest⟩ hte
    exact ⟨hstart, ih hrest hte⟩

theorem contiguous_singleton {o : Committed} {s : Nat} (hstart : o.metadata.startOffset = s) :
    Contiguous s [o] (s + o.metadata.endOffsetDelta) :=
  ⟨hstart, rfl⟩

/-! ## Payloads -/

section
variable (c : MetaCodec)

/-- A payload the accumulator hands to the offload: whole encoded batches,
fewer than 2^31 bytes of them. -/
structure BatchPayload where
  chunks : List (List UInt8)
  batches : List RecordBatch
  ne : batches ≠ []
  fits : ∀ r ∈ batches, Fits c r
  flatten_eq : chunks.flatten = batches.flatMap (encoded c)
  small : (batches.flatMap (encoded c)).length < 2 ^ 31

end

namespace BatchPayload

variable {c : MetaCodec}

/-- The bytes of a payload. -/
def data (p : BatchPayload c) : List UInt8 := p.batches.flatMap (encoded c)

/-- The offsets a payload's batches take. -/
def delta (p : BatchPayload c) : Nat := ((p.batches.map (batchOf c)).map Batch.delta).sum

theorem continues_cons {p : BatchPayload c} {ps : List (BatchPayload c)} {next : Nat} :
    Continues next ((p :: ps).flatMap BatchPayload.batches) ↔
      Continues next p.batches ∧ Continues (next + p.delta) (ps.flatMap BatchPayload.batches) := by
  have hdelta : (p.batches.map fun r => r.metadata.lastOffsetDelta.toInt.toNat).sum = p.delta := by
    simp [delta, batchOf, Function.comp_def]
  rw [List.flatMap_cons, continues_append, hdelta]

end BatchPayload

/-! ## The state between two writes -/

/-- The open multi-part object and its write loop hold the bytes `pending`,
of the offsets from `s` to `next`, and are not full. -/
structure OpenObject (epoch objectSize : Nat) (obj : MultiPartObject) (w : WriteLoop) (s next : Nat)
    (pending : List UInt8) : Prop where
  start : obj.startOffset = s
  metadata : w.metadata = ⟨epoch, s, 0, 0⟩
  bound : obj.objectSize = objectSize
  size : obj.size = pending.length
  dataLen : w.dataLen = pending.length
  written : w.written = pending
  endOffset : w.endOffset = next
  le : s ≤ next
  notFull : pending.length < objectSize
  pass : obj.lastPassThroughSize ≤ pending.length

/-- What the offload holds between two writes, when it has written up to
`next`: nothing, or an open object holding `pending` from `s` on. -/
inductive Offloading (self : RangeOffload) : Nat → Nat → List UInt8 → Prop
  | idle (hnone : self.multiPartObject = none) (next : Nat) : Offloading self next next []
  | filling {obj : MultiPartObject} {w : WriteLoop} {s next : Nat} {pending : List UInt8}
      (hopen : self.multiPartObject = some (obj, some w))
      (hobj : OpenObject self.epoch self.objectSize obj w s next pending) : Offloading self s next pending

theorem Offloading.le {self : RangeOffload} {s next : Nat} {pending : List UInt8}
    (hinv : Offloading self s next pending) : s ≤ next := by
  cases hinv with
  | idle => exact le_rfl
  | filling _ hobj => exact hobj.le

/-- What a write or a flush commits: the objects hold the bytes pending
before it and those it takes, but for the bytes still pending after it, and
follow one another from `s` to `s'`, where what is pending after starts. -/
structure Written (epoch : Nat) (s : Nat) (pending taken : List UInt8) (objs : List Committed) (s' : Nat)
    (pending' : List UInt8) : Prop where
  data : (objs.map Committed.data).flatten ++ pending' = pending ++ taken
  contiguous : Contiguous s objs s'
  epochs : ∀ o ∈ objs, o.metadata.epoch = epoch
  framed : ∀ o ∈ objs, o.Framed

theorem Written.nil {epoch s : Nat} {pending data : List UInt8} :
    Written epoch s pending data [] s (pending ++ data) :=
  ⟨by simp, rfl, by simp, by simp⟩

/-- A write or a flush that commits one object holding everything pending. -/
theorem Written.single {epoch s s' : Nat} {pending data : List UInt8} {o : Committed}
    (hdata : o.data = pending ++ data) (hstart : o.metadata.startOffset = s) (hend : s + o.metadata.endOffsetDelta = s')
    (hepoch : o.metadata.epoch = epoch) (hframed : o.Framed) :
    Written epoch s pending data [o] s' [] :=
  ⟨by simp [hdata], hend ▸ contiguous_singleton hstart, by simp [hepoch], by simp [hframed]⟩

theorem Written.append {epoch s t e : Nat} {p₁ d₁ p₂ d₂ p₃ : List UInt8} {os₁ os₂ : List Committed}
    (h₁ : Written epoch s p₁ d₁ os₁ t p₂) (h₂ : Written epoch t p₂ d₂ os₂ e p₃) :
    Written epoch s p₁ (d₁ ++ d₂) (os₁ ++ os₂) e p₃ where
  data := calc ((os₁ ++ os₂).map Committed.data).flatten ++ p₃
      _ = (os₁.map Committed.data).flatten ++ ((os₂.map Committed.data).flatten ++ p₃) := by simp
      _ = ((os₁.map Committed.data).flatten ++ p₂) ++ d₂ := by rw [h₂.data, List.append_assoc]
      _ = p₁ ++ (d₁ ++ d₂) := by rw [h₁.data, List.append_assoc]
  contiguous := h₁.contiguous.append h₂.contiguous
  epochs := by
    intro o ho
    rcases List.mem_append.mp ho with ho | ho
    · exact h₁.epochs o ho
    · exact h₂.epochs o ho
  framed := by
    intro o ho
    rcases List.mem_append.mp ho with ho | ho
    · exact h₁.framed o ho
    · exact h₂.framed o ho

/-! ## One write, and the flush -/

section
variable (c : MetaCodec)

/-- A write while nothing is pending: a payload of an object's size is
written whole, a smaller one opens a multi-part object. -/
theorem Offloading.write_of_idle {self : RangeOffload} (hnone : self.multiPartObject = none)
    (hobject : self.objectSize ≤ 2 ^ 31) {next : Nat} (p : BatchPayload c) (hcont : Continues next p.batches)
    (hspan : p.delta < 2 ^ 32) :
    ∃ self' s' pending' objs, self.write c next p.chunks = .ok (self', objs, next + p.delta) ∧
      self'.epoch = self.epoch ∧ self'.objectSize = self.objectSize ∧ next ≤ s' ∧
      Offloading self' s' (next + p.delta) pending' ∧ Written self.epoch next [] p.data objs s' pending' ∧
      ∀ o ∈ objs, self.objectSize ≤ o.metadata.dataLen := by
  have hsmall := p.small
  have hpassLe := @passAfter_le SPARSE_SIZE (p.batches.map (batchOf c)) 0
  rw [← length_flatMap_encoded] at hpassLe
  unfold BatchPayload.data BatchPayload.delta at *
  by_cases hbig : self.objectSize ≤ (p.batches.flatMap (encoded c)).length
  · -- a payload of an object's size is written whole
    have hw := RangeOffload.write_single c self hnone p.ne p.fits hcont p.flatten_eq hbig (by omega) (by omega)
    refine ⟨self, _, [], _, hw, rfl, rfl, Nat.le_add_right _ _, .idle hnone _, ?_, by simpa using hbig⟩
    exact Written.single (by rw [List.nil_append]; exact Committed.data_of rfl rfl) rfl rfl rfl
      (Committed.framed_of rfl rfl)
  · -- a smaller one opens a multi-part object
    obtain ⟨epoch, objectSize, mpo⟩ := self
    simp only at hnone hobject hbig
    subst hnone
    have hw := RangeOffload.write_open c epoch objectSize (by omega) p.ne p.fits hcont p.flatten_eq
      (Nat.lt_of_not_le hbig)
    refine ⟨_, next, p.batches.flatMap (encoded c), [], hw, rfl, rfl, le_rfl,
      .filling rfl ⟨rfl, rfl, rfl, rfl, rfl, rfl, rfl, Nat.le_add_right _ _, Nat.lt_of_not_le hbig, ?_⟩, ?_,
      by simp⟩
    · simpa using hpassLe
    · simpa using @Written.nil epoch next [] (p.batches.flatMap (encoded c))

/-- A write to the open object: a part that fills it closes and commits it,
a smaller one is added to it. -/
theorem Offloading.write_of_filling {self : RangeOffload} {obj : MultiPartObject} {w : WriteLoop}
    {s next : Nat} {pending : List UInt8} (hopen : self.multiPartObject = some (obj, some w))
    (hobj : OpenObject self.epoch self.objectSize obj w s next pending) (hobject : self.objectSize ≤ 2 ^ 31)
    (p : BatchPayload c) (hcont : Continues next p.batches) (hspan : next - s + p.delta < 2 ^ 32) :
    ∃ self' s' pending' objs, self.write c next p.chunks = .ok (self', objs, next + p.delta) ∧
      self'.epoch = self.epoch ∧ self'.objectSize = self.objectSize ∧ s ≤ s' ∧
      Offloading self' s' (next + p.delta) pending' ∧ Written self.epoch s pending p.data objs s' pending' ∧
      ∀ o ∈ objs, self.objectSize ≤ o.metadata.dataLen := by
  have hsmall := p.small
  have hpassLe := @passAfter_le SPARSE_SIZE (p.batches.map (batchOf c)) obj.lastPassThroughSize
  rw [← length_flatMap_encoded] at hpassLe
  unfold BatchPayload.data BatchPayload.delta at *
  have hle := hobj.le
  have hstart : obj.startOffset ≤ next := hobj.start ▸ hle
  have hpass := hobj.pass
  have hnotFull := hobj.notFull
  by_cases hfull : self.objectSize ≤ pending.length + (p.batches.flatMap (encoded c)).length
  · -- the part fills the object, which the write closes and commits
    have hw := RangeOffload.write_full c self hopen p.ne p.fits hcont hstart p.flatten_eq
      (by rw [hobj.bound, hobj.size]; exact hfull) (by rw [hobj.size]; omega) (by omega)
      (by rw [hobj.metadata, hobj.endOffset]; dsimp only; omega) (by rw [hobj.dataLen]; omega) next
    rw [hobj.metadata, hobj.endOffset, hobj.dataLen, hobj.written, Nat.max_eq_right (Nat.le_add_right _ _)] at hw
    dsimp only at hw
    rw [Nat.mod_eq_of_lt (by omega)] at hw
    refine ⟨{ self with multiPartObject := none }, _, [], _, hw, rfl, rfl, by omega, .idle rfl _, ?_,
      by simpa using hfull⟩
    exact Written.single (Committed.data_of (by simp) rfl) rfl (by simp; omega) rfl
      (Committed.framed_of (by simp) rfl)
  · -- the part is added to the open object
    have hw := RangeOffload.write_part c self hopen p.ne p.fits hcont hstart p.flatten_eq
      (by rw [hobj.bound, hobj.size]; omega) (by rw [hobj.bound]; omega) (by omega) next
    refine ⟨_, s, pending ++ p.batches.flatMap (encoded c), [], hw, rfl, rfl, le_rfl,
      .filling rfl ⟨hobj.start, hobj.metadata, hobj.bound, ?_, ?_, ?_, ?_, ?_, ?_, ?_⟩, Written.nil, by simp⟩
    · simp [hobj.size]
    · simp [hobj.dataLen]
    · simp [hobj.written]
    · dsimp only
      rw [hobj.endOffset]
      omega
    · omega
    · simp only [List.length_append]
      omega
    · simp only [List.length_append]
      omega

/-- **One write keeps the invariant.** A payload of batches continuing from
`next` is taken whole and the write returns the offset its last batch ends
at. The objects it commits hold what was pending and the payload, but for
what stays pending, and each holds at least an object's size of data. -/
theorem Offloading.write {self : RangeOffload} {s next : Nat} {pending : List UInt8}
    (hinv : Offloading self s next pending) (hobject : self.objectSize ≤ 2 ^ 31) (p : BatchPayload c)
    (hcont : Continues next p.batches) (hspan : next - s + p.delta < 2 ^ 32) :
    ∃ self' s' pending' objs, self.write c next p.chunks = .ok (self', objs, next + p.delta) ∧
      self'.epoch = self.epoch ∧ self'.objectSize = self.objectSize ∧ s ≤ s' ∧
      Offloading self' s' (next + p.delta) pending' ∧ Written self.epoch s pending p.data objs s' pending' ∧
      ∀ o ∈ objs, self.objectSize ≤ o.metadata.dataLen := by
  cases hinv with
  | idle hnone => exact Offloading.write_of_idle c hnone hobject p hcont (by omega)
  | filling hopen hobj => exact Offloading.write_of_filling c hopen hobj hobject p hcont hspan

/-- **The flush commits what is pending**, as one object at most, which
ends at `next`. -/
theorem Offloading.flush {self : RangeOffload} {s next : Nat} {pending : List UInt8}
    (hinv : Offloading self s next pending) (hobject : self.objectSize ≤ 2 ^ 31) (hspan : next - s < 2 ^ 32) :
    ∃ self' objs, self.flush = .ok (self', objs) ∧ Written self.epoch s pending [] objs next [] ∧
      objs.length ≤ 1 := by
  cases hinv with
  | idle hnone =>
    exact ⟨self, [], by simp [RangeOffload.flush, hnone], by simpa using @Written.nil self.epoch s [] [], by simp⟩
  | @filling obj w _ _ _ hopen hobj =>
    have hle := hobj.le
    have hnotFull := hobj.notFull
    have hf := RangeOffload.flush_of_open self hopen (by rw [hobj.metadata, hobj.endOffset]; exact hle)
      (by rw [hobj.dataLen]; omega)
    rw [hobj.metadata, hobj.endOffset, hobj.dataLen, hobj.written] at hf
    dsimp only at hf
    rw [Nat.mod_eq_of_lt hspan] at hf
    refine ⟨_, _, hf, ?_, by simp⟩
    exact Written.single (by rw [List.append_nil]; exact Committed.data_of rfl rfl) rfl (by dsimp only; omega) rfl
      (Committed.framed_of rfl rfl)

/-! ## A whole run -/

/-- **A run keeps the invariant.** From any state the invariant holds of,
the payloads written one after the other and the flush commit objects that
hold what was pending and every payload, from `s` to the offset the run
returns; all of them but the flushed one hold an object's size of data. -/
theorem Offloading.offloadRun {self : RangeOffload} {s next : Nat} {pending : List UInt8}
    (hinv : Offloading self s next pending) (hobject : self.objectSize ≤ 2 ^ 31) (ps : List (BatchPayload c))
    (hcont : Continues next (ps.flatMap BatchPayload.batches))
    (hspan : next - s + (ps.map BatchPayload.delta).sum < 2 ^ 32) :
    ∃ full last, RangeOffload.offloadRun c self next (ps.map BatchPayload.chunks) =
        .ok (full ++ last, next + (ps.map BatchPayload.delta).sum) ∧
      Written self.epoch s pending (ps.flatMap BatchPayload.data) (full ++ last)
        (next + (ps.map BatchPayload.delta).sum) [] ∧
      (∀ o ∈ full, self.objectSize ≤ o.metadata.dataLen) ∧ last.length ≤ 1 := by
  -- the induction is on the payloads, from whatever state the previous writes left
  induction ps generalizing self s next pending with
  | nil =>
    obtain ⟨self', objs, hf, hW, hlen⟩ := hinv.flush hobject (by simpa using hspan)
    refine ⟨[], objs, ?_, ?_, by simp, hlen⟩
    · simp [RangeOffload.offloadRun, hf]
    · simpa using hW
  | cons p ps ih =>
    obtain ⟨hcont₁, hcont₂⟩ := BatchPayload.continues_cons.mp hcont
    have hle := hinv.le
    simp only [List.map_cons, List.sum_cons] at hspan
    obtain ⟨self', s', pending', objs, hw, hepoch, hsize, hss', hinv', hW, hfull⟩ :=
      hinv.write c hobject p hcont₁ (by omega)
    have hle' := hinv'.le
    obtain ⟨full, last, hrun, hW', hfull', hlast⟩ := ih hinv' (hsize ▸ hobject) hcont₂ (by omega)
    refine ⟨objs ++ full, last, ?_, ?_, ?_, hlast⟩
    · simp [RangeOffload.offloadRun, hw, hrun, Nat.add_assoc]
    · rw [hepoch] at hW'
      simpa [List.append_assoc, Nat.add_assoc] using hW.append hW'
    · intro o ho
      rcases List.mem_append.mp ho with ho | ho
      · exact hfull o ho
      · exact hsize ▸ hfull' o ho

end

end ElasticStream.ObjectStorage
