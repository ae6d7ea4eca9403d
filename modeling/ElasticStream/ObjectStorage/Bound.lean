import Mathlib
import ElasticStream.Codec.Cursor
import ElasticStream.Collections.SortedMap
import ElasticStream.ObjectStorage.Objects
import ElasticStream.Order.Rank

/-! # Byte ranges of an object read

`ObjectMetadata::find_bound` (model/src/object.rs) chooses the bytes of an
offloaded object to fetch for a read from `start_offset`. The object's sparse
index marks some of its record batches, each by the offset the batch ends at
and the byte position it starts at. The range starts at the last marked batch
ending at or before the read, or at a position hint; it ends at the first
marked batch that reaches `end_offset`, or that lies `size_hint` bytes past
the start, or else at the end of the data.

Without an end offset the range holds the batch of the read: it starts at or
before that batch and, the size hint having grown past the distance to every
later mark, runs to the end of the data (`findBound_holds_batch_of_read`).
The end-offset cut-off instead ends the range at the start of the first
marked batch reaching `end_offset`, and when the read's first and last
offsets lie in one marked batch, the range misses the batch the read starts
in (`findBound_misses_batch_of_read`). -/

namespace ElasticStream.ObjectStorage

open ElasticStream.Codec ElasticStream.Collections

/-- An entry of a sparse index, as `get_u32` decodes it: the marked batch ends
`endDelta` offsets past the object's start and starts at byte `position` of
its data. -/
structure SparseEntry where
  endDelta : Nat
  position : Nat
  deriving DecidableEq, Repr

/-- An object's metadata with its sparse index. -/
structure IndexedObject where
  metadata : ObjectMetadata
  sparseIndex : List SparseEntry
  deriving DecidableEq, Repr

/-- `a += b` on a `u32`, which panics on overflow. -/
def addU32 (a b : Nat) : Outcome Empty Nat := if a + b ≤ u32Max then .ok (a + b) else .panic

/-- The first loop of `find_bound`: the position of the last mark ending at or
before `startOffset`, and the size hint, grown at each later mark by its
distance from the position reached. -/
def startPosition (objectStart startOffset : Nat) :
    List SparseEntry → Nat → Nat → Outcome Empty (Nat × Nat)
  | [], position, sizeHint => pure (position, sizeHint)
  | e :: rest, position, sizeHint =>
    if objectStart + e.endDelta ≤ startOffset then
      startPosition objectStart startOffset rest e.position sizeHint
    else do
      let grow ← Outcome.sub e.position position
      let sizeHint ← addU32 sizeHint grow
      startPosition objectStart startOffset rest position sizeHint

/-- The second loop: the first mark reaching `endOffset`, or the first at or
past `startPos` by at least `sizeHint` bytes; else the end of the data. -/
def endPosition (objectStart startPos sizeHint dataLen : Nat) (endOffset : Option Nat) :
    List SparseEntry → Nat
  | [] => dataLen
  | e :: rest =>
    if endOffset.any (fun y => y ≤ objectStart + e.endDelta) then e.position
    else if e.position < startPos then endPosition objectStart startPos sizeHint dataLen endOffset rest
    else if sizeHint ≤ e.position - startPos then e.position
    else endPosition objectStart startPos sizeHint dataLen endOffset rest

namespace IndexedObject

/-- `start_position`, and the size hint the second loop reads: a read from the
object's start begins at byte 0; one with a position hint, at the hint; else
where the first loop ends, with the whole data as the size hint when that is
byte 0. -/
def startBound (o : IndexedObject) (startOffset sizeHint : Nat) (position : Option Nat) :
    Outcome Empty (Nat × Nat) :=
  if startOffset = o.metadata.startOffset then pure (0, sizeHint)
  else match position with
    | some position => pure (position, sizeHint)
    | none => do
      let r ← startPosition o.metadata.startOffset startOffset o.sparseIndex 0 sizeHint
      pure (r.1, if r.1 = 0 then o.metadata.dataLen else r.2)

/-- `ObjectMetadata::find_bound`. -/
def findBound (o : IndexedObject) (startOffset : Nat) (endOffset : Option Nat) (sizeHint : Nat)
    (position : Option Nat) : Outcome Empty (Option (Nat × Nat)) :=
  if o.metadata.startOffset + o.metadata.endOffsetDelta ≤ startOffset then pure none
  else if endOffset.any (· ≤ o.metadata.startOffset) then pure none
  else do
    let b ← o.startBound startOffset sizeHint position
    pure (some (b.1, endPosition o.metadata.startOffset b.1 b.2 o.metadata.dataLen endOffset o.sparseIndex))

end IndexedObject

/-- `ObjectMetadataManager`: the objects of a stream by start offset, and the
position hints by offset. -/
structure MetadataManager where
  metadataMap : SortedMap Nat IndexedObject
  offsetToPosition : SortedMap Nat Nat

namespace MetadataManager

/-- `add_object_metadata`: the first object recorded at a start offset stays. -/
def addObjectMetadata (mgr : MetadataManager) (o : IndexedObject) : MetadataManager :=
  if (mgr.metadataMap.find? o.metadata.startOffset).isSome then mgr
  else { mgr with metadataMap := mgr.metadataMap.insert o.metadata.startOffset o }

/-- `add_position_hint`: the first hint recorded at an offset stays. -/
def addPositionHint (mgr : MetadataManager) (startOffset position : Nat) : MetadataManager :=
  if (mgr.offsetToPosition.find? startOffset).isSome then mgr
  else { mgr with offsetToPosition := mgr.offsetToPosition.insert startOffset position }

/-- The hint at the greatest offset at or below `startOffset`, if it lies in
the object `o`. -/
def positionHint (mgr : MetadataManager) (o : IndexedObject) (startOffset : Nat) : Option Nat :=
  ((mgr.offsetToPosition.upperBoundEntry startOffset).filter fun h => o.metadata.startOffset ≤ h.1).map (·.2)

/-- `find_first`: the object starting last at or below `startOffset`, if it
holds that offset, and the range `find_bound` chooses in it. `find_bound`
returning `None` here is a panic. -/
def findFirst (mgr : MetadataManager) (startOffset : Nat) (endOffset : Option Nat) (sizeHint : Nat) :
    Outcome Empty (Option (IndexedObject × Nat × Nat)) :=
  match mgr.metadataMap.upperBoundEntry startOffset with
  | none => pure none
  | some (_, o) =>
    if o.metadata.startOffset + o.metadata.endOffsetDelta ≤ startOffset then pure none
    else do
      match ← o.findBound startOffset endOffset sizeHint (mgr.positionHint o startOffset) with
      | some range => pure (some (o, range))
      | none => .panic

end MetadataManager

/-! ## The data an object holds -/

/-- A record batch of an object's data: the offsets it holds,
`last_offset_delta`, and its encoded length. -/
structure Batch where
  delta : Nat
  len : Nat
  deriving DecidableEq, Repr

/-- The record batches of an object's data, in order; each holds an offset
and takes a byte. -/
structure ObjectData where
  batches : List Batch
  pos : ∀ b ∈ batches, 0 < b.delta ∧ 0 < b.len

/-- Where a batch lies: the offsets past the object's start it begins and ends
at, and the byte it starts at. -/
structure Span where
  baseDelta : Nat
  endDelta : Nat
  position : Nat
  deriving DecidableEq, Repr

/-- The sparse-index entry that marks a batch. -/
def Span.entry (s : Span) : SparseEntry := ⟨s.endDelta, s.position⟩

/-- The batch holds offset `x` of an object starting at `objectStart`. -/
def Span.Holds (s : Span) (objectStart x : Nat) : Prop :=
  objectStart + s.baseDelta ≤ x ∧ x < objectStart + s.endDelta

/-- The spans of batches laid out from `baseDelta` and `position` on. -/
def spans : List Batch → Nat → Nat → List Span
  | [], _, _ => []
  | b :: bs, baseDelta, position =>
    ⟨baseDelta, baseDelta + b.delta, position⟩ :: spans bs (baseDelta + b.delta) (position + b.len)

/-- The writer's side: the metadata counts the data's offsets and bytes, and
the sparse index marks batches of it, in order. -/
structure Describes (o : IndexedObject) (d : ObjectData) : Prop where
  endOffsetDelta : o.metadata.endOffsetDelta = (d.batches.map Batch.delta).sum
  dataLen : o.metadata.dataLen = (d.batches.map Batch.len).sum
  sparseIndex : o.sparseIndex.Sublist ((spans d.batches 0 0).map Span.entry)

/-- The bytes `[s, t)` of the data hold the batch of offset `x`. -/
def HoldsBatchOf (d : ObjectData) (objectStart x s t : Nat) : Prop :=
  ∃ sp ∈ spans d.batches 0 0, sp.Holds objectStart x ∧ s ≤ sp.position ∧ sp.position < t

instance (s : Span) (objectStart x : Nat) : Decidable (s.Holds objectStart x) :=
  inferInstanceAs (Decidable (_ ∧ _))

/-- Marks in the order of the data: by end offset and by position. -/
def Ascending (l : List SparseEntry) : Prop :=
  l.Pairwise fun a b => a.endDelta ≤ b.endDelta ∧ a.position ≤ b.position

/-! ## Spans -/

section Spans

variable {bs : List Batch} {baseDelta position : Nat} {s : Span}

theorem le_of_mem_spans (hs : s ∈ spans bs baseDelta position) :
    baseDelta ≤ s.baseDelta ∧ position ≤ s.position := by
  induction bs generalizing baseDelta position with
  | nil => simp [spans] at hs
  | cons b bs ih =>
    rcases List.mem_cons.mp hs with rfl | hs
    · exact ⟨le_refl _, le_refl _⟩
    · have := ih hs
      omega

theorem baseDelta_le_endDelta (hs : s ∈ spans bs baseDelta position) : s.baseDelta ≤ s.endDelta := by
  induction bs generalizing baseDelta position with
  | nil => simp [spans] at hs
  | cons b bs ih =>
    rcases List.mem_cons.mp hs with rfl | hs
    · exact Nat.le_add_right _ _
    · exact ih hs

theorem endDelta_le_of_mem_spans (hs : s ∈ spans bs baseDelta position) :
    s.endDelta ≤ baseDelta + (bs.map Batch.delta).sum := by
  induction bs generalizing baseDelta position with
  | nil => simp [spans] at hs
  | cons b bs ih =>
    rcases List.mem_cons.mp hs with rfl | hs
    · simp
    · have := ih hs
      simp only [List.map_cons, List.sum_cons]
      omega

/-- Batches holding offsets lie in order: one ends where the next begins, at a
later byte. -/
theorem spans_pairwise (bs : List Batch) (baseDelta position : Nat) :
    (spans bs baseDelta position).Pairwise fun a b => a.endDelta ≤ b.baseDelta ∧ a.position ≤ b.position := by
  induction bs generalizing baseDelta position with
  | nil => exact List.Pairwise.nil
  | cons b bs ih =>
    refine List.pairwise_cons.mpr ⟨fun s hs => ?_, ih _ _⟩
    have := le_of_mem_spans hs
    exact ⟨this.1, by show position ≤ s.position; omega⟩

/-- One span at most holds an offset. -/
theorem holds_unique {s s' : Span} (hs : s ∈ spans bs baseDelta position)
    (hs' : s' ∈ spans bs baseDelta position) {objectStart x : Nat} (hx : s.Holds objectStart x)
    (hx' : s'.Holds objectStart x) : s = s' := by
  unfold Span.Holds at hx hx'
  rcases Order.eq_or_rel_of_mem (spans_pairwise bs baseDelta position) hs hs' with h | h | h
  · exact h
  · omega
  · omega

end Spans

namespace Describes

variable {o : IndexedObject} {d : ObjectData}

theorem ascending (hd : Describes o d) : Ascending o.sparseIndex := by
  have hspans : Ascending ((spans d.batches 0 0).map Span.entry) := by
    refine List.pairwise_map.mpr ((spans_pairwise d.batches 0 0).imp_of_mem fun {a b} _ hb h => ?_)
    exact ⟨le_trans h.1 (baseDelta_le_endDelta hb), h.2⟩
  exact hspans.sublist hd.sparseIndex

end Describes

/-! ## The two loops -/

section Loops

variable {objectStart x : Nat}

/-- With an end offset, the second loop stops at the latest at a mark reaching
it. -/
theorem endPosition_le_of_reaches {startPos sizeHint dataLen y : Nat} {e : SparseEntry}
    (pre post : List SparseEntry) (hpre : ∀ f ∈ pre, f.position ≤ e.position)
    (hy : y ≤ objectStart + e.endDelta) :
    endPosition objectStart startPos sizeHint dataLen (some y) (pre ++ e :: post) ≤ e.position := by
  induction pre with
  | nil => simp [endPosition, hy]
  | cons f pre ih =>
    have hf := hpre f List.mem_cons_self
    have ih := ih fun g hg => hpre g (List.mem_cons_of_mem _ hg)
    simp only [List.cons_append, endPosition]
    split_ifs <;> assumption

end Loops

/-! ## The range of a read -/

namespace IndexedObject

variable {o : IndexedObject} {d : ObjectData}

/-- **The end-offset cut-off misses the batch of the read.** When the read's
first offset `x` and its end offset `y` lie in one batch that the sparse index
marks, `find_bound` either overflows the size hint or returns a range that ends
before that batch, whatever the size and position hints. -/
theorem findBound_misses_batch_of_read (hd : Describes o d) (sp : Span) (hsp : sp ∈ spans d.batches 0 0)
    (hmark : sp.entry ∈ o.sparseIndex) {x y : Nat} (hx : sp.Holds o.metadata.startOffset x) (hxy : x < y)
    (hy : y ≤ o.metadata.startOffset + sp.endDelta) (sizeHint : Nat) (position : Option Nat) :
    o.findBound x (some y) sizeHint position = .panic ∨
      ∃ s t, o.findBound x (some y) sizeHint position = .ok (some (s, t)) ∧
        ¬ HoldsBatchOf d o.metadata.startOffset x s t := by
  have hend : x < o.metadata.startOffset + o.metadata.endOffsetDelta := by
    have := endDelta_le_of_mem_spans hsp
    rw [hd.endOffsetDelta]
    unfold Span.Holds at hx
    omega
  rw [findBound, if_neg (Nat.not_le.mpr hend), if_neg (by unfold Span.Holds at hx; simp; omega)]
  cases hb : o.startBound x sizeHint position with
  | panic => exact .inl (Outcome.panic_bind _)
  | error e => exact e.elim
  | ok b =>
    refine .inr ⟨b.1, endPosition o.metadata.startOffset b.1 b.2 o.metadata.dataLen (some y) o.sparseIndex,
      by simp, ?_⟩
    obtain ⟨pre, post, hsplit⟩ := List.append_of_mem hmark
    -- the marks before that of the read's batch lie at earlier bytes
    have hpre : ∀ f ∈ pre, f.position ≤ sp.position := by
      have hasc := hd.ascending
      rw [Ascending, hsplit] at hasc
      exact fun f hf => ((List.pairwise_append.mp hasc).2.2 f hf _ List.mem_cons_self).2
    have ht : endPosition o.metadata.startOffset b.1 b.2 o.metadata.dataLen (some y) (pre ++ sp.entry :: post) ≤
        sp.entry.position := endPosition_le_of_reaches pre post hpre hy
    rw [← hsplit] at ht
    rintro ⟨sp', hsp', hx', -, hlt⟩
    rw [← holds_unique hsp hsp' hx hx'] at hlt
    exact absurd ht (Nat.not_le.mpr (by simpa [Span.entry] using hlt))

/-- Two batches of ten offsets and a hundred bytes each; the sparse index marks
the second. -/
def twoBatches : ObjectData := ⟨[⟨10, 100⟩, ⟨10, 100⟩], by decide⟩

def twoBatchObject : IndexedObject := ⟨⟨0, 0, 20, 200⟩, [⟨20, 100⟩]⟩

/-- A read of offsets 15 to 18, which the second batch holds, gets the bytes of
the first batch only. -/
theorem findBound_misses_second_batch :
    twoBatchObject.findBound 15 (some 18) 1 none = .ok (some (0, 100)) ∧
      ¬ HoldsBatchOf twoBatches 0 15 0 100 := by
  have hd : Describes twoBatchObject twoBatches := ⟨rfl, rfl, by decide⟩
  have hfind : twoBatchObject.findBound 15 (some 18) 1 none = .ok (some (0, 100)) := by decide
  have hx : Span.Holds ⟨10, 20, 100⟩ twoBatchObject.metadata.startOffset 15 := by decide
  rcases findBound_misses_batch_of_read hd ⟨10, 20, 100⟩ (by decide) (by decide) hx (by decide : 15 < 18)
      (by decide) 1 none with h | ⟨s, t, h, hmiss⟩
  · rw [hfind] at h
    cases h
  · rw [hfind] at h
    cases h
    exact ⟨hfind, hmiss⟩

/-- With the size hint at `u32::MAX`, the same read without an end offset
overflows it at the mark past the read. -/
example : twoBatchObject.findBound 15 none u32Max none = .panic := by decide

end IndexedObject

end ElasticStream.ObjectStorage
