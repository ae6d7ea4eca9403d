import Mathlib
import ElasticStream.Model.RecordBatch

/-! # Store requests of an append

`Append::build_store_requests` (range-server/src/handler/append.rs) cuts the
payload of an append request into the batches it holds, with
`Payload::parse_append_entry`, and makes one `AppendRecordRequest` of each:
the batch's ids, base offset and last offset delta, and its bytes. A parse
error or a batch without a base offset answers `BAD_REQUEST`.

On batches laid end to end it makes one request for each, holding that
batch's bytes (`buildStoreRequests_encoded`). A payload the parser panics on
brings down the handler (`buildStoreRequests_of_panic`). -/

namespace ElasticStream.RangeServer
open ElasticStream.Codec ElasticStream.Model

/-- `AppendRecordRequest` (store/src/request.rs). -/
structure AppendRecordRequest where
  streamId : UInt64
  rangeIndex : Int32
  offset : UInt64
  len : UInt32
  buffer : List UInt8
  deriving DecidableEq, Repr

/-- The `ErrorCode` the handler answers a malformed payload with. -/
inductive ErrorCode where
  | badRequest
  deriving DecidableEq, Repr

section
variable (c : MetaCodec)

/-- The request of a batch, from its entry and its bytes. -/
def AppendRecordRequest.ofEntry (entry : AppendEntry) (offset : UInt64) (buffer : List UInt8) :
    AppendRecordRequest :=
  ⟨entry.streamId, entry.index.toInt32, offset, entry.len, buffer⟩

/-- `build_store_requests`, on the payload from the position `pos` reached:
`payload[pos..]`. -/
def buildStoreRequests (payload : List UInt8) : Outcome ErrorCode (List AppendRecordRequest) :=
  match h : parseAppendEntry c payload with
  | .ok (some entry, len) =>
    have _hlt : (payload.drop len).length < payload.length := by
      have := le_of_parseAppendEntry c h
      simp only [List.length_drop, MIN_RECORD_BATCH_LEN] at this ⊢
      omega
    match entry.offset with
    | none => .error .badRequest
    | some offset => do
      let rest ← buildStoreRequests (payload.drop len)
      pure (AppendRecordRequest.ofEntry entry offset (payload.take len) :: rest)
  | .ok (none, _) => pure []
  | .error _ => .error .badRequest
  | .panic => .panic
termination_by payload.length
decreasing_by exact _hlt

theorem buildStoreRequests_of_panic {payload : List UInt8} (h : parseAppendEntry c payload = .panic) :
    buildStoreRequests c payload = .panic := by
  rw [buildStoreRequests]
  split <;> simp_all

theorem buildStoreRequests_of_some {payload : List UInt8} {entry : AppendEntry} {n : Nat} {offset : UInt64}
    (h : parseAppendEntry c payload = .ok (some entry, n)) (hoffset : entry.offset = some offset) :
    buildStoreRequests c payload = (do
      let rest ← buildStoreRequests c (payload.drop n)
      pure (AppendRecordRequest.ofEntry entry offset (payload.take n) :: rest)) := by
  rw [buildStoreRequests]
  split
  · rename_i entry' n' h'
    rw [h] at h'
    simp only [Outcome.ok.injEq, Prod.mk.injEq, Option.some.injEq] at h'
    obtain ⟨rfl, rfl⟩ := h'
    simp only [hoffset]
  all_goals simp_all

/-- The request `build_store_requests` makes of a batch. -/
def AppendRecordRequest.ofBatch (r : RecordBatch) : AppendRecordRequest :=
  ⟨r.metadata.streamId.toUInt64, r.metadata.rangeIndex.toUInt32.toInt32, r.metadata.baseOffset.toUInt64,
    r.metadata.lastOffsetDelta.toUInt32, encoded c r⟩

/-- **One request for each batch.** On the encodings of batches laid end to
end, each with a base offset assigned, `build_store_requests` makes one
request for each batch, in order, holding the batch's own bytes. -/
theorem buildStoreRequests_encoded :
    ∀ {rs : List RecordBatch}, (∀ r ∈ rs, Fits c r ∧ r.metadata.baseOffset ≥ 0) →
      buildStoreRequests c (rs.flatMap (encoded c)) = .ok (rs.map (AppendRecordRequest.ofBatch c))
  | [], _ => by rw [buildStoreRequests]; simp [parseAppendEntry]
  | r :: rs, hrs => by
    obtain ⟨hfit, hbase⟩ := hrs r List.mem_cons_self
    have hrest := buildStoreRequests_encoded fun r' hr' => hrs r' (List.mem_cons_of_mem _ hr')
    have hoffset : (AppendEntry.ofMeta r.metadata).offset = some r.metadata.baseOffset.toUInt64 := by
      simp [AppendEntry.ofMeta, hbase]
    rw [List.flatMap_cons, buildStoreRequests_of_some c (parseAppendEntry_encoded c hfit _) hoffset,
      List.drop_left, List.take_left, hrest, Outcome.ok_bind, Outcome.pure_eq, List.map_cons]
    rfl

end

end ElasticStream.RangeServer
