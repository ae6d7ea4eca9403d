import ElasticStream.RangeServer.Range
import ElasticStream.Trace.Reachable

/-! # Appends and seals of one range, in any interleaving

`Append::apply` (range-server/src/handler/append.rs) handles each record
batch of a request in three steps: `check_barrier` admits it when its offset
is the window's `next`, the store append completes (or fails) at some later
point, and a successful store append is committed with
`commit(offset + last_offset_delta)`, the batch being answered `OK` only if
the commit succeeds. Seal requests (`Range::seal`) arrive between any of
these steps. A `Server` holds the range and the batches in each phase, with
the history the properties speak about: every batch whose store append
returned `Ok`, every batch answered `OK`, and every metadata a seal returned.

Every step is one `Event`; `Server.handle` says what it does, and the
invariant `Inv` is derived from one lemma for each event. -/

namespace ElasticStream.RangeServer
open ElasticStream.Trace

/-- A record batch of an append request: base offset and `last_offset_delta`. -/
structure Batch where
  offset : Nat
  len : Nat
  deriving DecidableEq, Repr

structure Server where
  range : Range
  pending : List Batch
  stored : List Batch
  storedOk : List Batch
  acked : List Batch
  sealed : List RangeMetadata
  deriving DecidableEq, Repr

inductive Event where
  | barrier (b : Batch)
  | storeOk (b : Batch)
  | storeFail (b : Batch)
  | commit (b : Batch)
  | sealRange (md : RangeMetadata)
  deriving DecidableEq, Repr

namespace Server

def init (md : RangeMetadata) : Server := ⟨Range.new md, [], [], [], [], []⟩

/-- One step of the server. A batch that `check_barrier` rejects is answered
with an error and changes nothing, so it is no step. -/
def handle (s : Server) : Event → Option Server
  | .barrier b =>
    match s.range.checkBarrier b.offset b.len with
    | (.ok (), r) => some { s with range := r, pending := b :: s.pending }
    | (.error _, _) => none
  | .storeOk b =>
    if b ∈ s.pending then
      some { s with pending := s.pending.erase b, stored := b :: s.stored, storedOk := b :: s.storedOk }
    else none
  | .storeFail b =>
    if b ∈ s.pending then some { s with pending := s.pending.erase b } else none
  | .commit b =>
    if b ∈ s.stored then
      let (res, r) := s.range.commitAppend b.offset b.len
      some { s with range := r, stored := s.stored.erase b,
                    acked := if res = .ok () then b :: s.acked else s.acked }
    else none
  | .sealRange md =>
    let (r, md') := s.range.seal md
    some { s with range := r, sealed := md' :: s.sealed }

def Step (s s' : Server) : Prop := ∃ ev, s.handle ev = some s'

def Reachable : Server → Prop := Trace.Reachable Step (fun s => ∃ md, s = init md)

/-- Events handled in order. -/
def run (s : Server) : List Event → Option Server
  | [] => some s
  | ev :: evs => (s.handle ev).bind (run · evs)

theorem reachable_run {s s' : Server} (h : s.Reachable) :
    ∀ {evs : List Event}, s.run evs = some s' → s'.Reachable
  | [], hr => by cases hr; exact h
  | ev :: evs, hr => by
    simp only [run, Option.bind_eq_some_iff] at hr
    obtain ⟨t, ht, hr⟩ := hr
    exact reachable_run (Trace.Reachable.tail h ⟨ev, ht⟩) hr

/-! ## What each event does -/

theorem handle_barrier {s s' : Server} {b : Batch} (h : s.handle (.barrier b) = some s') :
    ∃ win, s.range.window = some win ∧ b.offset = win.next ∧
      s' = { s with range := { s.range with window := some { win with next := win.next + b.len } },
                    pending := b :: s.pending } := by
  simp only [handle] at h
  split at h
  · rename_i r hb
    obtain ⟨win, hw, ho, -, rfl⟩ := Range.checkBarrier_ok hb
    exact ⟨win, hw, ho, (Option.some.inj h).symm⟩
  · cases h

theorem handle_storeOk {s s' : Server} {b : Batch} (h : s.handle (.storeOk b) = some s') :
    b ∈ s.pending ∧ s' = { s with pending := s.pending.erase b, stored := b :: s.stored,
                                  storedOk := b :: s.storedOk } := by
  simp only [handle] at h
  split_ifs at h with hb
  exact ⟨hb, (Option.some.inj h).symm⟩

theorem handle_storeFail {s s' : Server} {b : Batch} (h : s.handle (.storeFail b) = some s') :
    b ∈ s.pending ∧ s' = { s with pending := s.pending.erase b } := by
  simp only [handle] at h
  split_ifs at h with hb
  exact ⟨hb, (Option.some.inj h).symm⟩

theorem handle_commit {s s' : Server} {b : Batch} (h : s.handle (.commit b) = some s') :
    b ∈ s.stored ∧
      s' = { s with range := (s.range.commitAppend b.offset b.len).2, stored := s.stored.erase b,
                    acked := if (s.range.commitAppend b.offset b.len).1 = .ok () then b :: s.acked
                      else s.acked } := by
  simp only [handle] at h
  by_cases hb : b ∈ s.stored
  · simp only [hb, if_true] at h
    exact ⟨hb, (Option.some.inj h).symm⟩
  · simp [hb] at h

theorem handle_sealRange {s s' : Server} {md : RangeMetadata} (h : s.handle (.sealRange md) = some s') :
    s' = { s with range := (s.range.seal md).1, sealed := (s.range.seal md).2 :: s.sealed } :=
  (Option.some.inj h).symm

end Server

end ElasticStream.RangeServer
