import ElasticStream.RangeServer.Seal

/-! # A replica's append tasks against its range server

`DefaultReplicationReplica::append` (replication/src/stream/replication_replica.rs)
spawns one task for each batch. The task loops: it stops if the replica is no
longer writable or is corrupted, marks the replica corrupted after three
failed attempts, and otherwise sends the batch; a reply with status `OK` raises
the shared `confirm_offset` to the batch's end, anything else is retried.

A `Session` runs these tasks against the range server of
`ElasticStream.RangeServer.Server`: each attempt goes through `check_barrier`,
the store append and the commit, and its reply is the server's answer. The
replica's confirm offset is always backed by the server's committed offset
(`confirmOffset_backed`), but neither is backed by stored data: a failed store
append leaves a hole that a later batch's commit passes
(`confirm_offset_over_hole`). -/

namespace ElasticStream.Replication
open ElasticStream.Trace ElasticStream.RangeServer

/-- The cells that the tasks of one replica share. -/
structure Replica where
  confirmOffset : Nat
  corrupted : Bool
  writable : Bool
  deriving DecidableEq, Repr

namespace Replica

/-- The checks at the top of the task's loop at attempt `attempts`: the
replica after them, and whether the task goes on to call `client.append`. -/
def proceeds (r : Replica) (attempts : Nat) : Replica × Bool :=
  if !r.writable then (r, false)
  else if r.corrupted then (r, false)
  else if attempts > 3 then ({ r with corrupted := true }, false)
  else (r, true)

/-- The task takes the reply to its call: `ok` is one result entry with
status `OK`. Returns the replica and whether the task loops again. -/
def onResult (r : Replica) (lastOffset : Nat) (ok : Bool) : Replica × Bool :=
  if ok then
    ({ r with confirmOffset := if r.confirmOffset < lastOffset then lastOffset else r.confirmOffset }, false)
  else (r, true)

@[simp] theorem proceeds_confirmOffset (r : Replica) (n : Nat) : (r.proceeds n).1.confirmOffset = r.confirmOffset := by
  unfold proceeds; split_ifs <;> rfl

theorem onResult_confirmOffset (r : Replica) (lastOffset : Nat) (ok : Bool) :
    (r.onResult lastOffset ok).1.confirmOffset = if ok then max r.confirmOffset lastOffset else r.confirmOffset := by
  unfold onResult
  cases ok
  · rfl
  · simp only [if_true]; split_ifs <;> omega

end Replica

/-- The replica, its range server, and its tasks: batches with the attempt
they are at, either about to loop (`ready`) or waiting for a reply. -/
structure Session where
  server : Server
  replica : Replica
  ready : List (Batch × Nat)
  waiting : List (Batch × Nat)
  deriving DecidableEq, Repr

inductive SessionEvent where
  | spawn (b : Batch)
  | send (b : Batch) (attempts : Nat)
  | storeOk (b : Batch)
  | storeFail (b : Batch) (attempts : Nat)
  | commit (b : Batch) (attempts : Nat)
  | sealRange (md : RangeMetadata)
  deriving DecidableEq, Repr

namespace Session

/-- A new replica of a new range: its confirm offset is the range start. -/
def init (md : RangeMetadata) : Session :=
  ⟨Server.init md, ⟨md.start, false, true⟩, [], []⟩

/-- The task of batch `b` at attempt `n` takes a reply. -/
def reply (s : Session) (b : Batch) (n : Nat) (ok : Bool) : Session :=
  let (r, again) := s.replica.onResult (b.offset + b.len) ok
  { s with replica := r, ready := if again then (b, n + 1) :: s.ready else s.ready }

def handle (s : Session) : SessionEvent → Option Session
  | .spawn b => some { s with ready := (b, 1) :: s.ready }
  | .send b n =>
    if (b, n) ∈ s.ready then
      let (r, go) := s.replica.proceeds n
      let s₁ := { s with replica := r, ready := s.ready.erase (b, n) }
      if go then
        match s.server.handle (.barrier b) with
        | some server => some { s₁ with server, waiting := (b, n) :: s.waiting }
        -- `check_barrier` rejected the batch: the reply carries its error status
        | none => some (s₁.reply b n false)
      else some s₁
    else none
  | .storeOk b => (s.server.handle (.storeOk b)).map fun server => { s with server }
  | .storeFail b n =>
    if (b, n) ∈ s.waiting then
      (s.server.handle (.storeFail b)).map fun server =>
        ({ s with server, waiting := s.waiting.erase (b, n) }).reply b n false
    else none
  | .commit b n =>
    if (b, n) ∈ s.waiting then
      let ok := decide ((s.server.range.commitAppend b.offset b.len).1 = .ok ())
      (s.server.handle (.commit b)).map fun server =>
        ({ s with server, waiting := s.waiting.erase (b, n) }).reply b n ok
    else none
  -- `seal` of the replica clears `writable`, then seals the range on the server
  | .sealRange md =>
    (s.server.handle (.sealRange md)).map fun server =>
      { s with server, replica := { s.replica with writable := false } }

def Step (s s' : Session) : Prop := ∃ ev, s.handle ev = some s'

def Reachable : Session → Prop := Trace.Reachable Step (fun s => ∃ md, s = init md)

def run (s : Session) : List SessionEvent → Option Session
  | [] => some s
  | ev :: evs => (s.handle ev).bind (run · evs)

theorem reachable_run {s s' : Session} (h : s.Reachable) :
    ∀ {evs : List SessionEvent}, s.run evs = some s' → s'.Reachable
  | [], hr => by cases hr; exact h
  | ev :: evs, hr => by
    simp only [run, Option.bind_eq_some_iff] at hr
    obtain ⟨t, ht, hr⟩ := hr
    exact reachable_run (Trace.Reachable.tail h ⟨ev, ht⟩) hr

/-! ## Every step is a server step or leaves the server alone -/

@[simp] theorem reply_server (s : Session) (b : Batch) (n : Nat) (ok : Bool) :
    (s.reply b n ok).server = s.server := rfl

theorem reply_confirmOffset (s : Session) (b : Batch) (n : Nat) (ok : Bool) :
    (s.reply b n ok).replica.confirmOffset =
      if ok then max s.replica.confirmOffset (b.offset + b.len) else s.replica.confirmOffset :=
  Replica.onResult_confirmOffset _ _ _

/-- What one session step does to the server and to the confirm offset:
either the server does not move and neither does the confirm offset, or the
server takes one step, and the confirm offset moves only on a commit that
succeeded, to the batch's end. -/
theorem handle_server {s s' : Session} {ev : SessionEvent} (h : s.handle ev = some s') :
    (s'.server = s.server ∧ s'.replica.confirmOffset = s.replica.confirmOffset) ∨
      (Server.Step s.server s'.server ∧ s'.replica.confirmOffset = s.replica.confirmOffset) ∨
      ∃ b : Batch, Server.Step s.server s'.server ∧ (s.server.range.commitAppend b.offset b.len).1 = .ok () ∧
        s'.server.range = (s.server.range.commitAppend b.offset b.len).2 ∧
        s'.replica.confirmOffset = max s.replica.confirmOffset (b.offset + b.len) := by
  cases ev with
  | spawn b => cases h; exact .inl ⟨rfl, rfl⟩
  | send b n =>
    simp only [handle] at h
    split_ifs at h with hb hgo
    · split at h
      · rename_i server hs
        cases h
        exact .inr (.inl ⟨⟨_, hs⟩, by simp⟩)
      · cases h
        exact .inl ⟨rfl, by simp [reply_confirmOffset]⟩
    · cases h; exact .inl ⟨rfl, by simp⟩
  | storeOk b =>
    simp only [handle, Option.map_eq_some_iff] at h
    obtain ⟨server, hs, rfl⟩ := h
    exact .inr (.inl ⟨⟨_, hs⟩, rfl⟩)
  | storeFail b n =>
    simp only [handle] at h
    split_ifs at h
    simp only [Option.map_eq_some_iff] at h
    obtain ⟨server, hs, rfl⟩ := h
    exact .inr (.inl ⟨⟨_, hs⟩, by simp [reply_confirmOffset]⟩)
  | commit b n =>
    simp only [handle] at h
    split_ifs at h
    simp only [Option.map_eq_some_iff] at h
    obtain ⟨server, hs, rfl⟩ := h
    by_cases hok : (s.server.range.commitAppend b.offset b.len).1 = .ok ()
    · right; right
      exact ⟨b, ⟨_, hs⟩, hok, by simp [(Server.handle_commit hs).2], by simp [reply_confirmOffset, hok]⟩
    · exact .inr (.inl ⟨⟨_, hs⟩, by simp [reply_confirmOffset, hok]⟩)
  | sealRange md =>
    simp only [handle, Option.map_eq_some_iff] at h
    obtain ⟨server, hs, rfl⟩ := h
    exact .inr (.inl ⟨⟨_, hs⟩, rfl⟩)

theorem server_inv_step {s s' : Session} (hi : s.server.Inv) (h : Step s s') : s'.server.Inv := by
  obtain ⟨ev, hev⟩ := h
  rcases handle_server hev with ⟨he, -⟩ | ⟨hst, -⟩ | ⟨b, hst, -⟩
  · rw [he]; exact hi
  · exact Server.inv_step hi hst
  · exact Server.inv_step hi hst

theorem Reachable.server {s : Session} (h : s.Reachable) : s.server.Reachable := by
  unfold Reachable at h
  refine Trace.Reachable.invariant (fun s : Session => s.server.Reachable) ?_ ?_ h
  · rintro _ ⟨md, rfl⟩
    exact Trace.Reachable.of_init ⟨md, rfl⟩
  · intro s s' hr hs
    obtain ⟨ev, hev⟩ := hs
    rcases handle_server hev with ⟨he, -⟩ | ⟨hst, -⟩ | ⟨b, hst, -⟩
    · rw [he]; exact hr
    · exact Trace.Reachable.tail hr hst
    · exact Trace.Reachable.tail hr hst

/-! ## The confirm offset is backed by the server's committed offset -/

/-- The replica confirms nothing past the range start that the server has
not committed. -/
def Backed (s : Session) : Prop :=
  s.replica.confirmOffset ≤ s.server.range.metadata.start ∨
    ∃ c, s.server.range.committed = some c ∧ s.replica.confirmOffset ≤ c

theorem step_start {s s' : Server} (hs : Server.Step s s') : s'.range.metadata.start = s.range.metadata.start := by
  obtain ⟨ev, hev⟩ := hs
  cases ev with
  | barrier b => obtain ⟨_, _, _, he⟩ := Server.handle_barrier hev; rw [he]
  | storeOk b => rw [(Server.handle_storeOk hev).2]
  | storeFail b => rw [(Server.handle_storeFail hev).2]
  | commit b =>
    rw [(Server.handle_commit hev).2]
    simp only [Range.commitAppend]
    cases hw : s.range.window with
    | none => rw [Range.commit_sealed hw]
    | some win => rw [(Range.commit_window hw _).2.1]
  | sealRange md => rw [Server.handle_sealRange hev]; simp

/-- A server step that leaves the confirm offset alone keeps it backed: the
start stays and the committed offset does not fall. -/
theorem backed_of_server_step {s s' : Session} (hs : Server.Step s.server s'.server)
    (hc : s'.replica.confirmOffset = s.replica.confirmOffset) (h : s.Backed) : s'.Backed := by
  unfold Backed
  rw [hc, step_start hs]
  rcases h with h | ⟨c, hc', hle⟩
  · exact .inl h
  · obtain ⟨c', hc'', hcc⟩ := Server.step_committed_mono hs hc'
    exact .inr ⟨c', hc'', Nat.le_trans hle hcc⟩

/-- A successful commit of `v` leaves the committed offset at or above both `v`
and the start, unless `v` is below the start and nothing was committed. -/
theorem commit_ok_committed {r : Range} {v : Nat} (h : (r.commit v).1 = .ok ())
    (hstart : ∀ w, r.window = some w → r.metadata.start ≤ w.committed) :
    (v < r.metadata.start ∧ r.committed = none ∧ (r.commit v).2.committed = none) ∨
      ∃ c, (r.commit v).2.committed = some c ∧ v ≤ c ∧ r.metadata.start ≤ c ∧
        ∀ c₀, r.committed = some c₀ → c₀ ≤ c := by
  cases hw : r.window with
  | none => rw [Range.commit_sealed hw] at h; cases h
  | some win =>
    have hs := hstart win hw
    obtain ⟨-, -, hsome, hnone⟩ := Range.commit_window hw v
    cases hc : r.committed with
    | some c₀ =>
      refine .inr ⟨_, hsome c₀ hc, by omega, by omega, fun c₁ hc₁ => ?_⟩
      cases hc₁; omega
    | none =>
      rw [hnone hc]
      split_ifs with hge
      · exact .inr ⟨_, rfl, by omega, hge, fun _ h => by cases h⟩
      · exact .inl ⟨by omega, rfl, rfl⟩

theorem backed_commit {s s' : Session} {b : Batch} (hi : s.server.Inv)
    (hok : (s.server.range.commitAppend b.offset b.len).1 = .ok ())
    (hr : s'.server.range = (s.server.range.commitAppend b.offset b.len).2)
    (hc : s'.replica.confirmOffset = max s.replica.confirmOffset (b.offset + b.len)) (h : s.Backed) :
    s'.Backed := by
  simp only [Range.commitAppend] at hok hr
  have hstart : s'.server.range.metadata.start = s.server.range.metadata.start := by
    rw [hr]
    cases hw : s.server.range.window with
    | none => rw [Range.commit_sealed hw]
    | some win => rw [(Range.commit_window hw _).2.1]
  unfold Backed
  rw [hc, hstart, hr]
  rcases commit_ok_committed hok hi.start_le with ⟨hv, hnone, -⟩ | ⟨c, hc', hvc, hsc, hmono⟩
  · -- nothing was committed before, so the old confirm offset is at most the start
    rcases h with h | ⟨c, hc'', -⟩
    · exact .inl (by omega)
    · rw [hnone] at hc''; cases hc''
  · right
    refine ⟨c, hc', ?_⟩
    rcases h with h | ⟨c₀, hc₀, hle⟩
    · omega
    · have := hmono c₀ hc₀; omega

theorem backed_step {s s' : Session} (hi : s.server.Inv) (hb : s.Backed) (h : Step s s') : s'.Backed := by
  obtain ⟨ev, hev⟩ := h
  rcases handle_server hev with ⟨he, hc⟩ | ⟨hst, hc⟩ | ⟨b, -, hok, hr, hc⟩
  · unfold Backed; rw [he, hc]; exact hb
  · exact backed_of_server_step hst hc hb
  · exact backed_commit hi hok hr hc hb

/-- **The confirm offset is backed by the server.** In every interleaving of
the replica's tasks with the range server, the replica's confirm offset is
the range start or at most the server's committed offset. -/
theorem confirmOffset_backed {s : Session} (h : s.Reachable) : s.Backed := by
  unfold Reachable at h
  suffices hinv : s.server.Inv ∧ s.Backed from hinv.2
  refine Trace.Reachable.invariant (fun s : Session => s.server.Inv ∧ s.Backed) ?_ ?_ h
  · rintro _ ⟨md, rfl⟩
    exact ⟨Server.inv_init md, .inl (Nat.le_refl _)⟩
  · rintro s s' ⟨hi, hb⟩ hs
    exact ⟨server_inv_step hi hs, backed_step hi hb hs⟩

/-! ## A failed store append leaves a hole

`Window` documents its committed offset as "all records prior to this offset
are already persisted to store", but `check_barrier` moves `next` before the
store append and nothing takes it back when the append fails (append.rs:
"TODO: what to do with the offset on failure?"). -/

/-- Batches `[0, 10)` and `[10, 20)` are sent, the store append of the first
fails, the second is stored and committed, and the retry of the first is
rejected by `check_barrier` with `OffsetCommitted`. -/
def holeRun : List SessionEvent :=
  [.spawn ⟨0, 10⟩, .spawn ⟨10, 10⟩, .send ⟨0, 10⟩ 1, .send ⟨10, 10⟩ 1, .storeFail ⟨0, 10⟩ 1,
   .storeOk ⟨10, 10⟩, .commit ⟨10, 10⟩ 1, .send ⟨0, 10⟩ 2]

/-- After `holeRun` the replica, still not corrupted, confirms offset 20 and
the window has committed 20, yet offset 0 lies in no batch whose store append
returned `Ok`. -/
theorem confirm_offset_over_hole :
    ∃ s, (init ⟨0, none⟩).run holeRun = some s ∧ s.Reachable ∧
      s.replica.confirmOffset = 20 ∧ s.replica.corrupted = false ∧
      (∃ w, s.server.range.window = some w ∧ w.committed = 20) ∧
      (⟨0, 10⟩ : Batch) ∉ s.server.storedOk ∧
      ∀ b ∈ s.server.storedOk, ¬(b.offset ≤ 0 ∧ 0 < b.offset + b.len) := by
  have hs : (init ⟨0, none⟩).run holeRun = some _ := rfl
  exact ⟨_, hs, reachable_run (Trace.Reachable.of_init ⟨_, rfl⟩) hs, by decide, by decide, ⟨_, rfl, rfl⟩,
    by decide, by decide⟩

end Session

end ElasticStream.Replication
