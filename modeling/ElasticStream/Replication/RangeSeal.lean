import Mathlib
import ElasticStream.Replication.Quorum
import ElasticStream.Trace.Reachable

/-! # Concurrent seals of a replication range

`DefaultReplicationRange::seal` (replication/src/stream/replication_range.rs)
may be called by several tasks at once: the append task's
`get_writable_range` and `close`. The first call marks the range sealing and
runs the seal; a range it opened for write is sealed at its memory confirm
offset through the placement driver, one opened from an earlier writer first
seals the replicas for an end offset. Calls that find the range sealing
subscribe to `seal_task_tx` and wait; calls that find it sealed return its
confirm offset.

The seal publishes on `seal_task_tx` only when it succeeds. Both failure
paths clear the sealing flag and return, so a call waiting on a failed seal is
not woken: it waits until some later call seals the range, and it never
returns an error (`seal_waiter_waits_until_sealed`). -/

namespace ElasticStream.Replication.RangeSeal
open ElasticStream.Replication

/-- Where one call of `seal()` is. -/
inductive Call where
  /-- on `seal_task_tx.subscribe().recv()`, subscribed after `since` messages -/
  | waiting (since : Nat)
  /-- the sealing call of a range open for write, on `placement_driver_seal(end_offset)` -/
  | pdSeal (endOffset : Nat)
  /-- the sealing call of a range from an earlier writer, on `replicas_seal` -/
  | replicasSeal
  /-- that call, on `placement_driver_seal` of the end the replicas gave -/
  | pdSealAfterReplicas (endOffset : Nat)
  | returned (r : Except EsError Nat)
  deriving DecidableEq, Repr

/-- The call runs the seal: the range is sealing on its account. -/
def Call.busy : Call → Bool
  | .pdSeal _ | .replicasSeal | .pdSealAfterReplicas _ => true
  | _ => false

/-- The fields of the range that `seal` reads and writes, and every call made
so far. -/
structure Seals where
  openForWrite : Bool
  replicaCount : UInt8
  ackCount : UInt8
  sealed : Bool
  sealing : Bool
  confirmOffset : Nat
  /-- the messages `seal_task_tx` has sent -/
  sent : List (Except EsError Nat)
  calls : List Call
  deriving DecidableEq, Repr

inductive Event where
  /-- a task calls `seal()` -/
  | sealCall
  /-- the placement driver answers call `i`: `none` for `Ok` -/
  | pdReply (i : Nat) (r : Option EsError)
  /-- the replicas answer call `i` with the end offsets of those that sealed -/
  | replicasReply (i : Nat) (endOffsets : List Nat)
  /-- the receiver of call `i` takes the next message -/
  | recv (i : Nat)
  /-- `try_ack` raises the confirm offset of a writable range -/
  | ack (confirmOffset : Nat)
  deriving DecidableEq, Repr

namespace Seals

/-- A range before any call: not sealed, not sealing, nothing sent. -/
def init (openForWrite : Bool) (replicaCount ackCount : UInt8) (confirmOffset : Nat) : Seals :=
  ⟨openForWrite, replicaCount, ackCount, false, false, confirmOffset, [], []⟩

/-- `is_writable`: no flag set, and opened for write. -/
def writable (s : Seals) : Bool := !s.sealed && !s.sealing && s.openForWrite

/-- Call `i` moves to `c`. -/
def setCall (s : Seals) (i : Nat) (c : Call) : Seals := { s with calls := s.calls.set i c }

/-- The seal of call `i` succeeded with `e`: `mark_sealed` and the send. -/
def sealOk (s : Seals) (i : Nat) (e : Nat) : Seals :=
  { s.setCall i (.returned (.ok e)) with sealed := true, sealing := false, sent := s.sent ++ [.ok e] }

/-- The seal of call `i` failed with `err`: `erase_sealing`, and no send. -/
def sealFail (s : Seals) (i : Nat) (err : EsError) : Seals :=
  { s.setCall i (.returned (.error err)) with sealing := false }

def handle (s : Seals) : Event → Option Seals
  | .sealCall =>
    if s.sealed then some { s with calls := s.calls ++ [.returned (.ok s.confirmOffset)] }
    else if s.sealing then some { s with calls := s.calls ++ [.waiting s.sent.length] }
    else if s.openForWrite then
      some { s with sealing := true, calls := s.calls ++ [.pdSeal s.confirmOffset] }
    else some { s with sealing := true, calls := s.calls ++ [.replicasSeal] }
  | .pdReply i r =>
    match s.calls[i]?, r with
    | some (.pdSeal e), none => some (s.sealOk i e)
    | some (.pdSealAfterReplicas e), none => some { s.sealOk i e with confirmOffset := e }
    | some (.pdSeal _), some err | some (.pdSealAfterReplicas _), some err => some (s.sealFail i err)
    | _, _ => none
  | .replicasReply i endOffsets =>
    match s.calls[i]? with
    | some .replicasSeal =>
      match replicasSeal0 endOffsets s.replicaCount s.ackCount with
      | .ok e => some (s.setCall i (.pdSealAfterReplicas e))
      | .error err => some (s.sealFail i err)
    | _ => none
  | .recv i =>
    match s.calls[i]? with
    | some (.waiting since) => s.sent[since]?.map fun m => s.setCall i (.returned m)
    | _ => none
  | .ack c => if s.writable && s.confirmOffset < c then some { s with confirmOffset := c } else none

def Step (s s' : Seals) : Prop := ∃ ev, s.handle ev = some s'

def Reachable : Seals → Prop := Trace.Reachable Step fun s => ∃ w rc ac c, s = init w rc ac c

def run (s : Seals) : List Event → Option Seals
  | [] => some s
  | ev :: evs => (s.handle ev).bind fun s' => s'.run evs

theorem reachable_run {s s' : Seals} (h : s.Reachable) :
    ∀ {evs : List Event}, s.run evs = some s' → s'.Reachable
  | [], hr => by cases hr; exact h
  | ev :: evs, hr => by
    simp only [run, Option.bind_eq_some_iff] at hr
    obtain ⟨t, ht, hr⟩ := hr
    exact reachable_run (Trace.Reachable.tail h ⟨ev, ht⟩) hr

@[simp] theorem setCall_sealed (s : Seals) (i : Nat) (c : Call) : (s.setCall i c).sealed = s.sealed := rfl
@[simp] theorem setCall_sealing (s : Seals) (i : Nat) (c : Call) : (s.setCall i c).sealing = s.sealing := rfl
@[simp] theorem setCall_sent (s : Seals) (i : Nat) (c : Call) : (s.setCall i c).sent = s.sent := rfl
@[simp] theorem setCall_confirmOffset (s : Seals) (i : Nat) (c : Call) :
    (s.setCall i c).confirmOffset = s.confirmOffset := rfl

theorem setCall_calls_of_ne (s : Seals) {i j : Nat} (c : Call) (h : i ≠ j) :
    (s.setCall i c).calls[j]? = s.calls[j]? := by
  simp [setCall, h]

theorem setCall_calls_self (s : Seals) {i : Nat} (c : Call) {c' : Call} (h : s.calls[i]? = some c') :
    (s.setCall i c).calls[i]? = some c := by
  have hi : i < s.calls.length := (List.getElem?_eq_some_iff.mp h).1
  simp [setCall, hi]

theorem calls_append_of_lt {l : List Call} (c : Call) {j : Nat} {c' : Call} (h : l[j]? = some c') :
    (l ++ [c])[j]? = some c' := by
  rw [List.getElem?_append_left (List.getElem?_eq_some_iff.mp h).1, h]

/-! ## What a step can do -/

/-- **Inversion.** Each event's effect, with the guards under which it is enabled. -/
theorem handle_cases {s s' : Seals} {ev : Event} (h : s.handle ev = some s') :
    (ev = .sealCall ∧ s.sealed ∧ s' = { s with calls := s.calls ++ [.returned (.ok s.confirmOffset)] }) ∨
    (ev = .sealCall ∧ ¬ s.sealed ∧ s.sealing ∧ s' = { s with calls := s.calls ++ [.waiting s.sent.length] }) ∨
    (ev = .sealCall ∧ ¬ s.sealed ∧ ¬ s.sealing ∧
      s' = { s with sealing := true, calls := s.calls ++ [if s.openForWrite then .pdSeal s.confirmOffset
        else .replicasSeal] }) ∨
    (∃ i e, s.calls[i]? = some (.pdSeal e) ∧ s' = s.sealOk i e) ∨
    (∃ i e, s.calls[i]? = some (.pdSealAfterReplicas e) ∧ s' = { s.sealOk i e with confirmOffset := e }) ∨
    (∃ i c err, s.calls[i]? = some c ∧ c.busy ∧ s' = s.sealFail i err) ∨
    (∃ i e, s.calls[i]? = some .replicasSeal ∧ s' = s.setCall i (.pdSealAfterReplicas e)) ∨
    (∃ i since m, s.calls[i]? = some (.waiting since) ∧ s.sent[since]? = some m ∧
      s' = s.setCall i (.returned m)) ∨
    (∃ c, s.writable ∧ s' = { s with confirmOffset := c }) := by
  cases ev with
  | sealCall =>
    simp only [handle] at h
    split_ifs at h with h1 h2 h3 <;> cases h
    · exact .inl ⟨rfl, h1, rfl⟩
    · exact .inr (.inl ⟨rfl, h1, h2, rfl⟩)
    · exact .inr (.inr (.inl ⟨rfl, h1, h2, by simp [h3]⟩))
    · exact .inr (.inr (.inl ⟨rfl, h1, h2, by simp [h3]⟩))
  | pdReply i r =>
    simp only [handle] at h
    split at h <;> cases h
    · next e hc => exact .inr (.inr (.inr (.inl ⟨i, e, hc, rfl⟩)))
    · next e hc => exact .inr (.inr (.inr (.inr (.inl ⟨i, e, hc, rfl⟩))))
    · next e err hc => exact .inr (.inr (.inr (.inr (.inr (.inl ⟨i, _, err, hc, rfl, rfl⟩)))))
    · next e err hc => exact .inr (.inr (.inr (.inr (.inr (.inl ⟨i, _, err, hc, rfl, rfl⟩)))))
  | replicasReply i endOffsets =>
    simp only [handle] at h
    split at h
    · next hc =>
      split at h <;> cases h
      · next e _ => exact .inr (.inr (.inr (.inr (.inr (.inr (.inl ⟨i, e, hc, rfl⟩))))))
      · next err _ => exact .inr (.inr (.inr (.inr (.inr (.inl ⟨i, _, err, hc, rfl, rfl⟩)))))
    · cases h
  | recv i =>
    simp only [handle] at h
    split at h
    · next since hc =>
      obtain ⟨m, hm, rfl⟩ := Option.map_eq_some_iff.mp h
      exact .inr (.inr (.inr (.inr (.inr (.inr (.inr (.inl ⟨i, since, m, hc, hm, rfl⟩)))))))
    · cases h
  | ack c =>
    simp only [handle] at h
    split_ifs at h with hw
    cases h
    simp only [Bool.and_eq_true, decide_eq_true_eq] at hw
    exact .inr (.inr (.inr (.inr (.inr (.inr (.inr (.inr ⟨c, hw.1, rfl⟩)))))))

theorem getElem?_append_singleton {l : List Call} {c c' : Call} {j : Nat} (h : (l ++ [c])[j]? = some c') :
    l[j]? = some c' ∨ (j = l.length ∧ c' = c) := by
  rcases Nat.lt_or_ge j l.length with hj | hj
  · rw [List.getElem?_append_left hj] at h
    exact .inl h
  · rw [List.getElem?_append_right hj] at h
    have hj' : j - l.length = 0 := by
      by_contra hne
      rw [List.getElem?_eq_none (by simp; omega)] at h
      cases h
    rw [hj', List.getElem?_cons_zero, Option.some.injEq] at h
    exact .inr ⟨by omega, h.symm⟩

theorem getElem?_set_cases {l : List Call} {i j : Nat} {c c' : Call} (h : (l.set i c)[j]? = some c') :
    (j = i ∧ c' = c) ∨ (j ≠ i ∧ l[j]? = some c') := by
  by_cases hji : j = i
  · subst hji
    rw [List.getElem?_set_self'] at h
    cases hc : l[j]? with
    | none => simp [hc] at h
    | some x =>
      simp only [hc, Option.map_eq_map, Option.map_some, Option.some.injEq] at h
      exact .inl ⟨rfl, h.symm⟩
  · rw [List.getElem?_set_ne (Ne.symm hji)] at h
    exact .inr ⟨hji, h⟩

/-- Moving call `j` leaves call `i` as it was, unless `i` is `j`. -/
theorem setCall_frame {s : Seals} {i j : Nat} {c cj : Call} (hc : s.calls[i]? = some c)
    (hcj : s.calls[j]? = some cj) (c' : Call) : (s.setCall j c').calls[i]? = some c ∨ (j = i ∧ c = cj) := by
  by_cases hji : j = i
  · subst hji
    rw [hc, Option.some.injEq] at hcj
    exact .inr ⟨rfl, hcj⟩
  · exact .inl ((setCall_calls_of_ne s c' hji).trans hc)

/-! ## The invariant -/

/-- What holds of every reachable range: the channel has carried one `Ok`,
of the confirm offset, exactly when the range is sealed; a call runs the seal
only while the range is sealing and not sealed, and no other call does then;
a range open for write is sealed at its confirm offset; and a call that
returned `Ok` returned the confirm offset of the sealed range. -/
structure Inv (s : Seals) : Prop where
  sent : (s.sealed = false ∧ s.sent = []) ∨ (s.sealed = true ∧ s.sent = [.ok s.confirmOffset])
  busy : ∀ (i : Nat) (c : Call), s.calls[i]? = some c → c.busy → s.sealing = true ∧ s.sealed = false ∧
    ∀ (j : Nat) (c' : Call), s.calls[j]? = some c' → c'.busy → j = i
  pdSeal_end : ∀ (i e : Nat), s.calls[i]? = some (.pdSeal e) → e = s.confirmOffset
  agree : ∀ (i e : Nat), s.calls[i]? = some (.returned (.ok e)) → s.sealed = true ∧ e = s.confirmOffset

theorem inv_init (w : Bool) (rc ac : UInt8) (c : Nat) : (init w rc ac c).Inv :=
  ⟨.inl ⟨rfl, rfl⟩, by simp [init], by simp [init], by simp [init]⟩

section Preservation

variable {s : Seals}

/-- A call that runs no seal and returns no other end joins the calls. -/
theorem Inv.append (hi : s.Inv) {c : Call} (hc : c.busy = false)
    (hok : ∀ e, c = .returned (.ok e) → s.sealed = true ∧ e = s.confirmOffset) :
    Seals.Inv { s with calls := s.calls ++ [c] } := by
  refine ⟨hi.sent, fun i c₁ h₁ hb => ?_, fun i e h => ?_, fun i e h => ?_⟩
  · rcases getElem?_append_singleton h₁ with h₁ | ⟨-, rfl⟩
    · obtain ⟨hs, hd, hu⟩ := hi.busy i c₁ h₁ hb
      refine ⟨hs, hd, fun j c₂ h₂ hb₂ => ?_⟩
      rcases getElem?_append_singleton h₂ with h₂ | ⟨-, rfl⟩
      · exact hu j c₂ h₂ hb₂
      · rw [hc] at hb₂; cases hb₂
    · rw [hc] at hb; cases hb
  · rcases getElem?_append_singleton h with h | ⟨-, rfl⟩
    · exact hi.pdSeal_end i e h
    · cases hc
  · rcases getElem?_append_singleton h with h | ⟨-, rfl⟩
    · exact hi.agree i e h
    · exact hok e rfl

/-- The first call of an unsealed range that is not sealing starts the seal. -/
theorem Inv.start (hi : s.Inv) (hsealed : ¬ s.sealed) (hsealing : ¬ s.sealing) :
    Seals.Inv { s with sealing := true, calls := s.calls ++ [if s.openForWrite then .pdSeal s.confirmOffset
      else .replicasSeal] } := by
  -- no call ran a seal before, and none returned `Ok`
  have hidle : ∀ (i : Nat) (c : Call), s.calls[i]? = some c → c.busy = false := fun i c h => by
    by_contra hb
    exact hsealing (hi.busy i c h (by simpa using hb)).1
  have hnone : ∀ (i e : Nat), s.calls[i]? = some (.returned (.ok e)) → False := fun i e h =>
    hsealed (hi.agree i e h).1
  have hnew : (if s.openForWrite then Call.pdSeal s.confirmOffset else .replicasSeal).busy = true := by
    split <;> rfl
  refine ⟨.inl ⟨by simpa using hsealed, ?_⟩, fun i c h hb => ?_, fun i e h => ?_, fun i e h => ?_⟩
  · rcases hi.sent with h | h
    · exact h.2
    · exact absurd h.1 hsealed
  · rcases getElem?_append_singleton h with h | ⟨rfl, rfl⟩
    · rw [hidle i c h] at hb; cases hb
    · refine ⟨rfl, by simpa using hsealed, fun j c' h' hb' => ?_⟩
      rcases getElem?_append_singleton h' with h' | ⟨rfl, rfl⟩
      · rw [hidle j c' h'] at hb'; cases hb'
      · rfl
  · rcases getElem?_append_singleton h with h | ⟨-, he⟩
    · have := hidle i _ h
      simp [Call.busy] at this
    · split at he <;> cases he
      rfl
  · rcases getElem?_append_singleton h with h | ⟨-, he⟩
    · exact (hnone i e h).elim
    · split at he <;> cases he

/-- While call `i` runs the seal, no other call does. -/
theorem Inv.only_busy (hi : s.Inv) {i : Nat} {c : Call} (hc : s.calls[i]? = some c) (hb : c.busy) :
    ∀ (j : Nat) (c' : Call), s.calls[j]? = some c' → j ≠ i → c'.busy = false := fun j c' h hne => by
  by_contra hb'
  exact hne ((hi.busy i c hc hb).2.2 j c' h (by simpa using hb'))

/-- The seal run by call `i` succeeded with `e`. Both success paths are this
one: a range open for write is sealed at its confirm offset. -/
theorem Inv.sealOk (hi : s.Inv) {i : Nat} {c : Call} (hc : s.calls[i]? = some c) (hb : c.busy) (e : Nat) :
    Seals.Inv { s.sealOk i e with confirmOffset := e } := by
  have hunsealed := (hi.busy i c hc hb).2.1
  have hother := hi.only_busy hc hb
  have hsent : s.sent = [] := by
    rcases hi.sent with h | h
    · exact h.2
    · rw [h.1] at hunsealed; cases hunsealed
  have hsent' : (s.sealOk i e).sent = [.ok e] := by
    show s.sent ++ [.ok e] = [.ok e]
    rw [hsent]
    rfl
  refine ⟨.inr ⟨rfl, hsent'⟩, fun j c' h hb' => ?_, fun j e' h => ?_, fun j e' h => ?_⟩
  · rcases getElem?_set_cases h with ⟨-, rfl⟩ | ⟨hne, h⟩
    · cases hb'
    · rw [hother j c' h hne] at hb'; cases hb'
  · rcases getElem?_set_cases h with ⟨-, h⟩ | ⟨hne, h⟩
    · cases h
    · have := hother j _ h hne
      simp [Call.busy] at this
  · rcases getElem?_set_cases h with ⟨-, h⟩ | ⟨-, h⟩
    · cases h
      exact ⟨rfl, rfl⟩
    · rw [(hi.agree j e' h).1] at hunsealed; cases hunsealed

/-- The seal run by call `i` failed: the range is no longer sealing. -/
theorem Inv.sealFail (hi : s.Inv) {i : Nat} {c : Call} (hc : s.calls[i]? = some c) (hb : c.busy) (err : EsError) :
    (s.sealFail i err).Inv := by
  have hother := hi.only_busy hc hb
  refine ⟨hi.sent, fun j c' h hb' => ?_, fun j e h => ?_, fun j e h => ?_⟩
  · rcases getElem?_set_cases h with ⟨-, rfl⟩ | ⟨hne, h⟩
    · cases hb'
    · rw [hother j c' h hne] at hb'; cases hb'
  · rcases getElem?_set_cases h with ⟨-, h⟩ | ⟨hne, h⟩
    · cases h
    · have := hother j _ h hne
      simp [Call.busy] at this
  · rcases getElem?_set_cases h with ⟨-, h⟩ | ⟨-, h⟩
    · cases h
    · exact hi.agree j e h

/-- The replicas of call `i` gave the end `e`; the call goes on to the
placement driver. -/
theorem Inv.replicasDone (hi : s.Inv) {i : Nat} (hc : s.calls[i]? = some .replicasSeal) (e : Nat) :
    (s.setCall i (.pdSealAfterReplicas e)).Inv := by
  obtain ⟨hs, hunsealed, -⟩ := hi.busy i _ hc rfl
  have hother := hi.only_busy hc rfl
  refine ⟨hi.sent, fun j c' h hb' => ?_, fun j e' h => ?_, fun j e' h => ?_⟩
  · rcases getElem?_set_cases h with ⟨rfl, rfl⟩ | ⟨hne, h⟩
    · refine ⟨hs, hunsealed, fun k c'' h' hb'' => ?_⟩
      rcases getElem?_set_cases h' with ⟨rfl, -⟩ | ⟨hne', h'⟩
      · rfl
      · rw [hother k c'' h' hne'] at hb''; cases hb''
    · rw [hother j c' h hne] at hb'; cases hb'
  · rcases getElem?_set_cases h with ⟨-, h⟩ | ⟨hne, h⟩
    · cases h
    · have := hother j _ h hne
      simp [Call.busy] at this
  · rcases getElem?_set_cases h with ⟨-, h⟩ | ⟨-, h⟩
    · cases h
    · exact hi.agree j e' h

/-- A call returns a message the channel carried. -/
theorem Inv.recv (hi : s.Inv) (i : Nat) {since : Nat} {m : Except EsError Nat}
    (hm : s.sent[since]? = some m) : (s.setCall i (.returned m)).Inv := by
  refine ⟨hi.sent, fun j c' h hb' => ?_, fun j e h => ?_, fun j e h => ?_⟩
  · rcases getElem?_set_cases h with ⟨-, rfl⟩ | ⟨-, h⟩
    · cases hb'
    · obtain ⟨hs, hd, hu⟩ := hi.busy j c' h hb'
      refine ⟨hs, hd, fun k c'' h' hb'' => ?_⟩
      rcases getElem?_set_cases h' with ⟨-, rfl⟩ | ⟨-, h'⟩
      · cases hb''
      · exact hu k c'' h' hb''
  · rcases getElem?_set_cases h with ⟨-, h⟩ | ⟨-, h⟩
    · cases h
    · exact hi.pdSeal_end j e h
  · rcases getElem?_set_cases h with ⟨-, h⟩ | ⟨-, h⟩
    · -- the only message is the `Ok` of the seal that succeeded
      cases h
      rcases hi.sent with hs | hs
      · rw [hs.2] at hm; cases hm
      · rw [hs.2, List.getElem?_singleton] at hm
        split at hm <;> cases hm
        exact ⟨hs.1, rfl⟩
    · exact hi.agree j e h

/-- `try_ack` on a writable range: nothing runs a seal and nothing returned `Ok`. -/
theorem Inv.ack (hi : s.Inv) (hw : s.writable) (c : Nat) : Seals.Inv { s with confirmOffset := c } := by
  simp only [writable, Bool.and_eq_true, Bool.not_eq_true'] at hw
  obtain ⟨⟨hsealed, hsealing⟩, -⟩ := hw
  refine ⟨.inl ⟨hsealed, ?_⟩, fun j c' h hb' => ?_, fun j e h => ?_, fun j e h => ?_⟩
  · rcases hi.sent with h | h
    · exact h.2
    · rw [h.1] at hsealed; cases hsealed
  · rw [(hi.busy j c' h hb').1] at hsealing; cases hsealing
  · rw [(hi.busy j _ h rfl).1] at hsealing; cases hsealing
  · rw [(hi.agree j e h).1] at hsealed; cases hsealed

end Preservation

theorem inv_step {s s' : Seals} (hi : s.Inv) (h : Step s s') : s'.Inv := by
  obtain ⟨ev, h⟩ := h
  rcases handle_cases h with ⟨-, hs, rfl⟩ | ⟨-, -, -, rfl⟩ | ⟨-, h1, h2, rfl⟩ | ⟨i, e, hc, rfl⟩ |
      ⟨i, e, hc, rfl⟩ | ⟨i, c, err, hc, hb, rfl⟩ | ⟨i, e, hc, rfl⟩ | ⟨i, since, m, -, hm, rfl⟩ | ⟨c, hw, rfl⟩
  · exact hi.append rfl fun e he => by
      cases he
      exact ⟨hs, rfl⟩
  · exact hi.append rfl fun e he => by cases he
  · exact hi.start h1 h2
  · -- a range open for write is sealed at the confirm offset it keeps
    have hsame : s.sealOk i e = { s.sealOk i e with confirmOffset := e } := by
      rw [hi.pdSeal_end i e hc]
      rfl
    rw [hsame]
    exact hi.sealOk hc rfl e
  · exact hi.sealOk hc rfl e
  · exact hi.sealFail hc hb err
  · exact hi.replicasDone hc e
  · exact hi.recv i hm
  · exact hi.ack hw c

theorem Reachable.inv {s : Seals} (h : s.Reachable) : s.Inv :=
  Trace.Reachable.invariant Inv (fun _ ⟨w, rc, ac, c, he⟩ => he ▸ inv_init w rc ac c)
    (fun _ _ hi hs => inv_step hi hs) h

/-- Every call that returned `Ok` returned the same end: the sealing call, the
calls that waited on it and the calls that found the range sealed. -/
theorem returned_ok_agree {s : Seals} (hs : s.Reachable) {i j e e' : Nat}
    (hi : s.calls[i]? = some (.returned (.ok e))) (hj : s.calls[j]? = some (.returned (.ok e'))) : e = e' :=
  (hs.inv.agree i e hi).2.trans (hs.inv.agree j e' hj).2.symm

/-! ## Waiting calls -/

/-- **Frame.** A step leaves each existing call as it is, unless that call
runs the seal or is waiting and takes a message the channel carried. -/
theorem step_call {s s' : Seals} (h : Step s s') {i : Nat} {c : Call} (hc : s.calls[i]? = some c) :
    s'.calls[i]? = some c ∨ c.busy ∨
      ∃ n m, c = .waiting n ∧ s.sent[n]? = some m ∧ s'.calls[i]? = some (.returned m) := by
  obtain ⟨ev, h⟩ := h
  rcases handle_cases h with ⟨-, -, rfl⟩ | ⟨-, -, -, rfl⟩ | ⟨-, -, -, rfl⟩ | ⟨j, e, hcj, rfl⟩ |
      ⟨j, e, hcj, rfl⟩ | ⟨j, cj, err, hcj, hb, rfl⟩ | ⟨j, e, hcj, rfl⟩ | ⟨j, since, m, hcj, hm, rfl⟩ | ⟨_, -, rfl⟩
  · exact .inl (calls_append_of_lt _ hc)
  · exact .inl (calls_append_of_lt _ hc)
  · exact .inl (calls_append_of_lt _ hc)
  · rcases setCall_frame hc hcj (.returned (.ok e)) with h | ⟨-, rfl⟩
    · exact .inl h
    · exact .inr (.inl rfl)
  · rcases setCall_frame hc hcj (.returned (.ok e)) with h | ⟨-, rfl⟩
    · exact .inl h
    · exact .inr (.inl rfl)
  · rcases setCall_frame hc hcj (.returned (.error err)) with h | ⟨-, rfl⟩
    · exact .inl h
    · exact .inr (.inl hb)
  · rcases setCall_frame hc hcj (.pdSealAfterReplicas e) with h | ⟨-, rfl⟩
    · exact .inl h
    · exact .inr (.inl rfl)
  · rcases setCall_frame hc hcj (.returned m) with h | ⟨rfl, rfl⟩
    · exact .inl h
    · exact .inr (.inr ⟨since, m, rfl, hm, setCall_calls_self s _ hcj⟩)
  · exact .inl hc

/-- A returned call stays returned. -/
theorem returned_run {i : Nat} {r : Except EsError Nat} :
    ∀ {s s' : Seals} {evs : List Event}, s.calls[i]? = some (.returned r) → s.run evs = some s' →
      s'.calls[i]? = some (.returned r)
  | s, s', [], hc, hr => by cases hr; exact hc
  | s, s', ev :: evs, hc, hr => by
    simp only [run, Option.bind_eq_some_iff] at hr
    obtain ⟨t, ht, hr⟩ := hr
    rcases step_call ⟨ev, ht⟩ hc with h | hb | ⟨n, m, he, -⟩
    · exact returned_run h hr
    · cases hb
    · cases he

/-- **Run.** A waiting call keeps waiting through any run, or has returned the
`Ok` of a seal that succeeded. -/
theorem waiting_run {i n : Nat} :
    ∀ {s s' : Seals} {evs : List Event}, s.Reachable → s.calls[i]? = some (.waiting n) →
      s.run evs = some s' → s'.calls[i]? = some (.waiting n) ∨ ∃ e, s'.calls[i]? = some (.returned (.ok e))
  | s, s', [], _, hw, hr => by cases hr; exact .inl hw
  | s, s', ev :: evs, hs, hw, hr => by
    simp only [run, Option.bind_eq_some_iff] at hr
    obtain ⟨t, ht, hr⟩ := hr
    rcases step_call ⟨ev, ht⟩ hw with h | hb | ⟨n', m, he, hm, h⟩
    · exact waiting_run (Trace.Reachable.tail hs ⟨ev, ht⟩) h hr
    · cases hb
    · -- the channel carries only the `Ok` of the seal that succeeded
      cases he
      rcases hs.inv.sent with hsent | hsent
      · rw [hsent.2] at hm; cases hm
      · rw [hsent.2, List.getElem?_singleton] at hm
        split at hm <;> cases hm
        exact .inr ⟨_, returned_run h hr⟩

/-- A call waiting on `seal_task_tx` returns only once the range is sealed,
and then with the sealed end. While no seal succeeds it keeps waiting,
whatever else happens: the seal it waited on failing, other seals failing,
acknowledgements. In particular it never returns an error. -/
theorem seal_waiter_waits_until_sealed {s : Seals} (hs : s.Reachable) {i n : Nat}
    (hw : s.calls[i]? = some (.waiting n)) {evs : List Event} {s' : Seals} (hrun : s.run evs = some s') :
    (s'.sealed = false → s'.calls[i]? = some (.waiting n)) ∧
      ∀ r, s'.calls[i]? = some (.returned r) → s'.sealed = true ∧ r = .ok s'.confirmOffset := by
  have hi := (reachable_run hs hrun).inv
  rcases waiting_run hs hw hrun with h | ⟨e, h⟩
  · refine ⟨fun _ => h, fun r hr => ?_⟩
    rw [h] at hr
    cases hr
  · obtain ⟨hsealed, he⟩ := hi.agree i e h
    refine ⟨fun hf => ?_, fun r hr => ?_⟩
    · rw [hsealed] at hf
      cases hf
    · rw [h, Option.some.injEq, Call.returned.injEq] at hr
      exact ⟨hsealed, by rw [← hr, he]⟩

/-- What the placement driver answers in the example. -/
def pdError : EsError := ⟨.unexpected, "seal range fail"⟩

/-- A range open for write at confirm offset 5 after two calls of `seal`,
whose placement driver failed the first: the second call waits, and nothing
is sealing any more. -/
def afterFailedSeal : Seals := ⟨true, 3, 2, false, false, 5, [], [.returned (.error pdError), .waiting 0]⟩

theorem run_afterFailedSeal :
    (init true 3 2 5).run [.sealCall, .sealCall, .pdReply 0 (some pdError)] = some afterFailedSeal := rfl

/-- After an acknowledgement, a third call whose seal fails too. -/
def afterRetryFails : Seals :=
  ⟨true, 3, 2, false, false, 7, [], [.returned (.error pdError), .waiting 0, .returned (.error pdError)]⟩

theorem seal_waiter_after_failed_seal :
    afterFailedSeal.calls[0]? = some (.returned (.error pdError)) ∧ afterFailedSeal.sealing = false ∧
      afterFailedSeal.run [.ack 7, .sealCall, .pdReply 2 (some pdError)] = some afterRetryFails ∧
      afterRetryFails.calls[1]? = some (.waiting 0) :=
  have hs : afterFailedSeal.Reachable := reachable_run (Trace.Reachable.of_init ⟨true, 3, 2, 5, rfl⟩) run_afterFailedSeal
  have hrun : afterFailedSeal.run [.ack 7, .sealCall, .pdReply 2 (some pdError)] = some afterRetryFails := rfl
  ⟨rfl, rfl, hrun, (seal_waiter_waits_until_sealed hs rfl hrun).1 rfl⟩

end Seals

end ElasticStream.Replication.RangeSeal
