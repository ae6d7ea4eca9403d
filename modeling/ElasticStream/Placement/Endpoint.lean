import ElasticStream.Placement.Metadata
import ElasticStream.Trace.Reachable

/-! # Concurrent calls of the endpoint

Each call of the endpoint runs its closure in `Etcd.ExecInTxn`
(pd/pkg/server/storage/kv/etcd.go): the reads of `etcdTxn.Get` go to the store
one at a time and record a compare, the writes are queued, and `Commit` applies
them if every compare holds; on `ErrKVDataModified` the closure runs again with
a new transaction, at most `_txnMaxRetry` times. Any number of calls run at
once, their steps interleaved. `TrimStream` looks up its first range with
`getRangeByOffset` before its transaction; that scan is one step here, on the
store of its moment. The lease of a deleted stream may expire at any time. -/

namespace ElasticStream.Placement
open ElasticStream.Kv ElasticStream.Collections ElasticStream.Trace

inductive Call where
  | createRange (p : CreateRangeParam) (serversOk : Bool)
  | sealRange (p : SealRangeParam)
  | trimStream (p : TrimStreamParam)
  | deleteStream (p : DeleteStreamParam)
  | updateStream (p : UpdateStreamParam)

namespace Call

/-- The closure of the call; `firstRange` is what `TrimStream` looked up. -/
def body (firstRange : Option RangeT) : Call → PdBody
  | .createRange p serversOk => Placement.createRange p serversOk
  | .sealRange p => Placement.sealRange p
  | .trimStream p => Placement.trimStream p firstRange
  | .deleteStream p => Placement.deleteStream p
  | .updateStream p => Placement.updateStream p

/-- The epoch the call carries and is checked against; `UpdateStream` sets one instead. -/
def epoch? : Call → Option Int
  | .createRange p _ => some p.epoch
  | .sealRange p => some p.epoch
  | .trimStream p => some p.epoch
  | .deleteStream p => some p.epoch
  | .updateStream _ => none

end Call

def txnMaxRetry : Nat := 3

/-- A call inside `ExecInTxn`: its first range (for `TrimStream`), the attempt,
and the transaction of this attempt. -/
structure Proc where
  call : Call
  firstRange : Option RangeT
  attempt : Nat
  txn : Txn Key Value (Except PdError Reply)

structure System where
  store : Store
  procs : Nat → Option Proc

inductive Event where
  /-- call `c` starts as process `p` -/
  | start (p : Nat) (c : Call)
  /-- the next read or write of process `p` -/
  | advance (p : Nat)
  /-- process `p` has run its closure to the end and commits -/
  | commit (p : Nat)
  /-- the transaction of `p` fails otherwise (`ErrKVTxnFailed`, a lost connection) -/
  | fail (p : Nat)
  /-- the lease of a deleted stream expires -/
  | expire

namespace System

def setProc (s : System) (p : Nat) (pr : Option Proc) : System :=
  { s with procs := Function.update s.procs p pr }

/-- What the commit of process `p` writes: the queued writes of a closure that
returned no error, if there are some and every compare holds. -/
def commitWrites (s : System) (p : Nat) : List (Op Key Value) :=
  match s.procs p with
  | some pr =>
    match pr.txn.body with
    | .ret (.ok _) => if pr.txn.ops ≠ [] ∧ pr.txn.valid s.store = true then pr.txn.ops else []
    | _ => []
  | none => []

/-- `ExecInTxn` after its closure returned: done, or run again after `ErrKVDataModified`. -/
def afterCommit (s : System) (pr : Proc) : Option Proc :=
  match pr.txn.body with
  | .ret (.ok _) =>
    if pr.txn.ops ≠ [] ∧ pr.txn.valid s.store = false ∧ pr.attempt + 1 < txnMaxRetry then
      some { pr with attempt := pr.attempt + 1, txn := Txn.begin (pr.call.body pr.firstRange) }
    else none
  | _ => none

/-- The delete of the stream key when its lease expires. -/
def expireOp : Op Key Value := .delete fun k => k == .stream

def handle (s : System) : Event → Option System
  | .start p c =>
    match s.procs p with
    | some _ => none
    | none =>
      let fr := match c with
        | .trimStream q => getRangeByOffset q.startOffset (rangesOf s.store) none
        | _ => none
      some (s.setProc p (some ⟨c, fr, 0, Txn.begin (c.body fr)⟩))
  | .advance p =>
    match s.procs p with
    | some pr =>
      match pr.txn.body with
      | .ret _ => none
      | _ => some (s.setProc p (some { pr with txn := pr.txn.advance s.store }))
    | none => none
  | .commit p =>
    match s.procs p with
    | some pr =>
      match pr.txn.body with
      | .ret _ => some { s.setProc p (s.afterCommit pr) with store := applyAll s.store (s.commitWrites p) }
      | _ => none
    | none => none
  | .fail p =>
    match s.procs p with
    | some _ => some (s.setProc p none)
    | none => none
  | .expire =>
    match streamAt s.store with
    | some st => if st.deleted then some { s with store := expireOp.apply s.store } else none
    | none => none

def Step (s s' : System) : Prop := ∃ ev, s.handle ev = some s'

/-- No call runs, and the store holds a live stream and no range. -/
def Initial (s : System) : Prop :=
  (∀ p, s.procs p = none) ∧ ∃ st : StreamT, s.store.entries = [(.stream, .stream st)] ∧ st.deleted = false

def Reachable : System → Prop := Trace.Reachable Step Initial

/-- A stream just created. -/
def new (st : StreamT) : System := ⟨⟨[(.stream, .stream st)], List.pairwise_singleton _ _⟩, fun _ => none⟩

def run (s : System) : List Event → Option System
  | [] => some s
  | ev :: evs => (s.handle ev).bind fun s' => s'.run evs

theorem reachable_run {s s' : System} {evs : List Event} (h : s.Reachable) (hrun : s.run evs = some s') :
    s'.Reachable := by
  induction evs generalizing s with
  | nil => cases hrun; exact h
  | cons ev evs ih =>
    simp only [run] at hrun
    obtain ⟨s₁, h₁, hrest⟩ := Option.bind_eq_some_iff.mp hrun
    exact ih (h.tail ⟨ev, h₁⟩) hrest

theorem initial_new {st : StreamT} (h : st.deleted = false) : (new st).Initial :=
  ⟨fun _ => rfl, st, rfl, h⟩

/-! ### Every process runs its closure -/

/-- Each running call's transaction is its closure after some steps. -/
def Inv (s : System) : Prop := ∀ p pr, s.procs p = some pr → Runs (pr.call.body pr.firstRange) pr.txn

variable {s s' : System} {p : Nat}

@[simp] theorem setProc_procs_self (opr : Option Proc) : (s.setProc p opr).procs p = opr :=
  Function.update_self _ _ _

theorem setProc_procs_of_ne {q : Nat} (opr : Option Proc) (h : q ≠ p) : (s.setProc p opr).procs q = s.procs q :=
  Function.update_of_ne h _ _

theorem Inv.setProc {opr : Option Proc} (hi : s.Inv)
    (hpr : ∀ pr, opr = some pr → Runs (pr.call.body pr.firstRange) pr.txn) : (s.setProc p opr).Inv := by
  intro q pr hq
  rcases eq_or_ne q p with rfl | hne
  · rw [setProc_procs_self] at hq
    exact hpr pr hq
  · rw [setProc_procs_of_ne opr hne] at hq
    exact hi q pr hq

theorem afterCommit_runs {pr pr' : Proc} (h : s.afterCommit pr = some pr') :
    Runs (pr'.call.body pr'.firstRange) pr'.txn := by
  unfold afterCommit at h
  split at h
  · split_ifs at h
    cases h
    exact Runs.begin
  · cases h

/-- What a step can do, guards included. -/
theorem handle_cases {ev : Event} (h : s.handle ev = some s') :
    (∃ q c fr, ev = .start q c ∧ s.procs q = none ∧ s' = s.setProc q (some ⟨c, fr, 0, Txn.begin (c.body fr)⟩)) ∨
    (∃ q pr, ev = .advance q ∧ s.procs q = some pr ∧ (∀ a, pr.txn.body ≠ .ret a) ∧
      s' = s.setProc q (some { pr with txn := pr.txn.advance s.store })) ∨
    (∃ q pr a, ev = .commit q ∧ s.procs q = some pr ∧ pr.txn.body = .ret a ∧
      s' = { s.setProc q (s.afterCommit pr) with store := applyAll s.store (s.commitWrites q) }) ∨
    (∃ q, ev = .fail q ∧ s.procs q ≠ none ∧ s' = s.setProc q none) ∨
    (ev = .expire ∧ (∃ st, streamAt s.store = some st ∧ st.deleted = true) ∧
      s' = { s with store := expireOp.apply s.store }) := by
  cases ev with
  | start q c =>
    simp only [handle] at h
    split at h
    · cases h
    · rename_i hq
      exact .inl ⟨q, c, _, rfl, hq, (Option.some.inj h).symm⟩
  | advance q =>
    simp only [handle] at h
    split at h
    · rename_i pr hq
      split at h
      · cases h
      · rename_i hnret
        exact .inr (.inl ⟨q, pr, rfl, hq, fun a ha => hnret a ha, (Option.some.inj h).symm⟩)
    · cases h
  | commit q =>
    simp only [handle] at h
    split at h
    · rename_i pr hq
      split at h
      · rename_i a hret
        exact .inr (.inr (.inl ⟨q, pr, a, rfl, hq, hret, (Option.some.inj h).symm⟩))
      · cases h
    · cases h
  | fail q =>
    simp only [handle] at h
    split at h
    · rename_i hq
      exact .inr (.inr (.inr (.inl ⟨q, rfl, by rw [hq]; exact Option.some_ne_none _,
        (Option.some.inj h).symm⟩)))
    · cases h
  | expire =>
    simp only [handle] at h
    split at h
    · rename_i st hst
      split_ifs at h with hdel
      exact .inr (.inr (.inr (.inr ⟨rfl, ⟨st, hst, hdel⟩, (Option.some.inj h).symm⟩)))
    · cases h

theorem inv_initial (h : s.Initial) : s.Inv := fun p pr hp => by rw [h.1 p] at hp; cases hp

theorem inv_step {ev : Event} (hi : s.Inv) (h : s.handle ev = some s') : s'.Inv := by
  rcases handle_cases h with ⟨q, c, fr, -, -, rfl⟩ | ⟨q, pr, -, hq, -, rfl⟩ | ⟨q, pr, a, -, -, -, rfl⟩ |
    ⟨q, -, -, rfl⟩ | ⟨-, -, rfl⟩
  · exact hi.setProc fun pr hpr => by cases hpr; exact Runs.begin
  · exact hi.setProc fun pr' hpr' => by cases hpr'; exact (hi q pr hq).advance s.store
  · -- the store changes, the processes only at `q`
    exact hi.setProc fun _ => afterCommit_runs
  · exact hi.setProc fun _ hpr => by cases hpr
  · exact hi

theorem Reachable.inv (h : s.Reachable) : s.Inv :=
  Trace.Reachable.invariant Inv (fun _ => inv_initial) (fun _ _ hi ⟨_, hs⟩ => inv_step hi hs) h

/-! ### How a step changes the store -/

theorem handle_store {ev : Event} (h : s.handle ev = some s') :
    s'.store = s.store ∨ (∃ q, ev = .commit q ∧ s'.store = applyAll s.store (s.commitWrites q)) ∨
      (ev = .expire ∧ s'.store = expireOp.apply s.store) := by
  rcases handle_cases h with ⟨-, -, -, -, -, rfl⟩ | ⟨-, -, -, -, -, rfl⟩ | ⟨q, -, -, rfl, -, -, rfl⟩ |
    ⟨-, -, -, rfl⟩ | ⟨rfl, -, rfl⟩
  · exact .inl rfl
  · exact .inl rfl
  · exact .inr (.inl ⟨q, rfl, rfl⟩)
  · exact .inl rfl
  · exact .inr (.inr ⟨rfl, rfl⟩)

/-- **What a commit writes is what its closure writes when run at once on the
store it commits to.** -/
theorem commitWrites_atomic (hi : s.Inv) (hw : s.commitWrites p ≠ []) :
    ∃ pr r, s.procs p = some pr ∧ (pr.call.body pr.firstRange).atomic s.store = (s.commitWrites p, .ok r) := by
  unfold commitWrites at hw ⊢
  split at hw
  · rename_i pr hp
    split at hw
    · rename_i r hb
      split_ifs at hw with hc
      · rw [if_pos hc]
        exact ⟨pr, r, hp, (hi p pr hp).commit_atomic hb hc.2⟩
      · exact absurd rfl hw
    · exact absurd rfl hw
  · exact absurd rfl hw

end System

/-! ### Epochs -/

/-- The epoch of the stored stream. -/
def storedEpoch (m : Store) : Option Int := (streamAt m).map StreamT.epoch

theorem streamAt_applyAll_of_untouched {m : Store} {ops : List (Op Key Value)}
    (h : ∀ op ∈ ops, op.Untouched .stream) :
    streamAt (applyAll m ops) = streamAt m := by
  unfold streamAt
  rw [find?_applyAll_of_untouched h]

/-- A put of the stream followed by writes that leave the stream key alone. -/
theorem streamAt_applyAll_put_stream {m : Store} {st : StreamT} {ops : List (Op Key Value)}
    (h : ∀ op ∈ ops, op.Untouched .stream) :
    streamAt (applyAll m (.put .stream (.stream st) :: ops)) = some st := by
  rw [applyAll_cons, streamAt_applyAll_of_untouched h]
  simp [streamAt, Op.apply, Value.stream?]

/-- An expired stream is gone. -/
theorem streamAt_expire (m : Store) : streamAt (System.expireOp.apply m) = none := by
  have h : (System.expireOp.apply m).find? .stream = none := by
    refine SortedMap.find?_eq_none_iff.mpr fun q hq hqk => ?_
    simp only [System.expireOp, Op.apply, SortedMap.filter_entries] at hq
    have := (List.mem_filter.mp hq).2
    simp [hqk] at this
  simp [streamAt, h]

namespace Call
variable {m : Store} {ops : List (Op Key Value)} {r : Reply} {fr : Option RangeT}

/-- **A call that writes passed its epoch check on the store it wrote to.** -/
theorem fenced {c : Call} {e : Int} (h : (c.body fr).atomic m = (ops, .ok r)) (hne : ops ≠ [])
    (he : c.epoch? = some e) : ∃ st, streamAt m = some st ∧ st.epoch = e ∧ st.deleted = false := by
  cases c with
  | createRange q ok =>
    obtain ⟨st, hs, hdel, hep, -⟩ := createRange_ok h
    exact ⟨st, hs, hep.trans (Option.some.inj he), hdel⟩
  | sealRange q =>
    obtain ⟨st, _, hs, hdel, hep, -⟩ := sealRange_ok h
    exact ⟨st, hs, hep.trans (Option.some.inj he), hdel⟩
  | trimStream q =>
    obtain ⟨st, _, _, hs, hdel, hep, -⟩ := trimStream_ok h
    exact ⟨st, hs, hep.trans (Option.some.inj he), hdel⟩
  | deleteStream q =>
    obtain ⟨st, hs, ⟨-, hops⟩ | ⟨hdel, hep, -⟩⟩ := deleteStream_ok h
    · exact absurd hops hne
    · exact ⟨st, hs, hep.trans (Option.some.inj he), hdel⟩
  | updateStream q => cases he

/-- No closure lowers the stored epoch. -/
theorem epoch_mono {c : Call} {e e' : Int} (h : (c.body fr).atomic m = (ops, .ok r))
    (he : storedEpoch m = some e) (he' : storedEpoch (applyAll m ops) = some e') : e ≤ e' := by
  -- writes that leave the stream key alone keep the epoch
  have keep : (∀ op ∈ ops, op.Untouched .stream) → e ≤ e' := fun hu => by
    rw [storedEpoch, streamAt_applyAll_of_untouched hu] at he'
    rw [storedEpoch, he'] at he
    exact Int.le_of_eq (Option.some.inj he).symm
  -- a put of the stream as `st'` first, then writes that leave it alone
  have put : ∀ (st st' : StreamT) (rest : List (Op Key Value)), streamAt m = some st →
      ops = .put .stream (.stream st') :: rest → (∀ op ∈ rest, op.Untouched .stream) →
      st.epoch ≤ st'.epoch → e ≤ e' := fun st st' rest hs hops hu hle => by
    rw [hops, storedEpoch, streamAt_applyAll_put_stream hu] at he'
    rw [storedEpoch, hs] at he
    rw [← Option.some.inj he, ← Option.some.inj he']
    exact hle
  cases c with
  | createRange q ok =>
    obtain ⟨-, -, -, -, -, hops⟩ := createRange_ok h
    exact keep (by simp [hops])
  | sealRange q =>
    obtain ⟨_, rr, -, -, -, -, -, -, hops⟩ := sealRange_ok h
    exact keep (by simp [hops])
  | trimStream q =>
    obtain ⟨st, f, rr, hs, -, -, -, -, -, hops⟩ := trimStream_ok h
    exact put st _ _ hs hops (by simp [Key.rangeBetween]) (Int.le_refl _)
  | deleteStream q =>
    obtain ⟨st, hs, ⟨-, hops⟩ | ⟨-, -, hops⟩⟩ := deleteStream_ok h
    · exact keep (by simp [hops])
    · exact put st _ _ hs hops (by simp [Key.isRange]) (Int.le_refl _)
  | updateStream q =>
    obtain ⟨st, st', hs, -, hle, hops⟩ := updateStream_ok h
    exact put st st' [] hs hops (by simp) hle

end Call

namespace System
variable {s s' : System} {p : Nat}

/-- **Stream epochs fence stale writers.** In every reachable state: no step
lowers the stored epoch; a call that carries an epoch writes only if the stored
stream, live, has that epoch at its commit; and the range a `CreateRange`
writes has the stored epoch. -/
theorem epoch_fences_stale_writers (h : s.Reachable) :
    (∀ ev s', s.handle ev = some s' → ∀ e e', storedEpoch s.store = some e →
      storedEpoch s'.store = some e' → e ≤ e') ∧
    (∀ p pr, s.procs p = some pr → s.commitWrites p ≠ [] → ∀ e, pr.call.epoch? = some e →
      ∃ st, streamAt s.store = some st ∧ st.epoch = e ∧ st.deleted = false) ∧
    (∀ p pr q serversOk, s.procs p = some pr → pr.call = .createRange q serversOk →
      ∀ i rg, Op.put (.range i) (.range rg) ∈ s.commitWrites p → storedEpoch s.store = some rg.epoch) := by
  have hi := h.inv
  refine ⟨?_, ?_, ?_⟩
  · intro ev s' hs e e' he he'
    rcases handle_store hs with hst | ⟨q, -, hst⟩ | ⟨-, hst⟩
    · rw [hst, he] at he'
      exact Int.le_of_eq (Option.some.inj he')
    · by_cases hw : s.commitWrites q = []
      · rw [hst, hw, applyAll_nil, he] at he'
        exact Int.le_of_eq (Option.some.inj he')
      · obtain ⟨pr, r, -, hat⟩ := commitWrites_atomic hi hw
        rw [hst] at he'
        exact Call.epoch_mono hat he he'
    · -- the expired stream key is gone
      rw [hst, storedEpoch, streamAt_expire] at he'
      cases he'
  · intro p pr hp hw e he
    obtain ⟨pr', r, hp', hat⟩ := commitWrites_atomic hi hw
    rw [hp] at hp'
    cases hp'
    exact Call.fenced hat hw he
  · intro p pr q serversOk hp hc i rg hmem
    have hw : s.commitWrites p ≠ [] := List.ne_nil_of_mem hmem
    obtain ⟨pr', r, hp', hat⟩ := commitWrites_atomic hi hw
    rw [hp] at hp'
    cases hp'
    rw [hc] at hat
    obtain ⟨st, hs, -, hep, -, hops⟩ := createRange_ok hat
    rw [hops, List.mem_singleton] at hmem
    cases hmem
    rw [storedEpoch, hs]
    exact congrArg some hep

/-- Create range 0, seal it at 10, create range 1 from 10, trim the stream to
10 (which deletes range 0), then create range 0 again: one process, each call
run to its commit. -/
def trimThenRecreate : List Event :=
  [.start 0 (.createRange ⟨0, 0, 0⟩ true), .advance 0, .advance 0, .advance 0, .commit 0,
   .start 0 (.sealRange ⟨0, 0, 10⟩), .advance 0, .advance 0, .advance 0, .commit 0,
   .start 0 (.createRange ⟨0, 1, 10⟩ true), .advance 0, .advance 0, .advance 0, .advance 0, .commit 0,
   .start 0 (.trimStream ⟨10, 0⟩), .advance 0, .advance 0, .advance 0, .advance 0, .advance 0, .commit 0,
   .start 0 (.createRange ⟨0, 0, 0⟩ true), .advance 0, .advance 0, .advance 0, .commit 0]

/-- After `trimThenRecreate` the stream holds two writable ranges: range 0 from
0, created again after the trim deleted it, and range 1 from 10. Range 1 does
not start at the end of range 0, and the writable range 0 is not the last. -/
theorem trim_then_recreate_breaks_chain :
    ∃ s, (new ⟨3, 2, 0, 0, 0, false⟩).run trimThenRecreate = some s ∧ s.Reachable ∧
      rangesOf s.store = [⟨0, 0, 0, writableRangeEnd⟩, ⟨0, 1, 10, writableRangeEnd⟩] := by
  have hs : (new ⟨3, 2, 0, 0, 0, false⟩).run trimThenRecreate = some _ := rfl
  exact ⟨_, hs, reachable_run (Trace.Reachable.of_init (initial_new rfl)) hs, by decide⟩

/-- A seal at epoch 0 reads the stream, then an update to epoch 1 commits: the
seal's compare fails and it writes nothing. -/
def staleSeal : List Event :=
  [.start 0 (.createRange ⟨0, 0, 0⟩ true), .advance 0, .advance 0, .advance 0, .commit 0,
   .start 1 (.sealRange ⟨0, 0, 10⟩), .advance 1, .advance 1, .advance 1,
   .start 2 (.updateStream ⟨-1, -1, -1, 1⟩), .advance 2, .advance 2, .commit 2]

theorem epoch_fences_stale_writers_stale_seal :
    ∃ s, (new ⟨3, 2, 0, 0, 0, false⟩).run staleSeal = some s ∧ storedEpoch s.store = some 1 ∧
      s.commitWrites 1 = [] ∧
      (∀ ev s', s.handle ev = some s' → ∀ e e', storedEpoch s.store = some e →
        storedEpoch s'.store = some e' → e ≤ e') ∧
      (∀ p pr, s.procs p = some pr → s.commitWrites p ≠ [] → ∀ e, pr.call.epoch? = some e →
        ∃ st, streamAt s.store = some st ∧ st.epoch = e ∧ st.deleted = false) ∧
      (∀ p pr q serversOk, s.procs p = some pr → pr.call = .createRange q serversOk →
        ∀ i rg, Op.put (.range i) (.range rg) ∈ s.commitWrites p → storedEpoch s.store = some rg.epoch) := by
  have hs : (new ⟨3, 2, 0, 0, 0, false⟩).run staleSeal = some _ := rfl
  exact ⟨_, hs, by decide, by decide,
    epoch_fences_stale_writers (reachable_run (Trace.Reachable.of_init (initial_new rfl)) hs)⟩

end System

end ElasticStream.Placement
