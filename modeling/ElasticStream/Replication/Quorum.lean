import ElasticStream.Order.Rank

/-! # Confirm offsets and failover seals

A writer acknowledges an append once `ack_count` of the range's replicas have
confirmed it: `calculate_confirm_offset0` (replication/src/stream/replication_range.rs)
takes the `ack_count`-th largest confirm offset among the replicas not marked
corrupted. A later writer that opens the range seals it from the end offsets
of whichever replicas answer: `replicas_seal0` takes the
`(replica_count - ack_count + 1)`-th smallest of them.

The two choices meet by counting: at least `ack_count` replicas confirmed the
writer's offset, so at most `replica_count - ack_count` replicas can report
an end below it, and the sealer's pick lies above all of those. -/

namespace ElasticStream.Replication
open ElasticStream.Order

/-- The error codes the modelled replication paths return. -/
inductive ErrorCode where
  | replicaNotEnough
  | unexpected
  deriving DecidableEq, Repr

structure EsError where
  code : ErrorCode
  message : String
  deriving DecidableEq, Repr

/-- What the confirm-offset computation reads of a replica. -/
structure ReplicaState where
  confirmOffset : Nat
  corrupted : Bool
  deriving DecidableEq, Repr

/-- `calculate_confirm_offset0`, which reads `ack_count` (a `u8`) of the range
metadata: `ack_count - 1` indexes the non-corrupted confirm offsets sorted
in descending order. -/
def calculateConfirmOffset0 (replicas : List ReplicaState) (ackCount : UInt8) : Except EsError Nat :=
  if replicas.isEmpty then .error ⟨.replicaNotEnough, "cal confirm offset fail, replicas is empty"⟩
  else
    let confirmOffsetIndex := ackCount - 1
    match (sortAsc ((replicas.filter (fun r => !r.corrupted)).map (·.confirmOffset))).reverse[confirmOffsetIndex.toNat]? with
    | some v => .ok v
    | none => .error ⟨.replicaNotEnough, "cal confirm offset fail, replicas is not enough"⟩

/-- `replicas_seal0`: `replica_count - ack_count` (`u8` arithmetic) indexes the
answered end offsets sorted in ascending order. -/
def replicasSeal0 (endOffsets : List Nat) (replicaCount ackCount : UInt8) : Except EsError Nat :=
  match (sortAsc endOffsets)[(replicaCount - ackCount).toNat]? with
  | some e => .ok e
  | none => .error ⟨.replicaNotEnough, "seal fail, replica is not enough"⟩

example : replicasSeal0 [1, 2, 3] 3 2 = .ok 2 ∧ replicasSeal0 [1, 3] 3 2 = .ok 3 ∧
    (replicasSeal0 [1, 3] 3 1).toOption = none := by
  decide

/-- A replica counts towards the quorum of `v` when it is not corrupted and
has confirmed `v`. -/
def Confirms (v : Nat) (r : ReplicaState) : Bool := !r.corrupted && decide (v ≤ r.confirmOffset)

/-! ## The confirm offset -/

theorem countP_confirmOffsets (P : Nat → Bool) (replicas : List ReplicaState) :
    ((replicas.filter (fun r => !r.corrupted)).map (·.confirmOffset)).countP P =
      replicas.countP (fun r => !r.corrupted && P r.confirmOffset) := by
  rw [List.countP_map, List.countP_filter]
  congr 1; funext r; simp [Bool.and_comm]

theorem length_confirmOffsets (replicas : List ReplicaState) :
    ((replicas.filter (fun r => !r.corrupted)).map (·.confirmOffset)).length =
      replicas.countP (fun r => !r.corrupted) := by
  rw [List.length_map, ← List.countP_eq_length_filter]

theorem calculateConfirmOffset0_quorum {replicas : List ReplicaState} {ackCount : UInt8}
    (hA : 1 ≤ ackCount) {v : Nat} (h : calculateConfirmOffset0 replicas ackCount = .ok v) :
    ackCount.toNat ≤ replicas.countP (Confirms v) := by
  unfold calculateConfirmOffset0 at h
  split at h
  · cases h
  · dsimp only at h
    split at h
    · rename_i hv
      cases h
      have hidx : (ackCount - 1).toNat = ackCount.toNat - 1 := by
        rw [UInt8.toNat_sub_of_le _ _ hA]; rfl
      have hpos : 1 ≤ ackCount.toNat := by simpa [UInt8.le_iff_toNat_le] using hA
      -- the reversed ascending sort is descending: everything before position
      -- `ack_count - 1` is at least the chosen offset
      have hdesc := List.pairwise_reverse.mpr (sortAsc_pairwise ((replicas.filter (fun r => !r.corrupted)).map (·.confirmOffset)))
      have hcount := @le_countP_of_pairwise _ _ (fun x => decide (v ≤ x)) _ _ _ hdesc hv
        (by simp) (fun x hx => by simpa using hx)
      rw [List.countP_reverse, (sortAsc_perm _).countP_eq, countP_confirmOffsets] at hcount
      rw [hidx] at hcount
      unfold Confirms
      omega
    · cases h

theorem calculateConfirmOffset0_error_iff {replicas : List ReplicaState} {ackCount : UInt8}
    (hA : 1 ≤ ackCount) :
    (∃ err, calculateConfirmOffset0 replicas ackCount = .error err) ↔
      replicas.countP (fun r => !r.corrupted) < ackCount.toNat := by
  have hidx : (ackCount - 1).toNat = ackCount.toNat - 1 := by
    rw [UInt8.toNat_sub_of_le _ _ hA]; rfl
  have hpos : 1 ≤ ackCount.toNat := by simpa [UInt8.le_iff_toNat_le] using hA
  unfold calculateConfirmOffset0
  split
  · rename_i hemp
    have : replicas = [] := List.isEmpty_iff.mp hemp
    subst this
    simp; omega
  · dsimp only
    rw [hidx]
    have hlen := length_confirmOffsets replicas
    split
    · rename_i v hv
      have hlt := (List.getElem?_eq_some_iff.mp hv).1
      simp only [List.length_reverse, length_sortAsc] at hlt
      simp only [reduceCtorEq, exists_false, false_iff, not_lt]
      omega
    · rename_i hv
      have hge := List.getElem?_eq_none_iff.mp hv
      simp only [List.length_reverse, length_sortAsc] at hge
      simp only [Except.error.injEq, exists_eq', true_iff]
      omega

/-! ## The seal -/

theorem replicasSeal0_error_iff (endOffsets : List Nat) (replicaCount ackCount : UInt8) :
    (∃ msg, replicasSeal0 endOffsets replicaCount ackCount = .error ⟨.replicaNotEnough, msg⟩) ↔
      endOffsets.length ≤ (replicaCount - ackCount).toNat := by
  unfold replicasSeal0
  split
  · rename_i e he
    have hlt := (List.getElem?_eq_some_iff.mp he).1
    simp only [length_sortAsc] at hlt
    simp only [reduceCtorEq, exists_false, false_iff, not_le]
    exact hlt
  · rename_i he
    have hge := List.getElem?_eq_none_iff.mp he
    simp only [length_sortAsc] at hge
    simpa using hge

/-- The `k`-th smallest of a list is at least any `c` that fewer than `k + 1`
of its elements lie below. -/
theorem le_of_countP_lt_le {l : List Nat} {k c e : Nat} (he : (sortAsc l)[k]? = some e)
    (hcount : l.countP (fun x => decide (x < c)) ≤ k) : c ≤ e := by
  by_contra hlt
  have h := @le_countP_of_pairwise _ _ (fun x => decide (x < c)) _ _ _ (sortAsc_pairwise l) he
    (by simpa using hlt) (fun x hx => by simp only [decide_eq_true_eq]; omega)
  rw [(sortAsc_perm l).countP_eq] at h
  omega

/-- An answer below `c` comes from a replica that has not confirmed `c`,
since every answering replica ends at or above its own confirm offset. -/
theorem countP_answers_lt {c : Nat} {replicas : List ReplicaState} {answers : List (Option Nat)}
    (h : List.Forall₂ (fun r a => ∀ e, a = some e → r.confirmOffset ≤ e) replicas answers) :
    answers.reduceOption.countP (fun x => decide (x < c)) ≤
      replicas.countP (fun r => !Confirms c r) := by
  induction h with
  | nil => simp [List.reduceOption_nil]
  | @cons r a rs as hra _ ih =>
    cases a with
    | none => simp only [List.reduceOption_cons_of_none, List.countP_cons]; split <;> omega
    | some e =>
      simp only [List.reduceOption_cons_of_some, List.countP_cons]
      have hre := hra e rfl
      by_cases hec : e < c
      · have hnot : Confirms c r = false := by unfold Confirms; simp; omega
        simp only [hec, decide_true, hnot, Bool.not_false, if_true]; omega
      · simp only [hec, decide_false, Bool.false_eq_true, ↓reduceIte]; split <;> omega

/-- **Failover seals cover acknowledged appends.** With `1 ≤ ack_count ≤
replica_count` and at most `replica_count` replicas, the writer's confirm
offset has a quorum of `ack_count` non-corrupted replicas, and fails exactly
when fewer are non-corrupted. For any later seal in which each answering
replica reports an end at or above its earlier confirm offset, in whatever
order the answers arrive, `replicas_seal0` fails with `REPLICA_NOT_ENOUGH`
exactly when at most `replica_count - ack_count` replicas answered, and
otherwise returns an end at or above the writer's confirm offset. -/
theorem sealed_end_covers_confirm_offset (replicas : List ReplicaState) (replicaCount ackCount : UInt8)
    (hA : 1 ≤ ackCount) (hAR : ackCount ≤ replicaCount) (hlen : replicas.length ≤ replicaCount.toNat) :
    (∀ v, calculateConfirmOffset0 replicas ackCount = .ok v →
      ackCount.toNat ≤ replicas.countP (Confirms v)) ∧
    ((∃ err, calculateConfirmOffset0 replicas ackCount = .error err) ↔
      replicas.countP (fun r => !r.corrupted) < ackCount.toNat) ∧
    ∀ c, calculateConfirmOffset0 replicas ackCount = .ok c →
    ∀ answers : List (Option Nat),
      List.Forall₂ (fun r a => ∀ e, a = some e → r.confirmOffset ≤ e) replicas answers →
    ∀ endOffsets : List Nat, endOffsets.Perm answers.reduceOption →
      ((∃ msg, replicasSeal0 endOffsets replicaCount ackCount = .error ⟨.replicaNotEnough, msg⟩) ↔
        endOffsets.length ≤ replicaCount.toNat - ackCount.toNat) ∧
      (replicaCount.toNat - ackCount.toNat < endOffsets.length →
        ∃ e, replicasSeal0 endOffsets replicaCount ackCount = .ok e ∧ c ≤ e) := by
  have hidx : (replicaCount - ackCount).toNat = replicaCount.toNat - ackCount.toNat :=
    UInt8.toNat_sub_of_le _ _ hAR
  refine ⟨fun v hv => calculateConfirmOffset0_quorum hA hv, calculateConfirmOffset0_error_iff hA, ?_⟩
  intro c hc answers hans endOffsets hperm
  refine ⟨hidx ▸ replicasSeal0_error_iff endOffsets replicaCount ackCount, fun hmore => ?_⟩
  have hq := calculateConfirmOffset0_quorum hA hc
  -- at most `replica_count - ack_count` answers lie below the confirm offset
  have hbelow : endOffsets.countP (fun x => decide (x < c)) ≤ replicaCount.toNat - ackCount.toNat := by
    have hans' := @countP_answers_lt c _ _ hans
    rw [hperm.countP_eq]
    have hsum := @List.length_eq_countP_add_countP _ (Confirms c) replicas
    simp only [Bool.decide_eq_true, decide_not] at hsum
    omega
  unfold replicasSeal0
  split
  · rename_i e he
    exact ⟨e, rfl, le_of_countP_lt_le he (hidx ▸ hbelow)⟩
  · rename_i he
    have hge := List.getElem?_eq_none_iff.mp he
    simp only [length_sortAsc] at hge
    omega

theorem sealed_end_covers_confirm_offset_three :
    (1 : UInt8) ≤ 2 ∧ (2 : UInt8) ≤ 3 ∧
      [ReplicaState.mk 1 false, ⟨2, false⟩, ⟨3, false⟩].length ≤ (3 : UInt8).toNat ∧
      calculateConfirmOffset0 [⟨1, false⟩, ⟨2, false⟩, ⟨3, false⟩] 2 = .ok 2 ∧
      ∃ e, replicasSeal0 [3, 2] 3 2 = .ok e ∧ 2 ≤ e := by
  obtain ⟨-, -, hseal⟩ := sealed_end_covers_confirm_offset [⟨1, false⟩, ⟨2, false⟩, ⟨3, false⟩] 3 2
    (by decide) (by decide) (by decide)
  -- the first replica does not answer, the others answer with their confirm offsets
  have hans : List.Forall₂ (fun (r : ReplicaState) a => ∀ e, a = some e → r.confirmOffset ≤ e)
      [⟨1, false⟩, ⟨2, false⟩, ⟨3, false⟩] [none, some 2, some 3] :=
    .cons (by simp) (.cons (by simp) (.cons (by simp) .nil))
  exact ⟨by decide, by decide, by decide, by decide,
    (hseal 2 (by decide) _ hans [3, 2] (by decide)).2 (by decide)⟩

end ElasticStream.Replication
