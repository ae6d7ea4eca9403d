import ElasticStream.RangeServer.Append

/-! # Seals bound every acknowledged append

The client's quorum computation takes a replica's sealed end as the extent of
what that replica acknowledged. On the range server this holds in every
interleaving of appends and seals: the window's committed offset stays at or
below `next`, every batch answered `OK` lies below the range's committed
offset, `Range::seal` writes that offset into the seal request, and a sealed
range admits and commits nothing more. -/

namespace ElasticStream.RangeServer
open ElasticStream.Trace

namespace Server

/-- The invariant of a server in any reachable state. -/
structure Inv (s : Server) : Prop where
  start_le : ∀ w, s.range.window = some w → s.range.metadata.start ≤ w.committed
  committed_le_next : ∀ w, s.range.window = some w → w.committed ≤ w.next
  inflight_le_next : ∀ w, s.range.window = some w → ∀ b ∈ s.pending ++ s.stored, b.offset + b.len ≤ w.next
  range_committed : ∀ w, s.range.window = some w → s.range.committed = none ∨ s.range.committed = some w.committed
  acked_le : ∀ a ∈ s.acked, ∃ c, s.range.committed = some c ∧ a.offset + a.len ≤ c
  sealed_le : ∀ md ∈ s.sealed, ∀ a ∈ s.acked, ∃ e, md.endOffset = some e ∧ a.offset + a.len ≤ e
  sealed_closed : s.sealed ≠ [] → s.range.window = none

/-- A closed range satisfies the window fields vacuously. -/
theorem Inv.of_closed {s : Server} (hw : s.range.window = none)
    (hacked : ∀ a ∈ s.acked, ∃ c, s.range.committed = some c ∧ a.offset + a.len ≤ c)
    (hsealed : ∀ md ∈ s.sealed, ∀ a ∈ s.acked, ∃ e, md.endOffset = some e ∧ a.offset + a.len ≤ e) :
    s.Inv :=
  ⟨by simp [hw], by simp [hw], by simp [hw], by simp [hw], hacked, hsealed, fun _ => hw⟩

theorem inv_init (md : RangeMetadata) : (init md).Inv := by
  refine ⟨?_, ?_, ?_, ?_, by simp [init], by simp [init], by simp [init]⟩ <;>
  · intro w hw
    simp only [init, Range.new] at hw ⊢
    split_ifs at hw
    cases hw
    simp [Window.new]

theorem inv_barrier {s s' : Server} {b : Batch} (hi : s.Inv) (h : s.handle (.barrier b) = some s') : s'.Inv := by
  obtain ⟨win, hw, ho, rfl⟩ := handle_barrier h
  -- an open window means no seal has happened
  have hns : s.sealed = [] := by
    by_contra hne
    rw [hi.sealed_closed hne] at hw; cases hw
  refine ⟨?_, ?_, ?_, ?_, hi.acked_le, hi.sealed_le, fun hne => absurd hns hne⟩
  · rintro w ⟨⟩; exact hi.start_le win hw
  · rintro w ⟨⟩; have := hi.committed_le_next win hw; simp only; omega
  · rintro w ⟨⟩ c hc
    rcases List.mem_append.mp hc with hc | hc
    · rcases List.mem_cons.mp hc with rfl | hc
      · simp only; omega
      · have := hi.inflight_le_next win hw c (List.mem_append_left _ hc); simp only; omega
    · have := hi.inflight_le_next win hw c (List.mem_append_right _ hc); simp only; omega
  · rintro w ⟨⟩; exact hi.range_committed win hw

theorem inv_storeOk {s s' : Server} {b : Batch} (hi : s.Inv) (h : s.handle (.storeOk b) = some s') : s'.Inv := by
  obtain ⟨hb, rfl⟩ := handle_storeOk h
  refine ⟨hi.start_le, hi.committed_le_next, ?_, hi.range_committed, hi.acked_le, hi.sealed_le, hi.sealed_closed⟩
  intro w hw c hc
  apply hi.inflight_le_next w hw c
  rcases List.mem_append.mp hc with hc | hc
  · exact List.mem_append_left _ (List.mem_of_mem_erase hc)
  · rcases List.mem_cons.mp hc with rfl | hc
    · exact List.mem_append_left _ hb
    · exact List.mem_append_right _ hc

theorem inv_storeFail {s s' : Server} {b : Batch} (hi : s.Inv) (h : s.handle (.storeFail b) = some s') : s'.Inv := by
  obtain ⟨-, rfl⟩ := handle_storeFail h
  refine ⟨hi.start_le, hi.committed_le_next, ?_, hi.range_committed, hi.acked_le, hi.sealed_le, hi.sealed_closed⟩
  intro w hw c hc
  apply hi.inflight_le_next w hw c
  rcases List.mem_append.mp hc with hc | hc
  · exact List.mem_append_left _ (List.mem_of_mem_erase hc)
  · exact List.mem_append_right _ hc

theorem inv_commit {s s' : Server} {b : Batch} (hi : s.Inv) (h : s.handle (.commit b) = some s') : s'.Inv := by
  obtain ⟨hb, rfl⟩ := handle_commit h
  cases hw : s.range.window with
  | none =>
    -- a sealed range refuses the commit and nothing changes
    have hc := Range.commit_sealed hw (b.offset + b.len)
    simp only [Range.commitAppend, hc, reduceCtorEq, if_false]
    exact Inv.of_closed hw hi.acked_le hi.sealed_le
  | some win =>
    have hns : s.sealed = [] := by
      by_contra hne
      rw [hi.sealed_closed hne] at hw; cases hw
    obtain ⟨hok, heq, hsome, hnone⟩ := Range.commit_window hw (b.offset + b.len)
    have hv := hi.inflight_le_next win hw b (List.mem_append_right _ hb)
    have hstart := hi.start_le win hw
    have hnext := hi.committed_le_next win hw
    -- after the commit the range's committed offset is the window's
    have hrc : (s.range.commit (b.offset + b.len)).2.committed = some (max (b.offset + b.len) win.committed) := by
      rcases hi.range_committed win hw with hc | hc
      · rw [hnone hc, if_pos (by omega)]
      · rw [hsome _ hc]; congr 1; omega
    simp only [Range.commitAppend, hok, if_true]
    rw [heq]
    refine ⟨?_, ?_, ?_, ?_, ?_, ?_, ?_⟩
    · rintro w ⟨⟩; simp only [Window.commit_committed]; omega
    · rintro w ⟨⟩; simp only [Window.commit_committed, Window.commit_next]; omega
    · rintro w ⟨⟩ c hc
      simp only [Window.commit_next]
      rcases List.mem_append.mp hc with hc | hc
      · exact hi.inflight_le_next win hw c (List.mem_append_left _ hc)
      · exact hi.inflight_le_next win hw c (List.mem_append_right _ (List.mem_of_mem_erase hc))
    · rintro w ⟨⟩; right; rw [hrc]; simp
    · intro a ha
      rw [hrc]
      rcases List.mem_cons.mp ha with rfl | ha
      · exact ⟨_, rfl, Nat.le_max_left _ _⟩
      · obtain ⟨c, hc, hle⟩ := hi.acked_le a ha
        rcases hi.range_committed win hw with hc' | hc'
        · rw [hc] at hc'; cases hc'
        · rw [hc] at hc'; cases hc'; exact ⟨_, rfl, Nat.le_trans hle (Nat.le_max_right _ _)⟩
    · simp [hns]
    · simp [hns]

theorem inv_sealRange {s s' : Server} {md : RangeMetadata} (hi : s.Inv) (h : s.handle (.sealRange md) = some s') :
    s'.Inv := by
  rw [handle_sealRange h]
  refine Inv.of_closed (by simp) ?_ ?_
  · simpa using hi.acked_le
  · intro md' hmd a ha
    rcases List.mem_cons.mp hmd with rfl | hmd
    · obtain ⟨c, hc, hle⟩ := hi.acked_le a ha
      exact ⟨c, by simp [hc], hle⟩
    · exact hi.sealed_le md' hmd a ha

theorem inv_step {s s' : Server} (hi : s.Inv) (h : Step s s') : s'.Inv := by
  obtain ⟨ev, hev⟩ := h
  cases ev with
  | barrier b => exact inv_barrier hi hev
  | storeOk b => exact inv_storeOk hi hev
  | storeFail b => exact inv_storeFail hi hev
  | commit b => exact inv_commit hi hev
  | sealRange md => exact inv_sealRange hi hev

theorem Reachable.inv {s : Server} (h : s.Reachable) : s.Inv := by
  unfold Reachable at h
  refine Trace.Reachable.invariant Inv ?_ ?_ h
  · rintro _ ⟨md, rfl⟩
    exact inv_init md
  · intro _ _ hi hs
    exact inv_step hi hs

/-! ## Monotonicity of one step -/

theorem step_window_mono {s s' : Server} (h : Step s s') {w w' : Window}
    (hw : s.range.window = some w) (hw' : s'.range.window = some w') :
    w.committed ≤ w'.committed ∧ w.next ≤ w'.next := by
  obtain ⟨ev, hev⟩ := h
  cases ev with
  | barrier b =>
    obtain ⟨win, hwin, -, rfl⟩ := handle_barrier hev
    rw [hw] at hwin; cases hwin; cases hw'
    exact ⟨Nat.le_refl _, Nat.le_add_right _ _⟩
  | storeOk b =>
    obtain ⟨-, rfl⟩ := handle_storeOk hev
    rw [hw] at hw'; cases hw'; exact ⟨Nat.le_refl _, Nat.le_refl _⟩
  | storeFail b =>
    obtain ⟨-, rfl⟩ := handle_storeFail hev
    rw [hw] at hw'; cases hw'; exact ⟨Nat.le_refl _, Nat.le_refl _⟩
  | commit b =>
    obtain ⟨-, rfl⟩ := handle_commit hev
    obtain ⟨-, heq, -⟩ := Range.commit_window hw (b.offset + b.len)
    simp only [Range.commitAppend] at hw'
    rw [heq] at hw'
    cases hw'
    simp only [Window.commit_committed, Window.commit_next]
    exact ⟨Nat.le_max_right _ _, Nat.le_refl _⟩
  | sealRange md => rw [handle_sealRange hev] at hw'; simp at hw'

theorem step_committed_mono {s s' : Server} (h : Step s s') {c : Nat} (hc : s.range.committed = some c) :
    ∃ c', s'.range.committed = some c' ∧ c ≤ c' := by
  obtain ⟨ev, hev⟩ := h
  cases ev with
  | barrier b => obtain ⟨_, _, -, rfl⟩ := handle_barrier hev; exact ⟨c, hc, Nat.le_refl _⟩
  | storeOk b => obtain ⟨-, rfl⟩ := handle_storeOk hev; exact ⟨c, hc, Nat.le_refl _⟩
  | storeFail b => obtain ⟨-, rfl⟩ := handle_storeFail hev; exact ⟨c, hc, Nat.le_refl _⟩
  | commit b =>
    obtain ⟨-, rfl⟩ := handle_commit hev
    simp only [Range.commitAppend]
    cases hw : s.range.window with
    | none => rw [Range.commit_sealed hw]; exact ⟨c, hc, Nat.le_refl _⟩
    | some win =>
      obtain ⟨-, -, hsome, -⟩ := Range.commit_window hw (b.offset + b.len)
      exact ⟨_, hsome c hc, Nat.le_max_right _ _⟩
  | sealRange md => rw [handle_sealRange hev]; exact ⟨c, by simp [hc], Nat.le_refl _⟩

/-- **Seal soundness on the range server.** In every interleaving of appends
and seals of one range: (a) no step moves the window's or the range's
committed offset backwards, and both stay at or below the window's `next`;
(b) every batch ever answered `OK` ends at or below the end each seal wrote
into its request's metadata; (c) once sealed, `check_barrier` answers
`RangeSealed`, `commit` answers `AlreadySealed` and changes nothing, and no
further batch is answered `OK`. -/
theorem seal_bounds_acknowledged_appends :
    (∀ s s', Step s s' →
      (∀ w w', s.range.window = some w → s'.range.window = some w' →
        w.committed ≤ w'.committed ∧ w.next ≤ w'.next) ∧
      (∀ c, s.range.committed = some c → ∃ c', s'.range.committed = some c' ∧ c ≤ c')) ∧
    (∀ s : Server, s.Reachable → ∀ w, s.range.window = some w →
      w.committed ≤ w.next ∧ ∀ c, s.range.committed = some c → c ≤ w.next) ∧
    (∀ s : Server, s.Reachable → ∀ md ∈ s.sealed, ∀ a ∈ s.acked,
      ∃ e, md.endOffset = some e ∧ a.offset + a.len ≤ e) ∧
    (∀ s : Server, s.Reachable → s.sealed ≠ [] →
      (∀ offset len, s.range.checkBarrier offset len = (.error .rangeSealed, s.range)) ∧
      (∀ offset len, s.range.commitAppend offset len = (.error .alreadySealed, s.range)) ∧
      ∀ s', Step s s' → s'.acked = s.acked) := by
  refine ⟨fun s s' h => ⟨fun w w' hw hw' => step_window_mono h hw hw', fun c hc => step_committed_mono h hc⟩,
    ?_, fun s h => h.inv.sealed_le, ?_⟩
  · intro s h w hw
    have hi := h.inv
    refine ⟨hi.committed_le_next w hw, fun c hc => ?_⟩
    rcases hi.range_committed w hw with h' | h'
    · rw [hc] at h'; cases h'
    · rw [hc] at h'; cases h'; exact hi.committed_le_next w hw
  · intro s h hne
    have hw := h.inv.sealed_closed hne
    refine ⟨fun o l => Range.checkBarrier_sealed hw o l, fun o l => Range.commit_sealed hw _, ?_⟩
    rintro s' ⟨ev, hev⟩
    cases ev with
    | barrier b =>
      obtain ⟨win, hwin, -⟩ := handle_barrier hev
      rw [hw] at hwin; cases hwin
    | storeOk b => obtain ⟨-, rfl⟩ := handle_storeOk hev; rfl
    | storeFail b => obtain ⟨-, rfl⟩ := handle_storeFail hev; rfl
    | commit b =>
      obtain ⟨-, rfl⟩ := handle_commit hev
      simp [Range.commitAppend, Range.commit_sealed hw]
    | sealRange md => rw [handle_sealRange hev]

end Server

end ElasticStream.RangeServer
