import ElasticStream.Collections.SortedMap
import ElasticStream.Order.Reach

/-! # The WAL write window

`WriteWindow` (store/src/io/write_window.rs) acknowledges the prefix of the
WAL whose bytes have all been written. io_uring completes writes in any order;
each completion `commit(offset, length)` records `[offset, offset + length)`
in the `completed` tree map, replacing a shorter record of the same offset,
and `advance` pops completed ranges in offset order while they start at or
below `committed`.

`Tracks c₀ S w` is the invariant of a window that started at `c₀` and has
absorbed the completions `S`: every completion is either behind `committed`
or still recorded in `completed` with at least its length, every recorded
range is one of `S`, every byte from `c₀` to `committed` is covered, and
`completed` holds only ranges starting beyond `committed`. From it,
`committed` is the reach of `c₀` over `S`, which does not depend on the
order of the completions. -/

namespace ElasticStream.Store
open ElasticStream.Collections ElasticStream.Order

inductive WriteWindowError where
  | invalidCommit (offset : Nat) (previousLength : Nat) (attemptedLength : Nat)
  deriving DecidableEq, Repr

/-- Offsets are WAL positions (`u64`) and lengths `u32`; neither the sum
`offset + length` nor `committed` comes near `2^64`. -/
structure WriteWindow where
  committed : Nat
  completed : SortedMap Nat Nat
  deriving DecidableEq

namespace WriteWindow

def new (committed : Nat) : WriteWindow := ⟨committed, .empty⟩

/-- The `while let` loop of `advance` over the completed ranges in offset order. -/
def advanceLoop : Nat → List (Nat × Nat) → Nat × List (Nat × Nat)
  | committed, [] => (committed, [])
  | committed, (offset, len) :: rest =>
    if committed < offset then (committed, (offset, len) :: rest)
    else advanceLoop (max (offset + len) committed) rest

theorem advanceLoop_suffix (c : Nat) (l : List (Nat × Nat)) : (advanceLoop c l).2 <:+ l := by
  fun_induction advanceLoop c l with
  | case1 => exact List.suffix_refl _
  | case2 => exact List.suffix_refl _
  | case3 c o len rest _ ih => exact ih.trans (List.suffix_cons _ _)

def advance (w : WriteWindow) : Except WriteWindowError Nat × WriteWindow :=
  let r := advanceLoop w.committed w.completed.entries
  (.ok r.1, ⟨r.1, w.completed.ofSuffix r.2 (advanceLoop_suffix _ _)⟩)

/-- `commit(offset, length)`: record the range, unless a longer range of the
same offset is already recorded, which is an `InvalidCommit` that leaves the
window untouched; then advance. -/
def commit (w : WriteWindow) (offset length : Nat) :
    Except WriteWindowError Nat × WriteWindow :=
  match w.completed.find? offset with
  | none => { w with completed := w.completed.insert offset length }.advance
  | some prevLen =>
    if length ≥ prevLen then { w with completed := w.completed.insert offset length }.advance
    else (.error (.invalidCommit offset prevLen length), w)

/-- A sequence of commits, each of which must return `Ok`. -/
def commitAll (w : WriteWindow) : List (Nat × Nat) → Except WriteWindowError WriteWindow
  | [] => .ok w
  | (offset, length) :: ops =>
    match w.commit offset length with
    | (.ok _, w') => commitAll w' ops
    | (.error e, _) => .error e

example : (commitAll (.new 0) [(0, 10), (0, 20), (20, 10), (40, 10)]).map (·.committed) = .ok 30 := by
  decide

/-- The byte interval `[offset, offset + length)` of a completion. -/
def span (q : Nat × Nat) : Nat × Nat := (q.1, q.1 + q.2)

/-! ## The loop -/

/-- What one run of the advance loop does: it pops a prefix `pre` of the
completed ranges, each ending at or below the new `committed`, covering every
byte between the old and the new `committed`, and stops at the first range
that starts beyond it. -/
theorem advanceLoop_spec (c : Nat) (l : List (Nat × Nat))
    (hs : l.Pairwise (fun a b => a.1 < b.1)) :
    ∃ pre, l = pre ++ (advanceLoop c l).2 ∧ c ≤ (advanceLoop c l).1 ∧
      (∀ e ∈ pre, e.1 + e.2 ≤ (advanceLoop c l).1) ∧
      (∀ e ∈ (advanceLoop c l).2, (advanceLoop c l).1 < e.1) ∧
      (∀ x, c ≤ x → x < (advanceLoop c l).1 → ∃ e ∈ pre, e.1 ≤ x ∧ x < e.1 + e.2) := by
  induction l generalizing c with
  | nil => exact ⟨[], rfl, le_rfl, by simp, by simp [advanceLoop], fun x h h' => by simp [advanceLoop] at h'; omega⟩
  | cons e rest ih =>
    obtain ⟨o, len⟩ := e
    obtain ⟨hhead, hrest⟩ := List.pairwise_cons.mp hs
    by_cases hlt : c < o
    · -- the first range lies beyond `committed`: the loop stops at once
      simp only [advanceLoop, hlt, if_true]
      refine ⟨[], rfl, le_rfl, by simp, ?_, fun x h h' => by omega⟩
      intro e he
      rcases List.mem_cons.mp he with rfl | he
      · exact hlt
      · exact lt_trans hlt (hhead e he)
    · simp only [advanceLoop, hlt, if_false]
      obtain ⟨pre, hsplit, hle, hend, habove, hcov⟩ := ih (max (o + len) c) hrest
      refine ⟨(o, len) :: pre, by rw [List.cons_append, ← hsplit], by omega, ?_, habove, ?_⟩
      · intro e he
        rcases List.mem_cons.mp he with rfl | he
        · exact le_trans (le_max_left _ _) hle
        · exact hend e he
      · intro x hx hx'
        by_cases hin : x < max (o + len) c
        · -- the popped range covers the gap up to its end
          exact ⟨(o, len), List.mem_cons_self, by simp; omega, by simp; omega⟩
        · obtain ⟨e, he, h1, h2⟩ := hcov x (by omega) hx'
          exact ⟨e, List.mem_cons_of_mem _ he, h1, h2⟩

/-! ## The invariant -/

/-- The part of the invariant that holds between recording a completion and
advancing: every completion is behind `committed` or recorded with at least
its length. -/
structure Sound (c₀ : Nat) (S : Set (Nat × Nat)) (w : WriteWindow) : Prop where
  start_le : c₀ ≤ w.committed
  accounted : ∀ q ∈ S, q.1 + q.2 ≤ w.committed ∨ ∃ l, (q.1, l) ∈ w.completed.entries ∧ q.2 ≤ l
  recorded : ∀ e ∈ w.completed.entries, e ∈ S
  covered : ∀ x, c₀ ≤ x → x < w.committed → Covered (span '' S) x

/-- The invariant of a window after `advance`. -/
structure Tracks (c₀ : Nat) (S : Set (Nat × Nat)) (w : WriteWindow) : Prop extends Sound c₀ S w where
  above : ∀ e ∈ w.completed.entries, w.committed < e.1

theorem tracks_new (c₀ : Nat) : Tracks c₀ ∅ (.new c₀) :=
  ⟨⟨le_rfl, by simp, by simp [WriteWindow.new], fun x h h' => by simp [WriteWindow.new] at h'; omega⟩,
    by simp [WriteWindow.new]⟩

@[simp] theorem advance_fst (w : WriteWindow) : w.advance.1 = .ok w.advance.2.committed := rfl

theorem sound_advance {c₀ S w} (h : Sound c₀ S w) : Tracks c₀ S w.advance.2 := by
  obtain ⟨pre, hsplit, hle, hend, habove, hcov⟩ :=
    advanceLoop_spec w.committed w.completed.entries w.completed.sorted
  have hentries : w.advance.2.completed.entries = (advanceLoop w.committed w.completed.entries).2 := rfl
  have hcomm : w.advance.2.committed = (advanceLoop w.committed w.completed.entries).1 := rfl
  rw [← hcomm] at hle hend habove hcov
  rw [← hentries] at hsplit habove
  refine ⟨⟨le_trans h.start_le hle, ?_, ?_, ?_⟩, habove⟩
  · intro q hq
    rcases h.accounted q hq with habs | ⟨l, hl, hql⟩
    · exact .inl (le_trans habs hle)
    · rw [hsplit] at hl
      rcases List.mem_append.mp hl with hl | hl
      · exact .inl (le_trans (by omega) (hend _ hl))
      · exact .inr ⟨l, hl, hql⟩
  · intro e he
    exact h.recorded e (hsplit ▸ List.mem_append_right _ he)
  · intro x hx hx'
    by_cases hold : x < w.committed
    · exact h.covered x hx hold
    · -- bytes past the old `committed` are covered by a popped range
      obtain ⟨e, he, h1, h2⟩ := hcov x (by omega) hx'
      have he' : e ∈ w.completed.entries := hsplit ▸ List.mem_append_left _ he
      exact ⟨span e, ⟨e, h.recorded e he', rfl⟩, h1, h2⟩

/-- Recording a completion whose offset holds no longer range keeps `Sound`. -/
theorem sound_insert {c₀ S w} (h : Sound c₀ S w) {o l : Nat}
    (hprev : ∀ p, w.completed.find? o = some p → p ≤ l) :
    Sound c₀ (insert (o, l) S) { w with completed := w.completed.insert o l } := by
  refine ⟨h.start_le, ?_, ?_, ?_⟩
  · rintro q (rfl | hq)
    · exact .inr ⟨l, SortedMap.mem_insert.mpr (.inl rfl), le_rfl⟩
    · rcases h.accounted q hq with habs | ⟨l', hl', hql⟩
      · exact .inl habs
      · by_cases hk : q.1 = o
        · -- the recorded range of this offset is replaced by a longer one
          have hp := hprev l' (SortedMap.find?_eq_some_iff.mpr (hk ▸ hl'))
          exact .inr ⟨l, SortedMap.mem_insert.mpr (.inl (by rw [hk])), le_trans hql hp⟩
        · exact .inr ⟨l', SortedMap.mem_insert.mpr (.inr ⟨hl', hk⟩), hql⟩
  · intro e he
    rcases SortedMap.mem_insert.mp he with rfl | ⟨he, _⟩
    · exact Set.mem_insert _ _
    · exact Set.mem_insert_of_mem _ (h.recorded e he)
  · intro x hx hx'
    obtain ⟨p, ⟨q, hq, rfl⟩, h1, h2⟩ := h.covered x hx hx'
    exact ⟨span q, ⟨q, Set.mem_insert_of_mem _ hq, rfl⟩, h1, h2⟩

/-- The step lemma: a successful commit keeps the invariant, with the new
completion added, and returns the new `committed`. -/
theorem tracks_commit {c₀ S w} (h : Tracks c₀ S w) {o l c : Nat} {w' : WriteWindow}
    (hc : w.commit o l = (.ok c, w')) : Tracks c₀ (insert (o, l) S) w' ∧ c = w'.committed := by
  unfold WriteWindow.commit at hc
  split at hc
  · rename_i hnone
    have hs := @sound_insert _ _ _ h.toSound o l (fun p hp => by rw [hnone] at hp; cases hp)
    obtain ⟨h1, rfl⟩ := Prod.mk.inj hc
    exact ⟨sound_advance hs, by simpa using h1.symm⟩
  · rename_i prevLen hsome
    split at hc
    · rename_i hge
      have hs := @sound_insert _ _ _ h.toSound o l
        (fun p hp => by rw [hsome] at hp; cases hp; exact hge)
      obtain ⟨h1, rfl⟩ := Prod.mk.inj hc
      exact ⟨sound_advance hs, by simpa using h1.symm⟩
    · cases hc

/-- The run lemma: a sequence of successful commits keeps the invariant, with
every completion of the sequence added. -/
theorem tracks_commitAll {c₀ S w} (h : Tracks c₀ S w) {ops : List (Nat × Nat)} {w' : WriteWindow}
    (hrun : commitAll w ops = .ok w') : Tracks c₀ (S ∪ {q | q ∈ ops}) w' := by
  induction ops generalizing S w with
  | nil =>
    simp only [commitAll, Except.ok.injEq] at hrun
    subst hrun
    simpa using h
  | cons op ops ih =>
    obtain ⟨o, l⟩ := op
    simp only [commitAll] at hrun
    split at hrun
    · rename_i c w'' hc
      have hstep := (tracks_commit h hc).1
      have hset : insert (o, l) S ∪ {q | q ∈ ops} = S ∪ {q | q ∈ (o, l) :: ops} := by
        ext q; simp only [Set.mem_union, Set.mem_insert_iff, Set.mem_ofPred_eq, List.mem_cons]; tauto
      exact hset ▸ ih hstep hrun
    · cases hrun

/-! ## What the invariant gives -/

theorem Tracks.closed {c₀ S w} (h : Tracks c₀ S w) : Closed (span '' S) w.committed := by
  rintro p ⟨q, hq, rfl⟩ hlo
  rcases h.accounted q hq with habs | ⟨l, hl, _⟩
  · exact habs
  · exact absurd hlo (not_le.mpr (h.above (q.1, l) hl))

theorem Tracks.isReach {c₀ S w} (h : Tracks c₀ S w) : IsReach (span '' S) c₀ w.committed :=
  isReach_of_covered h.start_le h.closed h.covered

/-- A commit never moves `committed` backwards, from any window: an invalid
commit leaves the window as it was. -/
theorem commit_committed_le (w : WriteWindow) (o l : Nat) : w.committed ≤ (w.commit o l).2.committed := by
  obtain ⟨pre, -, hle, -⟩ :=
    advanceLoop_spec w.committed (w.completed.insert o l).entries (w.completed.insert o l).sorted
  unfold WriteWindow.commit
  split
  · exact hle
  · split
    · exact hle
    · exact le_rfl

/-- **The write window over any completion order.** After a sequence of
successful commits from `WriteWindow::new(c₀)`, `committed` is the reach of
`c₀` over the committed byte ranges, every byte from `c₀` to `committed` lies
in a committed range, no commit moves `committed` backwards, every offset
left in `completed` is beyond `committed`, and any reordering of the same
commits that also succeeds ends at the same `committed`. -/
theorem commitAll_committed_reach (c₀ : Nat) (ops : List (Nat × Nat)) (w : WriteWindow)
    (hrun : commitAll (.new c₀) ops = .ok w) :
    IsReach (span '' {q | q ∈ ops}) c₀ w.committed ∧
    (∀ x, c₀ ≤ x → x < w.committed → Covered (span '' {q | q ∈ ops}) x) ∧
    (∀ (v : WriteWindow) (o l : Nat), v.committed ≤ (v.commit o l).2.committed) ∧
    (∀ e ∈ w.completed.entries, w.committed < e.1) ∧
    (∀ ops' : List (Nat × Nat), ops'.Perm ops → ∀ w', commitAll (.new c₀) ops' = .ok w' →
      w'.committed = w.committed) := by
  have ht : Tracks c₀ {q | q ∈ ops} w := by
    simpa using tracks_commitAll (tracks_new c₀) hrun
  refine ⟨ht.isReach, ht.covered, commit_committed_le, ht.above, ?_⟩
  intro ops' hperm w' hrun'
  have ht' : Tracks c₀ {q | q ∈ ops'} w' := by
    simpa using tracks_commitAll (tracks_new c₀) hrun'
  have hset : {q | q ∈ ops'} = {q | q ∈ ops} := by
    ext q; exact hperm.mem_iff
  rw [hset] at ht'
  exact ht'.isReach.unique ht.isReach

theorem commitAll_committed_reach_example :
    commitAll (.new 0) [(0, 10), (0, 20), (20, 10), (40, 10)] = .ok ⟨30, ⟨[(40, 10)], by decide⟩⟩ ∧
      IsReach (span '' {q | q ∈ [(0, 10), (0, 20), (20, 10), (40, 10)]}) 0 30 :=
  have hrun : commitAll (.new 0) [(0, 10), (0, 20), (20, 10), (40, 10)] =
      .ok ⟨30, ⟨[(40, 10)], by decide⟩⟩ := by decide
  ⟨hrun, (commitAll_committed_reach 0 _ _ hrun).1⟩

/-- **A failed commit changes nothing.** `commit(offset, length)` returns
`InvalidCommit` with the recorded and the attempted length exactly when
`completed` already holds a longer range at `offset`, and then returns the
window as it was; otherwise it returns `Ok`. -/
theorem commit_invalid_iff_longer (w : WriteWindow) (offset length : Nat) :
    (∃ prev, w.completed.find? offset = some prev ∧ length < prev ∧
        w.commit offset length = (.error (.invalidCommit offset prev length), w)) ∨
      ((∀ prev, w.completed.find? offset = some prev → prev ≤ length) ∧
        ∃ c, (w.commit offset length).1 = .ok c) := by
  cases hfind : w.completed.find? offset with
  | none =>
    refine .inr ⟨fun prev h => (by cases h), (w.commit offset length).2.committed, ?_⟩
    simp only [commit, hfind]
    exact advance_fst _
  | some prev =>
    by_cases hlt : length < prev
    · refine .inl ⟨prev, rfl, hlt, ?_⟩
      simp only [commit, hfind, ge_iff_le, if_neg (Nat.not_le.mpr hlt)]
    · have hle : prev ≤ length := Nat.le_of_not_lt hlt
      refine .inr ⟨fun p h => (by cases h; exact hle), (w.commit offset length).2.committed, ?_⟩
      simp only [commit, hfind, ge_iff_le, if_pos hle]
      exact advance_fst _

end WriteWindow

end ElasticStream.Store
