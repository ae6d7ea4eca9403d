import Mathlib
import ElasticStream.Collections.Heap

/-! # Buffered appends

`BufferedStore` (store/src/store/buffer) holds back append requests that
arrive ahead of their range's next offset and hands them to the inner store
once the gap before them is filled. Each range has a `RangeBuffer`: the next
continuous offset and a `BinaryHeap` of parked requests.
`AppendRecordRequest`'s `Ord` compares stream, range and offset the other way
round, so the max-heap yields the request of smallest offset first. -/

namespace ElasticStream.Store

open Collections

/-- `AppendRecordRequest`, without its buffer, which the range buffer never
reads. -/
structure AppendRecordRequest where
  streamId : Nat
  rangeIndex : Int
  offset : Nat
  len : Nat
  deriving DecidableEq, Repr

namespace AppendRecordRequest

/-- `Ord for AppendRecordRequest`: each field of `other` against `self`'s. -/
def cmp (self other : AppendRecordRequest) : Ordering :=
  match compare other.streamId self.streamId with
  | .gt => .gt
  | .lt => .lt
  | .eq =>
    match compare other.rangeIndex self.rangeIndex with
    | .gt => .gt
    | .lt => .lt
    | .eq => compare other.offset self.offset

/-- The order of the `BinaryHeap`: `a` is at least `b`, so comes out first. -/
def ge (a b : AppendRecordRequest) : Prop := a.cmp b ≠ .lt

instance : DecidableRel ge := fun a b => inferInstanceAs (Decidable (a.cmp b ≠ .lt))

/-- The reversed comparison: the greater request is the one of smaller stream,
range and offset, in that order. -/
theorem ge_iff {a b : AppendRecordRequest} :
    a.ge b ↔ a.streamId < b.streamId ∨ a.streamId = b.streamId ∧
      (a.rangeIndex < b.rangeIndex ∨ a.rangeIndex = b.rangeIndex ∧ a.offset ≤ b.offset) := by
  unfold ge cmp
  rcases lt_trichotomy b.streamId a.streamId with hs | hs | hs
  · simp [compare_lt_iff_lt.mpr hs, Nat.not_lt.mpr hs.le, hs.ne']
  · rcases lt_trichotomy b.rangeIndex a.rangeIndex with hr | hr | hr
    · simp [hs, compare_lt_iff_lt.mpr hr, not_lt.mpr hr.le, hr.ne']
    · have h1 : compare a.streamId a.streamId = .eq := compare_eq_iff_eq.mpr rfl
      have h2 : compare a.rangeIndex a.rangeIndex = .eq := compare_eq_iff_eq.mpr rfl
      simp only [hs, hr, h1, h2, lt_self_iff_false, true_and, false_or, ne_eq]
      rw [compare_lt_iff_lt, Nat.not_lt]
    · simp [hs, compare_gt_iff_gt.mpr hr, hr]
  · simp [compare_gt_iff_gt.mpr hs, hs]

instance : Std.Total ge where
  total a b := by
    rw [ge_iff, ge_iff]
    omega

instance : IsTrans AppendRecordRequest ge where
  trans a b c hab hbc := by
    rw [ge_iff] at hab hbc ⊢
    omega

/-- Within one range the heap's order is the offsets', smallest first. -/
theorem ge_iff_of_same {a b : AppendRecordRequest} (hs : a.streamId = b.streamId)
    (hr : a.rangeIndex = b.rangeIndex) : a.ge b ↔ a.offset ≤ b.offset := by
  rw [ge_iff]
  omega

end AppendRecordRequest

/-- `RangeBuffer`. -/
structure RangeBuffer where
  next : Nat
  buffered : Heap AppendRecordRequest AppendRecordRequest.ge

namespace RangeBuffer

def new (next : Nat) : RangeBuffer := ⟨next, .empty⟩

/-- `RangeBuffer::fast_forward`: whether the request may go to the store now,
and the buffer with `next` moved past it if it was the next one. -/
def fastForward (self : RangeBuffer) (request : AppendRecordRequest) : Bool × RangeBuffer :=
  match compare self.next request.offset with
  | .lt => (false, self)
  | .eq => (true, { self with next := self.next + request.len })
  | .gt => (true, self)

/-- The loop of `RangeBuffer::drain`: pop while the top request is the next. -/
def drainLoop (next : Nat) (buffered : Heap AppendRecordRequest AppendRecordRequest.ge)
    (res : List AppendRecordRequest) :
    Nat × Heap AppendRecordRequest AppendRecordRequest.ge × List AppendRecordRequest :=
  match buffered.peek with
  | none => (next, buffered, res)
  | some item =>
    if item.offset ≠ next then (next, buffered, res)
    else
      match hp : buffered.pop with
      | some (item, rest) => drainLoop (next + item.len) rest (res ++ [item])
      | none => (next, buffered, res)
termination_by buffered.len
decreasing_by exact Heap.len_lt_of_pop hp

/-- `RangeBuffer::drain`: nothing while the top request is not the next,
else the run of requests that continue from `next`. -/
def drain (self : RangeBuffer) : Option (List AppendRecordRequest) × RangeBuffer :=
  if self.buffered.isEmpty then (none, self)
  else
    let loop := fun (_ : Unit) =>
      let (next, buffered, res) := drainLoop self.next self.buffered []
      (some res, ⟨next, buffered⟩)
    match self.buffered.peek with
    | some item => if item.offset ≠ self.next then (none, self) else loop ()
    | none => loop ()

/-- `RangeBuffer::buffer`; its `debug_assert!` fails (`none`) on a request
that is already continuous. -/
def buffer (self : RangeBuffer) (req : AppendRecordRequest) : Option RangeBuffer :=
  if req.offset ≠ self.next then some { self with buffered := self.buffered.push req } else none

end RangeBuffer

/-- `BufferedStore::append` on the request's range buffer: the requests it
hands to the inner store, in order (none while the request is parked), or
`none` where the `debug_assert!` of `buffer` fails. -/
def append (buffer : RangeBuffer) (request : AppendRecordRequest) :
    Option (RangeBuffer × List AppendRecordRequest) :=
  let (forward, buffer) := buffer.fastForward request
  if forward then
    let (drained, buffer) := buffer.drain
    match drained with
    | some requests => some (buffer, request :: requests)
    | none => some (buffer, [request])
  else (buffer.buffer request).map fun buffer => (buffer, [])

/-- Requests reaching `append` one after another: the buffer after the last,
and every request handed to the store, in order. -/
def appendAll : RangeBuffer → List AppendRecordRequest → Option (RangeBuffer × List AppendRecordRequest)
  | buffer, [] => some (buffer, [])
  | buffer, request :: requests => do
    let (buffer, dispatched) ← append buffer request
    let (buffer, rest) ← appendAll buffer requests
    pure (buffer, dispatched ++ rest)

namespace RangeBuffer

variable {n : Nat} {h h' : Heap AppendRecordRequest AppendRecordRequest.ge} {x : AppendRecordRequest}
  {res : List AppendRecordRequest}

theorem drainLoop_of_peek_none (hp : h.peek = none) : drainLoop n h res = (n, h, res) := by
  rw [drainLoop, hp]

theorem drainLoop_of_ne (hp : h.peek = some x) (hx : x.offset ≠ n) : drainLoop n h res = (n, h, res) := by
  rw [drainLoop, hp]
  simp [hx]

theorem drainLoop_of_eq (hp : h.peek = some x) (hx : x.offset = n) (hpop : h.pop = some (x, h')) :
    drainLoop n h res = drainLoop (n + x.len) h' (res ++ [x]) := by
  rw [drainLoop, hp]
  simp only [hx, ne_eq, not_true_eq_false, if_false]
  split
  · rename_i item rest hpop'
    rw [hpop] at hpop'
    cases hpop'
    rfl
  · rename_i hnone
    rw [hpop] at hnone
    cases hnone

/-- `drain` is its loop from `next`: the checks before the loop only return
early where the loop would stop at once. -/
theorem drain_eq (self : RangeBuffer) :
    self.drain.1.getD [] = (drainLoop self.next self.buffered []).2.2 ∧
      self.drain.2 = ⟨(drainLoop self.next self.buffered []).1, (drainLoop self.next self.buffered []).2.1⟩ := by
  unfold drain
  split_ifs with hempty
  · rw [drainLoop_of_peek_none (Heap.peek_eq_none.mpr (Heap.isEmpty_iff.mp hempty))]
    exact ⟨rfl, rfl⟩
  · cases hp : self.buffered.peek with
    | none => exact ⟨rfl, rfl⟩
    | some item =>
      by_cases hx : item.offset ≠ self.next
      · rw [drainLoop_of_ne hp hx]
        simp [hx]
      · simp [hx]

end RangeBuffer

/-! ## Requests that tile a run of offsets -/

/-- Requests whose offsets tile `[n, ...)`: each begins where the one before
it ends, and none is empty. -/
def Consecutive : Nat → List AppendRecordRequest → Prop
  | _, [] => True
  | n, r :: rs => r.offset = n ∧ 0 < r.len ∧ Consecutive (n + r.len) rs

namespace Consecutive

variable {n : Nat} {rs : List AppendRecordRequest}

theorem le_offset : ∀ {n : Nat} {rs : List AppendRecordRequest}, Consecutive n rs → ∀ x ∈ rs, n ≤ x.offset
  | _, [], _, _, hx => by cases hx
  | _, r :: rs, ⟨hr, hlen, hrs⟩, x, hx => by
    rcases List.mem_cons.mp hx with rfl | hx
    · omega
    · have := le_offset hrs x hx
      omega

/-- After the first request, every offset lies past the start. -/
theorem lt_offset {r : AppendRecordRequest} (h : Consecutive n (r :: rs)) : ∀ x ∈ rs, n < x.offset := by
  intro x hx
  have := le_offset h.2.2 x hx
  have := h.2.1
  omega

theorem nodup : ∀ {n : Nat} {rs : List AppendRecordRequest}, Consecutive n rs → rs.Nodup
  | _, [], _ => List.nodup_nil
  | _, r :: rs, h => by
    refine List.nodup_cons.mpr ⟨fun hr => ?_, nodup h.2.2⟩
    have := lt_offset h r hr
    have := h.1
    omega

theorem of_append : ∀ {n : Nat} {ds us : List AppendRecordRequest},
    Consecutive n (ds ++ us) → Consecutive (n + (ds.map (·.len)).sum) us
  | _, [], _, h => by simpa using h
  | _, d :: ds, us, h => by
    have := of_append h.2.2
    simpa [Nat.add_assoc] using this

end Consecutive

instance decConsecutive : ∀ (n : Nat) (rs : List AppendRecordRequest), Decidable (Consecutive n rs)
  | _, [] => isTrue trivial
  | n, r :: rs =>
    haveI := decConsecutive (n + r.len) rs
    inferInstanceAs (Decidable (r.offset = n ∧ 0 < r.len ∧ Consecutive (n + r.len) rs))

/-- Requests of one range of one stream. -/
def InRange (s : Nat) (i : Int) (rs : List AppendRecordRequest) : Prop :=
  ∀ x ∈ rs, x.streamId = s ∧ x.rangeIndex = i

instance (s : Nat) (i : Int) : DecidablePred (InRange s i) :=
  fun rs => inferInstanceAs (Decidable (∀ x ∈ rs, x.streamId = s ∧ x.rangeIndex = i))

/-! ## Draining a tiling -/

section Drain

variable {s : Nat} {i : Int}

/-- The loop drains the longest run of the tiling that the heap holds: it
pops the tiling's requests while the first one not yet popped is in the heap,
and what it leaves holds none of them before the first it lacks. -/
theorem drainLoop_tiles : ∀ {U : List AppendRecordRequest} {n : Nat}
    {h : Heap AppendRecordRequest AppendRecordRequest.ge} (res : List AppendRecordRequest),
    Consecutive n U → InRange s i U → (∀ x ∈ h.items, x ∈ U) → h.items.Nodup →
    ∃ P V h', U = P ++ V ∧
      RangeBuffer.drainLoop n h res = (n + (P.map (·.len)).sum, h', res ++ P) ∧
      h.items.Perm (P ++ h'.items) ∧ ∀ x ∈ h'.items, x ∈ V.tail
  | [], n, h, res, _, _, hsub, _ => by
    have hnil : h.items = [] := List.eq_nil_iff_forall_not_mem.mpr fun x hx => by simpa using hsub x hx
    refine ⟨[], [], h, rfl, ?_, by simp [hnil], by simp [hnil]⟩
    rw [RangeBuffer.drainLoop_of_peek_none (Heap.peek_eq_none.mpr hnil)]
    simp
  | u :: U, n, h, res, hU, hsame, hsub, hnd => by
    by_cases hmem : u ∈ h.items
    · -- `u` has the smallest offset of the range, so it is on top
      obtain ⟨y, hy⟩ : ∃ y, h.peek = some y := Option.ne_none_iff_exists'.mp
        fun hp => by simp [Heap.peek_eq_none.mp hp] at hmem
      obtain ⟨h', hpop, hitems⟩ := Heap.pop_of_peek hy
      have hyu : y = u := by
        by_contra hne
        have hyU : y ∈ U := (List.mem_cons.mp (hsub y (by simp [hitems]))).resolve_left hne
        have hge := Heap.rel_of_peek hy hmem (Ne.symm hne)
        have hsy := hsame y (List.mem_cons_of_mem u hyU)
        have hsu := hsame u List.mem_cons_self
        rw [AppendRecordRequest.ge_iff_of_same (hsy.1.trans hsu.1.symm) (hsy.2.trans hsu.2.symm)] at hge
        have := Consecutive.lt_offset hU y hyU
        have := hU.1
        omega
      subst hyu
      have hnd' : h'.items.Nodup := (List.nodup_cons.mp (hitems ▸ hnd)).2
      have hsub' : ∀ x ∈ h'.items, x ∈ U := fun x hx =>
        (List.mem_cons.mp (hsub x (by simp [hitems, hx]))).resolve_left
          fun hxu => (List.nodup_cons.mp (hitems ▸ hnd)).1 (hxu ▸ hx)
      obtain ⟨P, V, h'', hsplit, hloop, hperm, hrest⟩ :=
        drainLoop_tiles (res ++ [y]) hU.2.2 (fun x hx => hsame x (List.mem_cons_of_mem y hx)) hsub' hnd'
      refine ⟨y :: P, V, h'', by rw [hsplit, List.cons_append], ?_, ?_, hrest⟩
      · rw [RangeBuffer.drainLoop_of_eq hy hU.1 hpop, hloop]
        simp [Nat.add_assoc]
      · rw [hitems, List.cons_append]
        exact hperm.cons y
    · -- `u` is missing: the top, if any, starts past `n`
      refine ⟨[], u :: U, h, rfl, ?_, by simp, fun x hx => ?_⟩
      · cases hp : h.peek with
        | none =>
          rw [RangeBuffer.drainLoop_of_peek_none hp]
          simp
        | some y =>
          obtain ⟨h', -, hitems⟩ := Heap.pop_of_peek hp
          have hyU : y ∈ U := (List.mem_cons.mp (hsub y (by simp [hitems]))).resolve_left
            fun hyu => hmem (hyu ▸ by simp [hitems])
          have := Consecutive.lt_offset hU y hyU
          rw [RangeBuffer.drainLoop_of_ne hp (by omega)]
          simp
      · exact (List.mem_cons.mp (hsub x hx)).resolve_left fun hxu => hmem (hxu ▸ hx)

end Drain

/-! ## Appends of a tiling, in any order -/

/-- The range buffer after some requests of a tiling `reqs` from `n₀` have
arrived: the store has had a prefix of the tiling, `next` is where it ends,
and the heap holds the other arrived requests, none of them the first one
still missing. -/
structure Inv (n₀ : Nat) (reqs arrived : List AppendRecordRequest) (buffer : RangeBuffer)
    (dispatched : List AppendRecordRequest) : Prop where
  split : ∃ U, reqs = dispatched ++ U ∧ ∀ x ∈ buffer.buffered.items, x ∈ U.tail
  next_eq : buffer.next = n₀ + (dispatched.map (·.len)).sum
  perm : arrived.Perm (dispatched ++ buffer.buffered.items)

section Run

variable {s : Nat} {i : Int} {n₀ : Nat} {reqs : List AppendRecordRequest}

theorem inv_new (n₀ : Nat) (reqs : List AppendRecordRequest) : Inv n₀ reqs [] (RangeBuffer.new n₀) [] :=
  ⟨⟨reqs, rfl, by simp [RangeBuffer.new]⟩, by simp [RangeBuffer.new], by simp [RangeBuffer.new]⟩

/-- The next request of the tiling goes to the store at once, with the run
of parked requests that follow it. -/
theorem append_next {buffer : RangeBuffer} {x : AppendRecordRequest} (hx : x.offset = buffer.next) :
    append buffer x = some ((RangeBuffer.drain ⟨buffer.next + x.len, buffer.buffered⟩).2,
      x :: ((RangeBuffer.drain ⟨buffer.next + x.len, buffer.buffered⟩).1.getD [])) := by
  have hcmp : compare buffer.next x.offset = .eq := compare_eq_iff_eq.mpr hx.symm
  simp only [append, RangeBuffer.fastForward, hcmp, if_true]
  split <;> simp_all

/-- A request past `next` is parked. -/
theorem append_later {buffer : RangeBuffer} {x : AppendRecordRequest} (hx : buffer.next < x.offset) :
    append buffer x = some (⟨buffer.next, buffer.buffered.push x⟩, []) := by
  have hcmp : compare buffer.next x.offset = .lt := compare_lt_iff_lt.mpr hx
  simp [append, RangeBuffer.fastForward, hcmp, RangeBuffer.buffer, Nat.ne_of_gt hx]

/-- **Step.** A request of the tiling that has not arrived before keeps the
invariant, and `append` never trips its assertion on it. -/
theorem inv_append (htile : Consecutive n₀ reqs) (hsame : InRange s i reqs) {arrived : List AppendRecordRequest}
    {buffer : RangeBuffer} {dispatched : List AppendRecordRequest} (hi : Inv n₀ reqs arrived buffer dispatched)
    {x : AppendRecordRequest} (hx : x ∈ reqs) (hnd : (arrived ++ [x]).Nodup) :
    ∃ buffer' d, append buffer x = some (buffer', d) ∧ Inv n₀ reqs (arrived ++ [x]) buffer' (dispatched ++ d) := by
  obtain ⟨U, hreqs, hsub⟩ := hi.split
  have hU : Consecutive buffer.next U := hi.next_eq ▸ Consecutive.of_append (hreqs ▸ htile)
  have hsameU : InRange s i U := fun y hy => hsame y (hreqs ▸ List.mem_append_right _ hy)
  have hxA : x ∉ arrived := fun h => (List.nodup_append.mp hnd).2.2 x h x (List.mem_singleton_self x) rfl
  have hxU : x ∈ U := by
    rw [hreqs] at hx
    exact (List.mem_append.mp hx).resolve_left fun hxD => hxA (hi.perm.mem_iff.mpr (List.mem_append_left _ hxD))
  have hndA : (dispatched ++ buffer.buffered.items).Nodup := hi.perm.nodup_iff.mp (List.nodup_append.mp hnd).1
  cases U with
  | nil => cases hxU
  | cons u U =>
    by_cases hxu : x = u
    · -- the missing request: it and the run after it go to the store
      subst hxu
      obtain ⟨P, V, h', hsplit, hloop, hperm, hrest⟩ :=
        drainLoop_tiles [] hU.2.2 (fun y hy => hsameU y (List.mem_cons_of_mem x hy)) hsub
          (List.nodup_append.mp hndA).2.1
      obtain ⟨hd, hb⟩ := RangeBuffer.drain_eq ⟨buffer.next + x.len, buffer.buffered⟩
      simp only [hloop, List.nil_append] at hd hb
      refine ⟨_, _, append_next hU.1, ⟨V, ?_, ?_⟩, ?_, ?_⟩
      · rw [hd, hreqs, hsplit]
        simp
      · rw [hb]
        exact hrest
      · rw [hb, hd, hi.next_eq]
        simp [Nat.add_assoc]
      · rw [hb, hd]
        have hmove : (dispatched ++ buffer.buffered.items ++ [x]).Perm (dispatched ++ x :: (P ++ h'.items)) := by
          rw [List.append_assoc]
          exact (List.Perm.refl _).append ((List.perm_append_singleton x _).trans (hperm.cons x))
        simpa using (hi.perm.append_right [x]).trans hmove
    · -- a later request: it is parked
      have hxU' : x ∈ U := (List.mem_cons.mp hxU).resolve_left hxu
      refine ⟨_, _, append_later (Consecutive.lt_offset hU x hxU'), ⟨u :: U, by simpa using hreqs, ?_⟩,
        by simpa using hi.next_eq, ?_⟩
      · intro y hy
        rcases List.mem_cons.mp ((Heap.push_perm _ x).mem_iff.mp hy) with rfl | hy
        · exact hxU'
        · exact hsub y hy
      · have hmove : (dispatched ++ buffer.buffered.items ++ [x]).Perm
            (dispatched ++ (buffer.buffered.push x).items) := by
          rw [List.append_assoc]
          exact (List.Perm.refl _).append ((List.perm_append_singleton x _).trans (Heap.push_perm _ x).symm)
        simpa using (hi.perm.append_right [x]).trans hmove

/-- **Run.** Requests of the tiling arriving one after another, each once,
keep the invariant. -/
theorem inv_appendAll (htile : Consecutive n₀ reqs) (hsame : InRange s i reqs) :
    ∀ {arrived rest : List AppendRecordRequest} {buffer : RangeBuffer} {dispatched : List AppendRecordRequest},
      Inv n₀ reqs arrived buffer dispatched → (∀ x ∈ rest, x ∈ reqs) → (arrived ++ rest).Nodup →
      ∃ buffer' d, appendAll buffer rest = some (buffer', d) ∧
        Inv n₀ reqs (arrived ++ rest) buffer' (dispatched ++ d)
  | _, [], buffer, _, hi, _, _ => ⟨buffer, [], rfl, by simpa using hi⟩
  | arrived, x :: rest, _, _, hi, hmem, hnd => by
    have hnd₁ : (arrived ++ [x]).Nodup :=
      List.Nodup.sublist (List.sublist_append_left (arrived ++ [x]) rest) (by simpa using hnd)
    obtain ⟨buffer₁, d₁, happ, hi₁⟩ := inv_append htile hsame hi (hmem x List.mem_cons_self) hnd₁
    obtain ⟨buffer₂, d₂, hall, hi₂⟩ :=
      inv_appendAll htile hsame hi₁ (fun y hy => hmem y (List.mem_cons_of_mem x hy)) (by simpa using hnd)
    exact ⟨buffer₂, d₁ ++ d₂, by simp [appendAll, happ, hall], by simpa using hi₂⟩

/-- Once every request of the tiling has arrived, the store has had all of
them and the heap is empty: a parked request would be the first missing one
of the tiling, and none is missing. -/
theorem Inv.complete {arrived : List AppendRecordRequest} {buffer : RangeBuffer}
    {dispatched : List AppendRecordRequest} (hi : Inv n₀ reqs arrived buffer dispatched)
    (hperm : arrived.Perm reqs) (hnd : reqs.Nodup) : dispatched = reqs ∧ buffer.buffered.items = [] := by
  obtain ⟨U, hreqs, hsub⟩ := hi.split
  rw [hreqs] at hperm hnd
  have hU : buffer.buffered.items.Perm U := (List.perm_append_left_iff dispatched).mp (hi.perm.symm.trans hperm)
  cases U with
  | nil => exact ⟨by simpa using hreqs.symm, List.Perm.eq_nil hU⟩
  | cons u U =>
    have hu : u ∈ U := hsub u (hU.mem_iff.mpr List.mem_cons_self)
    exact absurd hu (List.nodup_cons.mp (List.nodup_append.mp hnd).2.1).1

end Run

/-- Appends of one range whose offsets tile `[n₀, n₀ + L)` reach
`BufferedStore::append` in any order, each once: the inner store gets every
one of them once, in offset order, no assertion fails, and the range buffer
ends with an empty heap at `n₀ + L`. -/
theorem appendAll_dispatches_in_order {s : Nat} {i : Int} {n₀ : Nat} {reqs arrival : List AppendRecordRequest}
    (htile : Consecutive n₀ reqs) (hsame : InRange s i reqs) (hperm : arrival.Perm reqs) :
    ∃ buffer, appendAll (RangeBuffer.new n₀) arrival = some (buffer, reqs) ∧
      buffer.next = n₀ + (reqs.map (·.len)).sum ∧ buffer.buffered.items = [] := by
  have hnd : reqs.Nodup := htile.nodup
  obtain ⟨buffer, d, hall, hi⟩ := inv_appendAll htile hsame (inv_new n₀ reqs)
    (fun x hx => hperm.mem_iff.mp hx) (by simpa using hperm.nodup_iff.mpr hnd)
  simp only [List.nil_append] at hi
  obtain ⟨rfl, hempty⟩ := hi.complete hperm hnd
  exact ⟨buffer, hall, hi.next_eq, hempty⟩

/-- The requests of `test_drain`, the two later ones first. -/
theorem appendAll_dispatches_in_order_test_drain :
    ∃ buffer, appendAll (RangeBuffer.new 16) [⟨1, 1, 17, 8⟩, ⟨1, 1, 25, 8⟩, ⟨1, 1, 16, 1⟩] =
        some (buffer, [⟨1, 1, 16, 1⟩, ⟨1, 1, 17, 8⟩, ⟨1, 1, 25, 8⟩]) ∧
      buffer.next = 16 + ([⟨1, 1, 16, 1⟩, ⟨1, 1, 17, 8⟩, ⟨1, 1, 25, 8⟩].map AppendRecordRequest.len).sum ∧
      buffer.buffered.items = [] :=
  appendAll_dispatches_in_order (by decide) (by decide : InRange 1 1 _) (by decide)

end ElasticStream.Store
