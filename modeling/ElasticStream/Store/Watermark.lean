import Mathlib
import ElasticStream.Collections.HalfOpen

/-! # Offloaded slices of a range

`RangeDescriptor` (store/src/watermark/range_descriptor.rs) records which
slices `[start, end)` of a range's offsets have been offloaded to object
storage, and `high` reads off how far from the range's start the offloaded
prefix reaches. `offload_slice` first tries to widen a recorded slice the new
one touches, scanning from the back, and then joins the first pair of slices
that touch; a slice that touches none is inserted after the first recorded
slice ending at or before it.

Every call keeps the union right, in any order (`offloadAll_covers`), and on
a canonical list `high` is the end of the offloaded prefix
(`high_of_apart`). The insertion is where the order is lost: a slice below
every recorded one goes to the back (`offloadSlice_lower_slice_hides_prefix`). -/

namespace ElasticStream.Store

open ElasticStream.Collections

/-- `OffloadSlice {start, end}`: the offsets `[start, end)`. -/
structure OffloadSlice where
  start : Nat
  «end» : Nat
  deriving DecidableEq, Repr

/-- The fields of `RangeDescriptor` that `offload_slice` and `high` read. -/
structure RangeDescriptor where
  start : Nat
  offloaded : List OffloadSlice
  deriving DecidableEq, Repr

/-- `RangeDescriptor::new` and `with_end` both start with no offloaded slice. -/
def RangeDescriptor.new (start : Nat) : RangeDescriptor := ⟨start, []⟩

/-- The two tests of the loop of `offload_slice`: `slice` continues `s`, or
leads into it; either way `s` is widened to cover both. -/
def expandWith (slice s : OffloadSlice) : Option OffloadSlice :=
  if slice.start = s.«end» then some ⟨s.start, slice.«end»⟩
  else if slice.«end» = s.start then some ⟨slice.start, s.«end»⟩
  else none

/-- `for s in self.offloaded.iter_mut().rev()`, over the reversed list: the
first slice that `slice` touches is widened and the loop breaks. -/
def expandRev (slice : OffloadSlice) : List OffloadSlice → Option (List OffloadSlice)
  | [] => none
  | s :: ss =>
    match expandWith slice s with
    | some s' => some (s' :: ss)
    | none => (expandRev slice ss).map (s :: ·)

/-- The `try_reduce` that finds the first slice ending where the next one
starts, the `remove` of it and the hand-over of its start to the next. -/
def mergeFirst : List OffloadSlice → List OffloadSlice
  | s :: t :: rest =>
    if s.«end» = t.start then ⟨s.start, t.«end»⟩ :: rest else s :: mergeFirst (t :: rest)
  | l => l

/-- `position(|s| s.end <= slice.start)` with `insert(idx + 1, slice)`, or
`push` when no slice qualifies. -/
def insertAfterFirst (slice : OffloadSlice) : List OffloadSlice → List OffloadSlice
  | [] => [slice]
  | s :: ss => if s.«end» ≤ slice.start then s :: slice :: ss else s :: insertAfterFirst slice ss

/-- `RangeDescriptor::offload_slice`. -/
def RangeDescriptor.offloadSlice (d : RangeDescriptor) (slice : OffloadSlice) : RangeDescriptor :=
  match expandRev slice d.offloaded.reverse with
  | some offloaded => { d with offloaded := mergeFirst offloaded.reverse }
  | none => { d with offloaded := insertAfterFirst slice d.offloaded }

@[simp] theorem offloadSlice_start (d : RangeDescriptor) (slice : OffloadSlice) :
    (d.offloadSlice slice).start = d.start := by
  unfold RangeDescriptor.offloadSlice
  split <;> rfl

/-- The loop of `high`: follow slices as long as each starts where the
offset so far ends. -/
def highFrom (offset : Nat) : List OffloadSlice → Nat
  | [] => offset
  | s :: ss => if offset = s.start then highFrom s.«end» ss else offset

/-- `RangeDescriptor::high`. -/
def RangeDescriptor.high (d : RangeDescriptor) : Nat := highFrom d.start d.offloaded

/-- Offloading slice after slice, as `data_offload` events arrive. -/
def RangeDescriptor.offloadAll (d : RangeDescriptor) (slices : List OffloadSlice) : RangeDescriptor :=
  slices.foldl RangeDescriptor.offloadSlice d

instance : HalfOpen OffloadSlice := ⟨OffloadSlice.start, OffloadSlice.«end»⟩

@[simp] theorem lo_offloadSlice (s : OffloadSlice) : HalfOpen.lo s = s.start := rfl

@[simp] theorem hi_offloadSlice (s : OffloadSlice) : HalfOpen.hi s = s.«end» := rfl

/-- Every slice of `l` is a proper interval, `start ≤ end`. -/
def Wf (l : List OffloadSlice) : Prop := ∀ s ∈ l, s.start ≤ s.«end»

theorem wf_cons {s : OffloadSlice} {l : List OffloadSlice} : Wf (s :: l) ↔ s.start ≤ s.«end» ∧ Wf l := by
  simp [Wf]

theorem wf_reverse {l : List OffloadSlice} (h : Wf l) : Wf l.reverse := fun s hs =>
  h s (List.mem_reverse.mp hs)

/-! ## The union -/

theorem expandWith_spec {slice s s' : OffloadSlice} (h : expandWith slice s = some s')
    (hslice : slice.start ≤ slice.«end») (hs : s.start ≤ s.«end») :
    s'.start ≤ s'.«end» ∧ ∀ z, HalfOpen.Covers [s'] z ↔ HalfOpen.Covers [s] z ∨ HalfOpen.Covers [slice] z := by
  simp only [HalfOpen.covers_singleton, lo_offloadSlice, hi_offloadSlice]
  unfold expandWith at h
  split_ifs at h with h1 h2 <;> cases h
  · exact ⟨by dsimp only; omega, fun z => by dsimp only; omega⟩
  · exact ⟨by dsimp only; omega, fun z => by dsimp only; omega⟩

/-- Widening one slice adds exactly the new slice to the union. -/
theorem expandRev_spec {slice : OffloadSlice} (hslice : slice.start ≤ slice.«end») :
    ∀ {l l' : List OffloadSlice}, expandRev slice l = some l' → Wf l →
      Wf l' ∧ ∀ z, HalfOpen.Covers l' z ↔ HalfOpen.Covers l z ∨ HalfOpen.Covers [slice] z
  | [], _, h, _ => by cases h
  | s :: ss, l', h, hwf => by
    rw [wf_cons] at hwf
    unfold expandRev at h
    cases hs : expandWith slice s with
    | some s' =>
      rw [hs] at h
      cases h
      obtain ⟨hs', hcov⟩ := expandWith_spec hs hslice hwf.1
      refine ⟨wf_cons.mpr ⟨hs', hwf.2⟩, fun z => ?_⟩
      have := hcov z
      simp only [HalfOpen.covers_singleton] at this
      rw [HalfOpen.covers_cons, HalfOpen.covers_cons, this, or_right_comm, HalfOpen.covers_singleton]
    | none =>
      rw [hs] at h
      obtain ⟨ss', hss, rfl⟩ := Option.map_eq_some_iff.mp h
      obtain ⟨hwf', hcov⟩ := expandRev_spec hslice hss hwf.2
      refine ⟨wf_cons.mpr ⟨hwf.1, hwf'⟩, fun z => ?_⟩
      rw [HalfOpen.covers_cons, hcov z, @HalfOpen.covers_cons _ _ s ss z, or_assoc]

/-- Joining two touching slices changes nothing of the union. -/
theorem mergeFirst_spec : ∀ {l : List OffloadSlice}, Wf l →
    Wf (mergeFirst l) ∧ ∀ z, HalfOpen.Covers (mergeFirst l) z ↔ HalfOpen.Covers l z
  | [], _ => ⟨by simp [Wf, mergeFirst], fun _ => Iff.rfl⟩
  | [s], hwf => ⟨by simpa [mergeFirst] using hwf, fun _ => Iff.rfl⟩
  | s :: t :: rest, hwf => by
    obtain ⟨hs, ht, hrest⟩ : s.start ≤ s.«end» ∧ t.start ≤ t.«end» ∧ Wf rest := by
      simp only [wf_cons] at hwf
      exact ⟨hwf.1, hwf.2.1, hwf.2.2⟩
    unfold mergeFirst
    by_cases hjoin : s.«end» = t.start
    · rw [if_pos hjoin]
      refine ⟨wf_cons.mpr ⟨by dsimp only; omega, hrest⟩, fun z => ?_⟩
      simp only [HalfOpen.covers_cons, lo_offloadSlice, hi_offloadSlice]
      have hjoined : (s.start ≤ z ∧ z < t.«end») ↔ (s.start ≤ z ∧ z < s.«end») ∨ (t.start ≤ z ∧ z < t.«end») := by
        omega
      rw [hjoined, or_assoc]
    · rw [if_neg hjoin]
      obtain ⟨hwf', hcov⟩ := @mergeFirst_spec (t :: rest) (wf_cons.mpr ⟨ht, hrest⟩)
      exact ⟨wf_cons.mpr ⟨hs, hwf'⟩, fun z => by rw [HalfOpen.covers_cons, @HalfOpen.covers_cons _ _ s (t :: rest) z, hcov z]⟩

theorem insertAfterFirst_perm (slice : OffloadSlice) :
    ∀ l : List OffloadSlice, (insertAfterFirst slice l).Perm (slice :: l)
  | [] => List.Perm.refl _
  | s :: ss => by
    unfold insertAfterFirst
    split_ifs
    · exact List.Perm.swap slice s ss
    · exact ((insertAfterFirst_perm slice ss).cons s).trans (List.Perm.swap slice s ss)

/-- **Step.** One `offload_slice` adds exactly the new slice to the union. -/
theorem offloadSlice_spec (d : RangeDescriptor) {slice : OffloadSlice}
    (hslice : slice.start ≤ slice.«end») (hwf : Wf d.offloaded) :
    Wf (d.offloadSlice slice).offloaded ∧
      ∀ z, HalfOpen.Covers (d.offloadSlice slice).offloaded z ↔ HalfOpen.Covers d.offloaded z ∨ HalfOpen.Covers [slice] z := by
  unfold RangeDescriptor.offloadSlice
  cases h : expandRev slice d.offloaded.reverse with
  | some l =>
    obtain ⟨hwf', hcov⟩ := expandRev_spec hslice h (wf_reverse hwf)
    obtain ⟨hwfm, hcovm⟩ := mergeFirst_spec (wf_reverse hwf')
    refine ⟨hwfm, fun z => ?_⟩
    rw [hcovm z, HalfOpen.covers_of_perm (List.reverse_perm l), hcov z, HalfOpen.covers_of_perm (List.reverse_perm _)]
  | none =>
    have hperm := insertAfterFirst_perm slice d.offloaded
    refine ⟨fun s hs => ?_, fun z => ?_⟩
    · rcases List.mem_cons.mp (hperm.mem_iff.mp hs) with rfl | hs
      · exact hslice
      · exact hwf s hs
    · show HalfOpen.Covers (insertAfterFirst slice d.offloaded) z ↔ _
      rw [HalfOpen.covers_of_perm hperm, HalfOpen.covers_cons, HalfOpen.covers_singleton, or_comm]

/-- **Run.** After any sequence of `offload_slice` calls, in any order, the
offloaded slices cover exactly what was recorded before and what was
offloaded since. -/
theorem offloadAll_covers :
    ∀ (d : RangeDescriptor) (slices : List OffloadSlice), Wf d.offloaded → Wf slices →
      ∀ z, HalfOpen.Covers (d.offloadAll slices).offloaded z ↔ HalfOpen.Covers d.offloaded z ∨ HalfOpen.Covers slices z
  | d, [], _, _, z => by simp [RangeDescriptor.offloadAll]
  | d, slice :: slices, hwf, hslices, z => by
    rw [wf_cons] at hslices
    obtain ⟨hwf', hcov⟩ := offloadSlice_spec d hslices.1 hwf
    have hrun := offloadAll_covers (d.offloadSlice slice) slices hwf' hslices.2 z
    simp only [RangeDescriptor.offloadAll, List.foldl_cons] at hrun ⊢
    rw [hrun, hcov z, HalfOpen.covers_singleton, HalfOpen.covers_cons, or_assoc]

/-! ## The watermark -/

/-- On a canonical list whose slices lie at or after the range's start,
`high` is the end of the offloaded prefix: every offset from `start` up to
it is offloaded and `high` itself is not. -/
theorem high_of_apart (d : RangeDescriptor) (hapart : HalfOpen.Apart d.offloaded) (hwf : Wf d.offloaded)
    (hstart : ∀ s ∈ d.offloaded, d.start ≤ s.start) :
    (∀ z, d.start ≤ z → z < d.high → HalfOpen.Covers d.offloaded z) ∧ ¬ HalfOpen.Covers d.offloaded d.high := by
  unfold RangeDescriptor.high
  cases hl : d.offloaded with
  | nil => simp [highFrom]
  | cons s rest =>
    rw [hl] at hapart hwf hstart
    by_cases hs : d.start = s.start
    · -- the prefix is `s`: the next slice, if any, starts strictly after it ends
      have hnext : highFrom s.«end» rest = s.«end» := by
        cases rest with
        | nil => rfl
        | cons t rest =>
          have : s.«end» < t.start := List.rel_of_pairwise_cons hapart List.mem_cons_self
          simp [highFrom, Nat.ne_of_lt this]
      simp only [highFrom, if_pos hs, hnext]
      refine ⟨fun z hz hz' => HalfOpen.covers_cons.mpr (.inl ⟨?_, hz'⟩), HalfOpen.not_covers_hi_head hapart⟩
      rw [lo_offloadSlice, ← hs]
      exact hz
    · have hlt : d.start < s.start := Nat.lt_of_le_of_ne (hstart s List.mem_cons_self) hs
      simp only [highFrom, if_neg hs]
      exact ⟨fun z hz hz' => absurd hz (by omega), HalfOpen.not_covers_of_lt_head hapart (hwf s List.mem_cons_self) hlt⟩

/-! ## Where the order is lost -/

theorem expandRev_eq_none {slice : OffloadSlice} :
    ∀ {l : List OffloadSlice}, (∀ s ∈ l, expandWith slice s = none) → expandRev slice l = none
  | [], _ => rfl
  | s :: ss, h => by
    simp only [expandRev, h s List.mem_cons_self,
      expandRev_eq_none fun t ht => h t (List.mem_cons_of_mem s ht), Option.map_none]

theorem insertAfterFirst_of_lt {slice : OffloadSlice} :
    ∀ {l : List OffloadSlice}, (∀ s ∈ l, slice.start < s.«end») → insertAfterFirst slice l = l ++ [slice]
  | [], _ => rfl
  | s :: ss, h => by
    have hs : ¬ s.«end» ≤ slice.start := Nat.not_le.mpr (h s List.mem_cons_self)
    simp only [insertAfterFirst, if_neg hs, List.cons_append,
      insertAfterFirst_of_lt fun t ht => h t (List.mem_cons_of_mem s ht)]

/-- A slice lying below every recorded slice, without touching one, is
pushed to the back. When it starts at the range's start, `high` then stops at
the start, although the offsets from the start to the slice's end are
offloaded: the list is no longer sorted, and `high` no longer the end of the
offloaded prefix. -/
theorem offloadSlice_lower_slice_hides_prefix (d : RangeDescriptor) (slice : OffloadSlice)
    (hslice : slice.start < slice.«end») (hat : slice.start = d.start)
    (hlower : ∀ s ∈ d.offloaded, slice.«end» < s.start ∧ s.start ≤ s.«end») (hne : d.offloaded ≠ []) :
    (d.offloadSlice slice).offloaded = d.offloaded ++ [slice] ∧
      (d.offloadSlice slice).high = d.start ∧
      ∀ z, d.start ≤ z → z < slice.«end» → HalfOpen.Covers (d.offloadSlice slice).offloaded z := by
  have hnone : expandRev slice d.offloaded.reverse = none := by
    refine expandRev_eq_none fun s hs => ?_
    have := hlower s (List.mem_reverse.mp hs)
    unfold expandWith
    rw [if_neg (by omega), if_neg (by omega)]
  have hpush : (d.offloadSlice slice).offloaded = d.offloaded ++ [slice] := by
    simp only [RangeDescriptor.offloadSlice, hnone]
    exact insertAfterFirst_of_lt fun s hs => by have := hlower s hs; omega
  refine ⟨hpush, ?_, fun z hz hz' => ?_⟩
  · obtain ⟨s, rest, hl⟩ := List.exists_cons_of_ne_nil hne
    have hs := hlower s (hl ▸ List.mem_cons_self)
    simp only [RangeDescriptor.high, offloadSlice_start, hpush, hl, List.cons_append, highFrom]
    rw [if_neg (by omega)]
  · rw [hpush, HalfOpen.covers_append, HalfOpen.covers_singleton]
    exact .inr ⟨by simpa [hat] using hz, hz'⟩

theorem offloadSlice_lower_slice_after_upper :
    ((RangeDescriptor.new 0).offloadSlice ⟨10, 20⟩).offloaded = [⟨10, 20⟩] ∧
      (((RangeDescriptor.new 0).offloadSlice ⟨10, 20⟩).offloadSlice ⟨0, 5⟩).offloaded =
        [⟨10, 20⟩, ⟨0, 5⟩] ∧
      (((RangeDescriptor.new 0).offloadSlice ⟨10, 20⟩).offloadSlice ⟨0, 5⟩).high = 0 ∧
      ∀ z, 0 ≤ z → z < 5 →
        HalfOpen.Covers (((RangeDescriptor.new 0).offloadSlice ⟨10, 20⟩).offloadSlice ⟨0, 5⟩).offloaded z := by
  have hfirst : ((RangeDescriptor.new 0).offloadSlice ⟨10, 20⟩).offloaded = [⟨10, 20⟩] := by decide
  obtain ⟨hpush, hhigh, hcov⟩ := offloadSlice_lower_slice_hides_prefix
    ((RangeDescriptor.new 0).offloadSlice ⟨10, 20⟩) ⟨0, 5⟩ (by decide) (by decide)
    (by rw [hfirst]; decide) (by rw [hfirst]; decide)
  exact ⟨hfirst, by rw [hpush, hfirst]; rfl, hhigh, hcov⟩

end ElasticStream.Store
