import Mathlib
import ElasticStream.Store.BlockCache

/-! # Merging the ranges a read misses

`MergeRange::merge` (store/src/io/block_cache.rs) turns the ranges a read
misses in the block cache into as few reads as it can. Sorted by WAL offset,
each range either extends the last merged range, when it overlaps or touches
it, or starts a new one. The merged length is stored back into a `u32`; it is
exact as long as no stretch of WAL offsets the ranges cover reaches `2^32`
bytes. -/

namespace ElasticStream.Store

/-- Some range of `rs` holds the WAL offset `z`. -/
def Covers (rs : List EntryRange) (z : Nat) : Prop :=
  ∃ r ∈ rs, r.walOffset ≤ z ∧ z < r.walOffset + r.len

/-- One pass of the loop of `merge`; the merged ranges are kept last first. -/
def mergeStep (merged : List EntryRange) (range : EntryRange) : List EntryRange :=
  match merged with
  | last :: rest =>
    if last.walOffset + last.len ≥ range.walOffset then
      ⟨last.walOffset, max (range.walOffset + range.len - last.walOffset) last.len % 2 ^ 32⟩ :: rest
    else range :: last :: rest
  | [] => [range]

/-- `MergeRange::merge`; `sort_by_key` is stable, as `mergeSort` is. -/
def merge (ranges : List EntryRange) : List EntryRange :=
  ((ranges.mergeSort fun a b => decide (a.walOffset ≤ b.walOffset)).foldl mergeStep []).reverse

@[simp] theorem merge_singleton (r : EntryRange) : merge [r] = [r] := by
  simp [merge, mergeStep]

@[simp] theorem covers_nil (z : Nat) : ¬ Covers [] z := by simp [Covers]

theorem covers_cons {r : EntryRange} {rs : List EntryRange} {z : Nat} :
    Covers (r :: rs) z ↔ (r.walOffset ≤ z ∧ z < r.walOffset + r.len) ∨ Covers rs z := by
  simp [Covers]

theorem covers_append {rs rs' : List EntryRange} {z : Nat} :
    Covers (rs ++ rs') z ↔ Covers rs z ∨ Covers rs' z := by
  simp only [Covers, List.mem_append]
  constructor
  · rintro ⟨r, hr | hr, h⟩
    · exact .inl ⟨r, hr, h⟩
    · exact .inr ⟨r, hr, h⟩
  · rintro (⟨r, hr, h⟩ | ⟨r, hr, h⟩)
    · exact ⟨r, .inl hr, h⟩
    · exact ⟨r, .inr hr, h⟩

theorem covers_of_perm {rs rs' : List EntryRange} (h : rs.Perm rs') {z : Nat} :
    Covers rs z ↔ Covers rs' z := by
  simp only [Covers, h.mem_iff]

/-- What the merged ranges, last first, are after a sorted prefix `done` of
the input: each ends before the one after it begins, together they cover
what `done` covers, and each starts where some range of `done` starts. -/
structure MergeInv (done merged : List EntryRange) : Prop where
  apart : merged.Pairwise fun r' r => r.walOffset + r.len < r'.walOffset
  covers : ∀ z, Covers merged z ↔ Covers done z
  starts : ∀ r ∈ merged, ∃ p ∈ done, r.walOffset = p.walOffset

section Step

variable {done merged : List EntryRange} {range : EntryRange}

/-- **Step.** A range starting at or after every range before it keeps the
invariant, provided the stretch it joins stays below `2^32` bytes. -/
theorem mergeInv_step (hi : MergeInv done merged) (hsorted : ∀ p ∈ done, p.walOffset ≤ range.walOffset)
    (hspan : ∀ a b, (∀ z, a ≤ z → z < b → Covers (done ++ [range]) z) → b - a < 2 ^ 32) :
    MergeInv (done ++ [range]) (mergeStep merged range) := by
  cases merged with
  | nil =>
    refine ⟨List.pairwise_singleton _ _, fun z => ?_, fun r hr => ?_⟩
    · rw [covers_append, ← hi.covers z]
      simp [mergeStep, Covers]
    · simp only [mergeStep, List.mem_singleton] at hr
      exact ⟨range, by simp, by rw [hr]⟩
  | cons last rest =>
    obtain ⟨p, hp, hlast⟩ := hi.starts last List.mem_cons_self
    have hle : last.walOffset ≤ range.walOffset := hlast ▸ hsorted p hp
    by_cases hjoin : last.walOffset + last.len ≥ range.walOffset
    · -- `range` overlaps or touches `last`: `last` grows to cover both
      set L := max (range.walOffset + range.len - last.walOffset) last.len with hL
      have hcov : ∀ z, (last.walOffset ≤ z ∧ z < last.walOffset + L) ↔
          (last.walOffset ≤ z ∧ z < last.walOffset + last.len) ∨
            (range.walOffset ≤ z ∧ z < range.walOffset + range.len) := by
        intro z
        omega
      have hmod : L % 2 ^ 32 = L := by
        apply Nat.mod_eq_of_lt
        have := hspan last.walOffset (last.walOffset + L) fun z h1 h2 => by
          rw [covers_append, ← hi.covers z, covers_cons]
          rcases (hcov z).mp ⟨h1, h2⟩ with h | h
          · exact .inl (.inl h)
          · exact .inr ⟨range, List.mem_singleton_self _, h⟩
        omega
      have hstep : mergeStep (last :: rest) range = ⟨last.walOffset, L⟩ :: rest := by
        simp only [mergeStep, if_pos hjoin, ← hL, hmod]
      rw [hstep]
      refine ⟨?_, fun z => ?_, fun r hr => ?_⟩
      · have := List.pairwise_cons.mp hi.apart
        exact List.pairwise_cons.mpr ⟨fun r hr => this.1 r hr, this.2⟩
      · rw [covers_cons, covers_append, ← hi.covers z, covers_cons, hcov z]
        simp only [Covers, List.mem_singleton, exists_eq_left]
        exact or_right_comm
      · rcases List.mem_cons.mp hr with rfl | hr
        · exact ⟨p, List.mem_append_left _ hp, hlast⟩
        · obtain ⟨q, hq, h⟩ := hi.starts r (List.mem_cons_of_mem _ hr)
          exact ⟨q, List.mem_append_left _ hq, h⟩
    · -- a gap before `range`: it starts a new merged range
      have hstep : mergeStep (last :: rest) range = range :: last :: rest := by
        simp only [mergeStep, if_neg hjoin]
      rw [hstep]
      refine ⟨List.pairwise_cons.mpr ⟨fun r hr => ?_, hi.apart⟩, fun z => ?_, fun r hr => ?_⟩
      · rcases List.mem_cons.mp hr with rfl | hr
        · omega
        · have := (List.pairwise_cons.mp hi.apart).1 r hr
          omega
      · rw [covers_cons, covers_append, ← hi.covers z]
        simp only [Covers, List.mem_singleton, exists_eq_left]
        exact or_comm
      · rcases List.mem_cons.mp hr with rfl | hr
        · exact ⟨r, by simp, rfl⟩
        · obtain ⟨q, hq, h⟩ := hi.starts r hr
          exact ⟨q, List.mem_append_left _ hq, h⟩

end Step

/-- **Run.** The loop over the rest of a sorted list keeps the invariant. -/
theorem mergeInv_foldl {ranges : List EntryRange}
    (hspan : ∀ a b, (∀ z, a ≤ z → z < b → Covers ranges z) → b - a < 2 ^ 32) :
    ∀ {done merged : List EntryRange} (todo : List EntryRange),
      (done ++ todo).Pairwise (fun a b => a.walOffset ≤ b.walOffset) →
      (∀ z, Covers (done ++ todo) z → Covers ranges z) →
      MergeInv done merged → MergeInv (done ++ todo) (todo.foldl mergeStep merged)
  | done, merged, [], _, _, hi => by simpa using hi
  | done, merged, range :: todo, hsorted, hsub, hi => by
    have hrange : ∀ p ∈ done, p.walOffset ≤ range.walOffset := fun p hp =>
      (List.pairwise_append.mp hsorted).2.2 p hp range List.mem_cons_self
    have hi' := mergeInv_step hi hrange fun a b hab =>
      hspan a b fun z h1 h2 => hsub z (by
        have := hab z h1 h2
        rw [covers_append] at this ⊢
        rcases this with h | h
        · exact .inl h
        · exact .inr (by rw [covers_cons]; exact .inl (by simpa [Covers] using h)))
    have := mergeInv_foldl hspan todo (by simpa using hsorted) (by simpa using hsub) hi'
    simpa using this

/-- `merge` returns the canonical cover of its input: ranges in WAL order,
each ending strictly before the next begins, covering exactly what the input
covers, whenever every stretch of offsets the input covers is shorter than
`2^32` bytes, so that no merged length is cut by its `u32`. -/
theorem merge_canonical (ranges : List EntryRange)
    (hspan : ∀ a b, (∀ z, a ≤ z → z < b → Covers ranges z) → b - a < 2 ^ 32) :
    (merge ranges).Pairwise (fun r r' => r.walOffset + r.len < r'.walOffset) ∧
      ∀ z, Covers (merge ranges) z ↔ Covers ranges z := by
  set sorted := ranges.mergeSort fun a b => decide (a.walOffset ≤ b.walOffset) with hsorted
  have hperm : sorted.Perm ranges := List.mergeSort_perm _ _
  have hpair : sorted.Pairwise fun a b => a.walOffset ≤ b.walOffset := by
    have := @List.pairwise_mergeSort EntryRange (fun a b => decide (a.walOffset ≤ b.walOffset))
      (fun a b c hab hbc => by simp only [decide_eq_true_eq] at *; omega)
      (fun a b => by simp only [Bool.or_eq_true, decide_eq_true_eq]; omega) ranges
    simpa using this
  have hi : MergeInv sorted (sorted.foldl mergeStep []) := by
    have := @mergeInv_foldl ranges hspan [] [] sorted (by simpa using hpair)
      (fun z h => (covers_of_perm hperm).mp (by simpa using h))
      ⟨List.Pairwise.nil, fun z => by simp, fun r hr => by cases hr⟩
    simpa using this
  have hmerge : merge ranges = (sorted.foldl mergeStep []).reverse := rfl
  rw [hmerge]
  refine ⟨List.pairwise_reverse.mpr hi.apart, fun z => ?_⟩
  rw [covers_of_perm (List.reverse_perm _), hi.covers z, covers_of_perm hperm]

/-- Ranges that all end by some `n < 2^32` cover no stretch of `2^32` bytes. -/
theorem span_lt_of_ends_le {ranges : List EntryRange} {n : Nat} (hn : n < 2 ^ 32)
    (hend : ∀ r ∈ ranges, r.walOffset + r.len ≤ n) :
    ∀ a b, (∀ z, a ≤ z → z < b → Covers ranges z) → b - a < 2 ^ 32 := by
  intro a b hab
  by_contra hlong
  obtain ⟨r, hr, -, hz⟩ := hab (b - 1) (by omega) (by omega)
  have := hend r hr
  omega

theorem merge_canonical_touching :
    merge [⟨10, 5⟩, ⟨0, 10⟩, ⟨20, 3⟩] = [⟨0, 15⟩, ⟨20, 3⟩] ∧
      ((merge [⟨10, 5⟩, ⟨0, 10⟩, ⟨20, 3⟩]).Pairwise
          (fun r r' => r.walOffset + r.len < r'.walOffset) ∧
        ∀ z, Covers (merge [⟨10, 5⟩, ⟨0, 10⟩, ⟨20, 3⟩]) z ↔ Covers [⟨10, 5⟩, ⟨0, 10⟩, ⟨20, 3⟩] z) :=
  ⟨by simp [merge, List.mergeSort, List.MergeSort.Internal.splitInTwo_fst,
      List.MergeSort.Internal.splitInTwo_snd, mergeStep],
    merge_canonical _ (span_lt_of_ends_le (by decide : 23 < 2 ^ 32) (by decide))⟩

end ElasticStream.Store
