import Mathlib

/-! # Elements owned by agents

Agents each own a list of elements and a log holds the elements released so
far. The family is a partition when no element occurs twice, within one list
or across two. An agent may release part of what it owns to the log, drop part
of it, or be granted elements that nobody owns and the log does not hold; each
keeps the partition. -/

namespace ElasticStream.Collections

variable {ι α : Type}

structure Partition (own : ι → List α) (log : List α) : Prop where
  log_nodup : log.Nodup
  own_nodup : ∀ i, (own i).Nodup
  own_disjoint : ∀ i j, i ≠ j → (own i).Disjoint (own j)
  own_log : ∀ i, (own i).Disjoint log

namespace Partition

variable {own : ι → List α} {log : List α} {i : ι}

theorem of_nil (hown : ∀ i, own i = []) (hlog : log = []) : Partition own log :=
  ⟨hlog ▸ List.nodup_nil, fun i => hown i ▸ List.nodup_nil,
    fun i _ _ => by rw [hown i]; exact fun _ h => (nomatch h),
    fun i => by rw [hown i]; exact fun _ h => (nomatch h)⟩

/-- The log takes elements that no agent owns and it does not hold yet. -/
theorem extend {piece : List α} (h : Partition own log) (hnd : piece.Nodup) (hlog : log.Disjoint piece)
    (hown : ∀ j, (own j).Disjoint piece) : Partition own (log ++ piece) :=
  ⟨h.log_nodup.append hnd hlog, h.own_nodup, h.own_disjoint,
    fun j => List.disjoint_append_right.mpr ⟨h.own_log j, hown j⟩⟩

variable [DecidableEq ι]

/-- What agent `i` now owns, checked against every other agent. -/
theorem update {l : List α} (h : Partition own log) (hnd : l.Nodup) (hlog : l.Disjoint log)
    (hown : ∀ j, j ≠ i → l.Disjoint (own j)) : Partition (Function.update own i l) log := by
  refine ⟨h.log_nodup, ?_, ?_, ?_⟩
  · intro j
    rcases eq_or_ne j i with rfl | hj
    · rwa [Function.update_self]
    · rw [Function.update_of_ne hj]; exact h.own_nodup j
  · intro j k hjk
    rcases eq_or_ne j i with rfl | hj
    · rw [Function.update_self, Function.update_of_ne hjk.symm]; exact hown k hjk.symm
    · rcases eq_or_ne k i with rfl | hk
      · rw [Function.update_self, Function.update_of_ne hj]; exact List.disjoint_comm.mp (hown j hj)
      · rw [Function.update_of_ne hj, Function.update_of_ne hk]; exact h.own_disjoint j k hjk
  · intro j
    rcases eq_or_ne j i with rfl | hj
    · rwa [Function.update_self]
    · rw [Function.update_of_ne hj]; exact h.own_log j

/-- Agent `i` keeps a sublist of what it owns. -/
theorem shrink {l : List α} (h : Partition own log) (hsub : l.Sublist (own i)) :
    Partition (Function.update own i l) log :=
  h.update (hsub.nodup (h.own_nodup i)) (fun _ hx => h.own_log i (hsub.subset hx))
    (fun j hj _ hx => h.own_disjoint i j hj.symm (hsub.subset hx))

/-- Agent `i` is granted a block that no agent owns and the log does not hold. -/
theorem grant (i : ι) {block : List α} (h : Partition own log) (hnd : block.Nodup) (hlog : block.Disjoint log)
    (hown : ∀ j, block.Disjoint (own j)) : Partition (Function.update own i (own i ++ block)) log := by
  refine h.update ((h.own_nodup i).append hnd (List.disjoint_comm.mp (hown i))) ?_ ?_
  · exact List.disjoint_append_left.mpr ⟨h.own_log i, hlog⟩
  · intro j hj
    exact List.disjoint_append_left.mpr ⟨h.own_disjoint i j hj.symm, hown j⟩

/-- Agent `i` releases `piece` to the log and keeps `rest`. -/
theorem release {piece rest : List α} (h : Partition own log) (hperm : (own i).Perm (piece ++ rest)) :
    Partition (Function.update own i rest) (log ++ piece) := by
  have hnd : (piece ++ rest).Nodup := hperm.nodup_iff.mp (h.own_nodup i)
  have hmem : ∀ x ∈ piece ++ rest, x ∈ own i := fun x hx => hperm.symm.subset hx
  have hpiece : ∀ x ∈ piece, x ∈ own i := fun x hx => hmem x (List.mem_append_left _ hx)
  have hrest : ∀ x ∈ rest, x ∈ own i := fun x hx => hmem x (List.mem_append_right _ hx)
  have hsplit : piece.Disjoint rest := List.disjoint_of_nodup_append hnd
  refine (h.update hnd.of_append_right (fun _ hx => h.own_log i (hrest _ hx))
    (fun j hj _ hx => h.own_disjoint i j hj.symm (hrest _ hx))).extend hnd.of_append_left
    (fun _ hl hp => h.own_log i (hpiece _ hp) hl) ?_
  intro j
  rcases eq_or_ne j i with rfl | hj
  · rw [Function.update_self]; exact List.disjoint_comm.mp hsplit
  · rw [Function.update_of_ne hj]; exact fun _ hx hp => h.own_disjoint i j hj.symm (hpiece _ hp) hx

end Partition

end ElasticStream.Collections
