import Mathlib

/-! # Unions of half-open intervals

Items read as half-open intervals `[lo x, hi x)` of natural numbers, a list
of them, and the points the list covers. `Apart` is the canonical form of
such a list: each interval ends strictly before the next begins, so that no
two overlap or touch. `Tiles s l` is the opposite extreme: the intervals are
laid end to end from `s`, with no gap and no overlap, and end at `stop s l`. -/

namespace ElasticStream.Collections

/-- An item that stands for the interval `[lo x, hi x)`. -/
class HalfOpen (α : Type) where
  lo : α → Nat
  hi : α → Nat

namespace HalfOpen

variable {α : Type} [HalfOpen α]

/-- Some interval of `l` holds `z`. -/
def Covers (l : List α) (z : Nat) : Prop := ∃ x ∈ l, lo x ≤ z ∧ z < hi x

/-- Each interval of `l` ends strictly before every later one begins. -/
def Apart (l : List α) : Prop := l.Pairwise fun x y => hi x < lo y

@[simp] theorem covers_nil (z : Nat) : ¬ Covers ([] : List α) z := by simp [Covers]

theorem covers_cons {x : α} {l : List α} {z : Nat} :
    Covers (x :: l) z ↔ (lo x ≤ z ∧ z < hi x) ∨ Covers l z := by
  simp [Covers]

theorem covers_singleton {x : α} {z : Nat} : Covers [x] z ↔ lo x ≤ z ∧ z < hi x := by
  simp [Covers]

theorem covers_append {l l' : List α} {z : Nat} : Covers (l ++ l') z ↔ Covers l z ∨ Covers l' z := by
  simp only [Covers, List.mem_append]
  constructor
  · rintro ⟨x, hx | hx, h⟩
    · exact .inl ⟨x, hx, h⟩
    · exact .inr ⟨x, hx, h⟩
  · rintro (⟨x, hx, h⟩ | ⟨x, hx, h⟩)
    · exact ⟨x, .inl hx, h⟩
    · exact ⟨x, .inr hx, h⟩

theorem covers_of_perm {l l' : List α} (h : l.Perm l') {z : Nat} : Covers l z ↔ Covers l' z := by
  simp only [Covers, h.mem_iff]

/-- In canonical form the end of the first interval is not covered. -/
theorem not_covers_hi_head {x : α} {l : List α} (h : Apart (x :: l)) : ¬ Covers (x :: l) (hi x) := by
  rw [covers_cons]
  rintro (⟨-, hlt⟩ | ⟨y, hy, hle, -⟩)
  · exact Nat.lt_irrefl _ hlt
  · have := List.rel_of_pairwise_cons h hy
    omega

/-- In canonical form nothing below the first interval is covered. -/
theorem not_covers_of_lt_head {x : α} {l : List α} (h : Apart (x :: l)) (hx : lo x ≤ hi x)
    {z : Nat} (hz : z < lo x) : ¬ Covers (x :: l) z := by
  rw [covers_cons]
  rintro (⟨hle, -⟩ | ⟨y, hy, hle, -⟩)
  · omega
  · have := List.rel_of_pairwise_cons h hy
    omega

/-! ## Intervals laid end to end -/

/-- The intervals of `l` are laid end to end from `s`: the first begins at
`s`, each later one where the one before it ends. -/
def Tiles : Nat → List α → Prop
  | _, [] => True
  | s, x :: l => lo x = s ∧ Tiles (hi x) l

/-- Where the intervals of `l`, laid from `s`, end. -/
def stop : Nat → List α → Nat
  | s, [] => s
  | _, x :: l => stop (hi x) l

@[simp] theorem tiles_nil (s : Nat) : Tiles s ([] : List α) := trivial

@[simp] theorem tiles_cons {s : Nat} {x : α} {l : List α} : Tiles s (x :: l) ↔ lo x = s ∧ Tiles (hi x) l :=
  Iff.rfl

@[simp] theorem stop_nil (s : Nat) : stop s ([] : List α) = s := rfl

@[simp] theorem stop_cons (s : Nat) (x : α) (l : List α) : stop s (x :: l) = stop (hi x) l := rfl

theorem tiles_append : ∀ {s : Nat} {l₁ l₂ : List α}, Tiles s (l₁ ++ l₂) ↔ Tiles s l₁ ∧ Tiles (stop s l₁) l₂
  | _, [], _ => by simp
  | _, x :: l₁, _ => by simp [tiles_append, and_assoc]

theorem stop_append : ∀ (s : Nat) (l₁ l₂ : List α), stop s (l₁ ++ l₂) = stop (stop s l₁) l₂
  | _, [], _ => rfl
  | _, x :: l₁, l₂ => stop_append (hi x) l₁ l₂

/-- A tiling of intervals that do not run backwards is as long as its parts. -/
theorem stop_eq_add_sum : ∀ {s : Nat} {l : List α}, Tiles s l → (∀ x ∈ l, lo x ≤ hi x) →
    stop s l = s + (l.map fun x => hi x - lo x).sum
  | _, [], _, _ => rfl
  | s, x :: l, ⟨hx, hl⟩, hle => by
    have ih := stop_eq_add_sum hl fun y hy => hle y (List.mem_cons_of_mem x hy)
    have hx' := hle x List.mem_cons_self
    simp only [stop_cons, ih, List.map_cons, List.sum_cons]
    omega

/-- A tiling ends where its last interval does. -/
theorem stop_of_getLast? {y : α} (s : Nat) {l : List α} (h : l.getLast? = some y) : stop s l = hi y := by
  induction l generalizing s with
  | nil => simp at h
  | cons x l ih =>
    cases l with
    | nil =>
      simp only [List.getLast?_singleton, Option.some.injEq] at h
      simp [h]
    | cons x' l =>
      rw [List.getLast?_cons_cons] at h
      exact ih (hi x) h

end HalfOpen

end ElasticStream.Collections
