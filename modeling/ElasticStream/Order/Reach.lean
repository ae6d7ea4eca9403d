import Mathlib

/-! # How far a point reaches over a family of intervals

A family of half-open intervals `[lo, hi)` and a starting point `c₀`: the
reach of `c₀` is the least point `c ≥ c₀` that no interval starting at or
below `c` crosses. A write window that acknowledges the prefix of a log whose
bytes have all been written computes exactly this point. The one fact needed
about it: a closed point above `c₀` whose every lower point is covered is the
reach, hence unique. -/

namespace ElasticStream.Order

variable {α : Type} [LinearOrder α]

/-- No interval of `S` that starts at or below `c` ends above `c`. -/
def Closed (S : Set (α × α)) (c : α) : Prop := ∀ p ∈ S, p.1 ≤ c → p.2 ≤ c

/-- `x` lies in some interval `[p.1, p.2)` of `S`. -/
def Covered (S : Set (α × α)) (x : α) : Prop := ∃ p ∈ S, p.1 ≤ x ∧ x < p.2

/-- `c` is the reach of `c₀` over `S`: the least closed point at or above `c₀`. -/
def IsReach (S : Set (α × α)) (c₀ c : α) : Prop := IsLeast {c' | c₀ ≤ c' ∧ Closed S c'} c

variable {S : Set (α × α)} {c₀ c : α}

/-- A closed point above `c₀` all of whose points from `c₀` on are covered is
the reach: a smaller closed point would lie inside a covering interval that
crosses it. -/
theorem isReach_of_covered (hle : c₀ ≤ c) (hc : Closed S c)
    (hcov : ∀ x, c₀ ≤ x → x < c → Covered S x) : IsReach S c₀ c := by
  refine ⟨⟨hle, hc⟩, ?_⟩
  rintro c' ⟨hle', hc'⟩
  by_contra hlt
  obtain ⟨p, hp, hlo, hhi⟩ := hcov c' hle' (lt_of_not_ge hlt)
  exact absurd (hc' p hp hlo) (not_le.mpr hhi)

theorem IsReach.unique {c' : α} (h : IsReach S c₀ c) (h' : IsReach S c₀ c') : c = c' :=
  IsLeast.unique h h'

end ElasticStream.Order
