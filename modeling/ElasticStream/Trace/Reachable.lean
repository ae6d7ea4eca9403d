import Mathlib

/-! # Reachable states of a transition system

A system is a step relation on its states and a predicate on its initial
states. What holds initially and is preserved by every step holds in every
reachable state. -/

namespace ElasticStream.Trace

variable {σ : Type}

/-- `s` is reached from an initial state by finitely many steps. -/
def Reachable (step : σ → σ → Prop) (init : σ → Prop) (s : σ) : Prop :=
  ∃ s₀, init s₀ ∧ Relation.ReflTransGen step s₀ s

variable {step : σ → σ → Prop} {init : σ → Prop}

theorem Reachable.of_init {s : σ} (h : init s) : Reachable step init s := ⟨s, h, .refl⟩

theorem Reachable.tail {s s' : σ} (h : Reachable step init s) (hs : step s s') :
    Reachable step init s' :=
  let ⟨s₀, h₀, hr⟩ := h
  ⟨s₀, h₀, hr.tail hs⟩

/-- **Invariant rule.** -/
theorem Reachable.invariant (Inv : σ → Prop) (h₀ : ∀ s, init s → Inv s)
    (hstep : ∀ s s', Inv s → step s s' → Inv s') {s : σ} (h : Reachable step init s) : Inv s := by
  obtain ⟨s₀, hi, hr⟩ := h
  induction hr with
  | refl => exact h₀ _ hi
  | tail _ hs ih => exact hstep _ _ ih hs

end ElasticStream.Trace
