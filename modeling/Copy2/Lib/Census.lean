import Mathlib.Algebra.BigOperators.Group.Finset.Basic
import Mathlib.Algebra.Order.BigOperators.Group.Finset
import Mathlib.Tactic

/-! # What all threads together hold

Each place of a program has a weight. The weights of the places of all threads add up to a
census, which changes by what one thread changes when that thread moves. -/
namespace Copy2.Lib

variable {τ σ : Type*} [Fintype τ]

def census (weight : σ → ℤ) (place : τ → σ) : ℤ := ∑ t, weight (place t)

variable {weight : σ → ℤ} {place : τ → σ}

theorem census_const_zero (h : ∀ t, weight (place t) = 0) : census weight place = 0 :=
  Finset.sum_eq_zero fun t _ => h t

theorem census_nonneg (h : ∀ c, 0 ≤ weight c) : 0 ≤ census weight place :=
  Finset.sum_nonneg fun t _ => h (place t)

/-- One thread is a part of all. -/
theorem le_census (h : ∀ c, 0 ≤ weight c) (t : τ) : weight (place t) ≤ census weight place :=
  Finset.single_le_sum (f := fun t => weight (place t)) (fun t _ => h (place t))
    (Finset.mem_univ t)

/-- Somebody has what all together have. -/
theorem exists_of_census_pos (h : 0 < census weight place) : ∃ t, 0 < weight (place t) := by
  by_contra hno
  push Not at hno
  exact absurd h (not_lt.mpr (Finset.sum_nonpos fun t _ => hno t))

variable [DecidableEq τ]

theorem census_update (t : τ) (c : σ) : census weight (Function.update place t c) =
    census weight place + (weight c - weight (place t)) := by
  have hsplit := Finset.sum_erase_add Finset.univ (fun x => weight (place x)) (Finset.mem_univ t)
  have hsplit' := Finset.sum_erase_add Finset.univ
    (fun x => weight (Function.update place t c x)) (Finset.mem_univ t)
  have hrest : ∑ x ∈ Finset.univ.erase t, weight (Function.update place t c x) =
      ∑ x ∈ Finset.univ.erase t, weight (place x) :=
    Finset.sum_congr rfl fun x hx => by rw [Function.update_of_ne (Finset.ne_of_mem_erase hx)]
  rw [hrest] at hsplit'
  simp only [Function.update_self] at hsplit'
  rw [census, census]
  omega

end Copy2.Lib
