import Mathlib.Tactic

/-! # Progressions in a wrapping address space

Addresses wrap at `T`, and only those below `U` are in use, at most a quarter of all. -/
namespace Copy2.Lib

variable {a s n U T : ℕ}

/-- A small step that stays in use has not wrapped. -/
theorem progression_eq_of_small (hU : 4 * U ≤ T) (hs : s < U)
    (hlt : ∀ i < n, (a + i * s) % T < U) {i : ℕ} (hi : i < n) :
    (a + i * s) % T = a % T + i * s := by
  induction i with
  | zero => simp
  | succ i ih =>
    have hi' : i < n := by omega
    have hlast := hlt i hi'
    rw [ih hi'] at hlast
    have hmul : (i + 1) * s < T := by rw [Nat.succ_mul]; omega
    have hsum : a % T + (i + 1) * s < T := by rw [Nat.succ_mul]; omega
    rw [Nat.add_mod, Nat.mod_eq_of_lt hmul, Nat.mod_eq_of_lt hsum]

/-- A step just below `T` goes downwards. -/
theorem progression_eq_of_large (hU : 4 * U ≤ T) (hs : s < T) (hT : T - s < U)
    (hlt : ∀ i < n, (a + i * s) % T < U) {i : ℕ} (hi : i < n) :
    (a + i * s) % T + i * (T - s) = a % T := by
  induction i with
  | zero => simp
  | succ i ih =>
    have hi' : i < n := by omega
    have hnext := hlt (i + 1) hi
    have hstep : a + (i + 1) * s = a + i * s + s := by rw [Nat.succ_mul]; omega
    have heq := ih hi'
    have hlast := hlt i hi'
    rw [hstep, Nat.add_mod, Nat.mod_eq_of_lt hs] at hnext ⊢
    rw [Nat.succ_mul]
    by_cases hwrap : (a + i * s) % T + s < T
    · rw [Nat.mod_eq_of_lt hwrap] at hnext
      omega
    · have hmod : ((a + i * s) % T + s) % T = (a + i * s) % T + s - T := by
        rw [Nat.mod_eq_sub_mod (by omega), Nat.mod_eq_of_lt (by omega)]
      omega

/-- If all of a progression is in use and its length comes out small, then the length itself
has not wrapped. -/
theorem mul_lt_of_progression (hU : 4 * U ≤ T) (hs : s < T)
    (hlt : ∀ i < n, (a + i * s) % T < U) (hprod : n * s % T < U) : n * s < T := by
  rcases n with - | n
  · omega
  have hlast := hlt n (by omega)
  have hfirst := hlt 0 (by omega)
  rw [Nat.zero_mul, Nat.add_zero] at hfirst
  by_cases hsmall : s < U
  · rw [progression_eq_of_small hU hsmall hlt (by omega)] at hlast
    rw [Nat.succ_mul]
    omega
  by_cases hlarge : T - s < U
  · have hdown := progression_eq_of_large hU hs hlarge hlt (show n < n + 1 by omega)
    -- `(n + 1) * s` is `(n + 1) * T` less a number below `2 * U`
    have hsum : (n + 1) * s + (n * (T - s) + (T - s)) = T * (n + 1) := by
      rw [← Nat.succ_mul, ← Nat.mul_add, Nat.add_sub_cancel' hs.le, Nat.mul_comm]
    have hsplit : (n + 1) * s = (T - (n * (T - s) + (T - s))) + T * n := by
      rw [Nat.mul_succ] at hsum
      omega
    rw [hsplit, Nat.add_mul_mod_self_left, Nat.mod_eq_of_lt (by omega)] at hprod
    omega
  · -- neither: two places of the progression cannot both be in use
    rcases n with - | n
    · omega
    have hsecond := hlt 1 (by omega)
    rw [Nat.one_mul, Nat.add_mod, Nat.mod_eq_of_lt hs, Nat.mod_eq_of_lt (by omega)] at hsecond
    omega

end Copy2.Lib
