import Copy2.Memory.Buddy
import Mathlib.Data.Nat.Log
import Mathlib.Data.Nat.Size

/-! # Powers of two in words of 64 bits

The highest bit is found by shifting, the lowest one in a table of remainders. -/
namespace Copy2.Memory

variable {value k v w r : ℕ}

theorem size_shiftRight (h : 2 ^ k - 1 ≤ v) : Nat.size v = k + Nat.size (v >>> k) := by
  rw [Nat.shiftRight_eq_div_pow]
  have hpos := Nat.two_pow_pos k
  refine le_antisymm ?_ ?_
  · rw [Nat.size_le, pow_add]
    have := Nat.lt_size_self (v / 2 ^ k)
    calc v < 2 ^ k * (v / 2 ^ k + 1) := Nat.lt_mul_div_succ v hpos
      _ ≤ 2 ^ k * 2 ^ Nat.size (v / 2 ^ k) := Nat.mul_le_mul_left _ this
  · rcases Nat.eq_zero_or_pos (v / 2 ^ k) with hz | hpos'
    · rw [hz, Nat.size_zero, Nat.add_zero]
      cases k with
      | zero => exact Nat.zero_le _
      | succ k =>
        have hk := Nat.two_pow_pos k
        rw [Nat.succ_le_iff, Nat.lt_size]
        rw [pow_succ] at h
        omega
    · obtain ⟨m, hm⟩ : ∃ m, Nat.size (v / 2 ^ k) = m + 1 :=
        Nat.exists_eq_succ_of_ne_zero (by rw [ne_eq, Nat.size_eq_zero]; omega)
      have hle : 2 ^ m ≤ v / 2 ^ k := Nat.lt_size.mp (by omega)
      rw [hm, ← add_assoc, Nat.succ_le_iff, Nat.lt_size, pow_add, mul_comm]
      exact (Nat.le_div_iff_mul_le hpos).mp hle

def shiftStep (r : ℕ × ℕ) (step : ℕ × ℕ) : ℕ × ℕ :=
  if step.1 ≤ r.2 then (r.1 + step.2, r.2 >>> step.2) else r

theorem shiftStep_size {L : List (ℕ × ℕ)} (h : ∀ s ∈ L, 2 ^ s.2 - 1 ≤ s.1) (r : ℕ × ℕ) :
    (L.foldl shiftStep r).1 + Nat.size (L.foldl shiftStep r).2 = r.1 + Nat.size r.2 := by
  induction L generalizing r with
  | nil => rfl
  | cons s L ih =>
    rw [List.foldl_cons, ih (fun s hs => h s (List.mem_cons_of_mem _ hs)), shiftStep]
    split
    · next hle =>
      rw [size_shiftRight ((h s (by simp)).trans hle), ← add_assoc]
    · rfl

theorem shiftStep_le {L : List (ℕ × ℕ)} {b : ℕ} {r : ℕ × ℕ} (h : r.2 ≤ b) :
    (L.foldl shiftStep r).2 ≤ L.foldl (fun b s => max (s.1 - 1) (b >>> s.2)) b := by
  induction L generalizing r b with
  | nil => exact h
  | cons s L ih =>
    refine ih ?_
    rw [shiftStep]
    split
    · refine le_max_of_le_right ?_
      rw [Nat.shiftRight_eq_div_pow, Nat.shiftRight_eq_div_pow]
      exact Nat.div_le_div_right h
    · exact le_max_of_le_left (by omega)

theorem highestBitPosition_fold (value : ℕ) : highestBitPosition value =
    (allSet.foldl shiftStep (0, value)).1 + (allSet.foldl shiftStep (0, value)).2 := rfl

theorem shiftStep_bound :
    allSet.foldl (fun b s => max (s.1 - 1) (b >>> s.2)) (2 ^ 64 - 1) = 1 := by
  decide +kernel

theorem highestBitPosition_eq (h : value < 2 ^ 64) : highestBitPosition value = Nat.size value := by
  have hsize := shiftStep_size (L := allSet) (by decide) (0, value)
  have hle := shiftStep_le (L := allSet) (r := (0, value)) (b := 2 ^ 64 - 1)
    (show value ≤ 2 ^ 64 - 1 by omega)
  rw [shiftStep_bound] at hle
  rw [highestBitPosition_fold]
  generalize allSet.foldl shiftStep (0, value) = r at hsize hle ⊢
  rw [Nat.zero_add] at hsize
  rw [← hsize]
  congr 1
  rcases Nat.le_one_iff_eq_zero_or_eq_one.mp hle with hz | hone
  · rw [hz, Nat.size_zero]
  · rw [hone, Nat.size_one]

theorem size_sub_one (h : 0 < v) : Nat.size (v + v - 1) = Nat.clog 2 v + 1 := by
  refine le_antisymm ?_ ?_
  · rw [Nat.size_le, pow_succ]
    have := Nat.le_pow_clog one_lt_two v
    omega
  · rw [Nat.succ_le_iff, Nat.lt_size]
    rcases Nat.eq_zero_or_pos (Nat.clog 2 v) with hz | hpos
    · rw [hz]
      omega
    · obtain ⟨m, hm⟩ := Nat.exists_eq_succ_of_ne_zero hpos.ne'
      have hlt : 2 ^ m < v := (Nat.lt_clog_iff_pow_lt one_lt_two).mp (by omega)
      rw [hm, pow_succ]
      omega

theorem ceilingPowerOfTwo_eq (h : 0 < v) (hle : v ≤ 2 ^ 63) :
    ceilingPowerOfTwo v = 2 ^ Nat.clog 2 v := by
  have hv : (v + v + (2 ^ 64 - 1)) % 2 ^ 64 = v + v - 1 := by omega
  rw [ceilingPowerOfTwo, if_neg (by omega)]
  simp only [hv]
  rw [highestBitPosition_eq (by omega), size_sub_one h, Nat.add_sub_cancel]

/-- A size that is a power of two is one that is its own next power of two. -/
theorem isValidAlignment_pow (h : isValidAlignment v = true) (hle : v ≤ 2 ^ 63) :
    v = 2 ^ Nat.clog 2 v := by
  have hv : 0 < v := by
    rcases Nat.eq_zero_or_pos v with rfl | hpos
    · exact absurd h (by decide)
    · exact hpos
  rw [isValidAlignment, beq_iff_eq, ceilingPowerOfTwo_eq hv hle] at h
  exact h.symm

theorem clog_mul_pow (h : 0 < v) : Nat.clog 2 (2 ^ k * v) = k + Nat.clog 2 v := by
  refine eq_of_forall_ge_iff fun m => ?_
  rw [Nat.clog_le_iff_le_pow one_lt_two]
  rcases Nat.lt_or_ge m k with hmk | hmk
  · have hpow : 2 ^ m < 2 ^ k := Nat.pow_lt_pow_right one_lt_two hmk
    have : 2 ^ k ≤ 2 ^ k * v := Nat.le_mul_of_pos_right _ h
    exact ⟨fun _ => by omega, fun _ => by omega⟩
  · obtain ⟨j, rfl⟩ := Nat.exists_eq_add_of_le hmk
    rw [pow_add, Nat.mul_le_mul_left_iff (Nat.two_pow_pos k), Nat.add_le_add_iff_left,
      Nat.clog_le_iff_le_pow one_lt_two]

/-- The table of `count_trailing_zeroes`, by remainders of powers of two; −1 is 255 there. -/
def lookup67 : List ℕ :=
  [64, 0, 1, 39, 2, 15, 40, 23, 3, 12, 16, 59, 41, 19, 24, 54, 4, 255, 13, 10, 17, 62, 60, 28,
   42, 30, 20, 51, 25, 44, 55, 47, 5, 32, 255, 38, 14, 22, 11, 58, 18, 53, 63, 9, 61, 27, 29, 50,
   43, 46, 31, 37, 21, 57, 52, 8, 26, 49, 45, 36, 56, 7, 48, 35, 6, 34, 33, 255]

def countTrailingZeroes (val : ℕ) : ℕ :=
  lookup67.getD ((val &&& (2 ^ 64 - val) % 2 ^ 64) % 67) 255

theorem countTrailingZeroes_table : ∀ k : Fin 64, countTrailingZeroes (2 ^ k.val) = k := by
  decide +kernel

theorem countTrailingZeroes_pow (h : k < 64) : countTrailingZeroes (2 ^ k) = k :=
  countTrailingZeroes_table ⟨k, h⟩

end Copy2.Memory
