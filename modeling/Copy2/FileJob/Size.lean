import Mathlib.Tactic
import Mathlib.Data.Nat.Log

/-! # Sizes of files, blocks and staging buffers

`size_t` values are natural numbers; a product, a sum or a mask that can leave the
64-bit range is reduced explicitly, and so is a `size_t` stored in an `int`. -/
namespace Copy2.FileJob

def directIoAlign : ℕ := 4096

/-- `std::bit_ceil`: the least power of two that is not below the argument. -/
def bitCeil (n : ℕ) : ℕ := 2 ^ Nat.clog 2 n

def blockSize (fsize _fsBlockSize minBlockSize maxBlockSize : ℕ) : ℕ :=
  max minBlockSize (min maxBlockSize (bitCeil (fsize / 2)))

def blockCount (fsize blockSize : ℕ) : ℕ :=
  if blockSize = 0 then 0
  else fsize / blockSize + (if 0 < fsize % blockSize then 1 else 0)

/-- `(n + align - 1) & ~(align - 1)` on `size_t`. -/
def alignUp (n align : ℕ) : ℕ := (n + align - 1) % 2 ^ 64 &&& (2 ^ 64 - (align - 1 + 1))

/-- A `size_t` or a `long` stored in a 32-bit `int`. -/
def toInt (n : ℤ) : ℤ := Int.bmod n (2 ^ 32)

/-- `size_t * int`: the `int` is converted to `size_t` before the product. -/
def mulInt (n : ℕ) (k : ℤ) : ℕ := ((n : ℤ) * k % 2 ^ 64).toNat

theorem toInt_natCast {n : ℕ} (h : n < 2 ^ 31) : toInt n = n := by
  have h' : n < 2147483648 := h
  exact Int.bmod_eq_of_le (by norm_num) (by norm_num; omega)

theorem mulInt_natCast {n k : ℕ} (h : n * k < 2 ^ 64) : mulInt n k = n * k := by
  rw [mulInt, ← Nat.cast_mul, Int.emod_eq_of_lt (by positivity) (by exact_mod_cast h)]
  exact Int.toNat_natCast _

theorem mulInt_toInt {n k : ℕ} (hk : k < 2 ^ 31) (h : n * k < 2 ^ 64) :
    mulInt n (toInt k) = n * k := by
  rw [toInt_natCast hk, mulInt_natCast h]

/-- A block number is in range exactly if the block starts inside the file. -/
theorem lt_blockCount_iff {size bs n : ℕ} (hbs : 0 < bs) :
    n < blockCount size bs ↔ bs * n < size := by
  have hdiv := Nat.div_add_mod size bs
  have hmod := Nat.mod_lt size hbs
  rw [blockCount, if_neg hbs.ne']
  constructor
  · intro h
    rcases Nat.lt_or_ge n (size / bs) with hn | hn
    · have := Nat.mul_le_mul_left bs hn
      rw [Nat.mul_succ] at this
      omega
    · split at h
      · obtain rfl : n = size / bs := by omega
        omega
      · omega
  · intro h
    rcases Nat.lt_or_ge n (size / bs) with hn | hn
    · omega
    · have := Nat.mul_le_mul_left bs hn
      rcases Nat.eq_or_lt_of_le hn with heq | hlt
      · subst heq
        rw [if_pos (by omega)]
        omega
      · have := Nat.mul_le_mul_left bs hlt
        rw [Nat.mul_succ] at this
        omega

/-- The product of the block size and any block number up to the count stays a `size_t`. -/
theorem mul_lt_of_le_blockCount {size bs n : ℕ} (hbs : 0 < bs) (hb : bs < 2 ^ 64)
    (hsize : size < 2 ^ 63) (hn : n ≤ blockCount size bs) : bs * n < 2 ^ 64 := by
  rcases n with _ | m
  · simp
  · have hm := (lt_blockCount_iff hbs).mp hn
    rcases m with _ | k
    · simpa using hb
    · have : bs ≤ bs * (k + 1) := Nat.le_mul_of_pos_right _ (by omega)
      rw [Nat.mul_succ]
      omega

/-- Below the wrap-around the mask rounds up to the next multiple of the alignment. -/
theorem alignUp_directIoAlign {n : ℕ} (h : n + 4095 < 2 ^ 64) :
    alignUp n directIoAlign = (n + 4095) / 4096 * 4096 := by
  have hmod : (n + 4096 - 1) % 2 ^ 64 = n + 4095 := by omega
  rw [alignUp, directIoAlign, hmod]
  apply Nat.eq_of_testBit_eq
  intro i
  have hmask : (2 ^ 64 - (4096 - 1 + 1)).testBit i = (decide (i < 64) && !(4095 : ℕ).testBit i) :=
    Nat.testBit_two_pow_sub_succ (by norm_num) i
  have hlow : (4095 : ℕ).testBit i = decide (i < 12) := by
    have := Nat.testBit_two_pow_sub_one 12 i
    simpa using this
  have hhigh : ((n + 4095) / 4096 * 4096).testBit i =
      (decide (12 ≤ i) && (n + 4095).testBit i) := by
    have hshift : (n + 4095) / 4096 * 4096 = (n + 4095) / 2 ^ 12 * 2 ^ 12 := by norm_num
    rw [hshift, Nat.testBit_mul_two_pow, Nat.testBit_div_two_pow]
    by_cases hi : 12 ≤ i
    · simp [hi]
    · simp [hi]
  rw [Nat.testBit_and, hmask, hlow, hhigh]
  by_cases hi : i < 64
  · by_cases h12 : i < 12
    · simp [h12, Nat.not_le.mpr h12]
    · simp [h12, hi, Nat.le_of_not_lt h12]
  · have hbit : (n + 4095).testBit i = false :=
      Nat.testBit_lt_two_pow (h.trans_le (Nat.pow_le_pow_right (by norm_num) (by omega)))
    simp [hbit]

theorem le_alignUp {n : ℕ} (h : n + 4095 < 2 ^ 64) : n ≤ alignUp n directIoAlign := by
  rw [alignUp_directIoAlign h]
  omega

/-- A length that fits in a block whose size is a multiple of the alignment still
fits after it has been padded. -/
theorem alignUp_le_of_dvd {n bs : ℕ} (h : n + 4095 < 2 ^ 64) (hn : n ≤ bs)
    (hdvd : directIoAlign ∣ bs) : alignUp n directIoAlign ≤ bs := by
  rw [alignUp_directIoAlign h]
  obtain ⟨k, rfl⟩ := hdvd
  rw [directIoAlign] at *
  omega

end Copy2.FileJob
