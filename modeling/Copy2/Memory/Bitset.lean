import Mathlib.Algebra.BigOperators.Intervals
import Mathlib.Tactic

/-! # The bits of a buddy allocator

A bitset is kept in bytes. Ranges are set, cleared and counted a byte at a time, with masks
for the first and the last one. -/
namespace Copy2.Memory

abbrev Bitset := ℕ → BitVec 8

def bitsetIndexMask : List (BitVec 8) := [1, 2, 4, 8, 16, 32, 64, 128]

def bitsetCharMask : List (List (BitVec 8)) :=
  [[1, 3, 7, 15, 31, 63, 127, 255],
   [0, 2, 6, 14, 30, 62, 126, 254],
   [0, 0, 4, 12, 28, 60, 124, 252],
   [0, 0, 0, 8, 24, 56, 120, 248],
   [0, 0, 0, 0, 16, 48, 112, 240],
   [0, 0, 0, 0, 0, 32, 96, 224],
   [0, 0, 0, 0, 0, 0, 64, 192],
   [0, 0, 0, 0, 0, 0, 0, 128]]

def popcountLookup : List ℕ :=
  [0, 1, 1, 2, 1, 2, 2, 3, 1, 2, 2, 3, 2, 3, 3, 4, 1, 2, 2, 3, 2, 3, 3, 4, 2, 3, 3, 4, 3, 4, 4, 5,
   1, 2, 2, 3, 2, 3, 3, 4, 2, 3, 3, 4, 3, 4, 4, 5, 2, 3, 3, 4, 3, 4, 4, 5, 3, 4, 4, 5, 4, 5, 5, 6,
   1, 2, 2, 3, 2, 3, 3, 4, 2, 3, 3, 4, 3, 4, 4, 5, 2, 3, 3, 4, 3, 4, 4, 5, 3, 4, 4, 5, 4, 5, 5, 6,
   2, 3, 3, 4, 3, 4, 4, 5, 3, 4, 4, 5, 4, 5, 5, 6, 3, 4, 4, 5, 4, 5, 5, 6, 4, 5, 5, 6, 5, 6, 6, 7,
   1, 2, 2, 3, 2, 3, 3, 4, 2, 3, 3, 4, 3, 4, 4, 5, 2, 3, 3, 4, 3, 4, 4, 5, 3, 4, 4, 5, 4, 5, 5, 6,
   2, 3, 3, 4, 3, 4, 4, 5, 3, 4, 4, 5, 4, 5, 5, 6, 3, 4, 4, 5, 4, 5, 5, 6, 4, 5, 5, 6, 5, 6, 6, 7,
   2, 3, 3, 4, 3, 4, 4, 5, 3, 4, 4, 5, 4, 5, 5, 6, 3, 4, 4, 5, 4, 5, 5, 6, 4, 5, 5, 6, 5, 6, 6, 7,
   3, 4, 4, 5, 4, 5, 5, 6, 4, 5, 5, 6, 5, 6, 6, 7, 4, 5, 5, 6, 5, 6, 6, 7, 5, 6, 6, 7, 6, 7, 7, 8]

def popcountByte (b : BitVec 8) : ℕ := popcountLookup.getD b.toNat 0

structure BitsetRange where
  fromBucket : ℕ
  toBucket : ℕ
  fromIndex : ℕ
  toIndex : ℕ

def toBitsetRange (fromPos toPos : ℕ) : BitsetRange :=
  { fromBucket := fromPos / 8, toBucket := toPos / 8
    fromIndex := fromPos % 8, toIndex := toPos % 8 }

def charMask (i j : ℕ) : BitVec 8 := (bitsetCharMask.getD i []).getD j 0

namespace Bitset
variable (b : Bitset)

def test (pos : ℕ) : Bool := b (pos / 8) &&& bitsetIndexMask.getD (pos % 8) 0 != 0

def memset (value : BitVec 8) (start count : ℕ) : Bitset := fun k =>
  if start ≤ k ∧ k < start + count then value else b k

/-- A mask is written over the first and the last byte, and the bytes between are filled. -/
def updateRange (write : BitVec 8 → BitVec 8 → BitVec 8) (fill : BitVec 8)
    (range : BitsetRange) : Bitset :=
  if range.fromBucket = range.toBucket then
    Function.update b range.fromBucket
      (write (b range.fromBucket) (charMask range.fromIndex range.toIndex))
  else
    let b := Function.update b range.fromBucket
      (write (b range.fromBucket) (charMask range.fromIndex 7))
    let b := Function.update b range.toBucket
      (write (b range.toBucket) (charMask 0 range.toIndex))
    memset b fill (range.fromBucket + 1) (range.toBucket - (range.fromBucket + 1))

def setRange : BitsetRange → Bitset := updateRange b (fun byte mask => byte ||| mask) 255

def clearRange : BitsetRange → Bitset := updateRange b (fun byte mask => byte &&& ~~~mask) 0

/-- The loop over the bytes between the first and the last one. -/
def countBuckets : (n bucket result : ℕ) → ℕ
  | 0, _, result => result
  | n + 1, bucket, result => countBuckets n (bucket + 1) (result + popcountByte (b bucket))

def countRange (range : BitsetRange) : ℕ :=
  if range.fromBucket = range.toBucket then
    popcountByte (b range.fromBucket &&& charMask range.fromIndex range.toIndex)
  else
    countBuckets b (range.toBucket - range.fromBucket - 1) (range.fromBucket + 1)
      (popcountByte (b range.fromBucket &&& charMask range.fromIndex 7) +
        popcountByte (b range.toBucket &&& charMask 0 range.toIndex))

def bit (pos : ℕ) : Bool := (b (pos / 8)).getLsbD (pos % 8)

end Bitset

theorem charMask_bit : ∀ i j k : Fin 8, (charMask i j).getLsbD k = decide (i ≤ k ∧ k ≤ j) := by
  decide +kernel

theorem charMask_getLsbD {i j k : ℕ} (hi : i < 8) (hj : j < 8) (hk : k < 8) :
    (charMask i j).getLsbD k = decide (i ≤ k ∧ k ≤ j) :=
  charMask_bit ⟨i, hi⟩ ⟨j, hj⟩ ⟨k, hk⟩

theorem popcountByte_table : ∀ b : Fin 256,
    popcountLookup.getD b 0 = ∑ k ∈ Finset.range 8, (b.val.testBit k).toNat := by
  decide +kernel

theorem popcountByte_eq (b : BitVec 8) :
    popcountByte b = ∑ k ∈ Finset.range 8, (b.getLsbD k).toNat :=
  popcountByte_table b.toFin

theorem indexMask_bit : ∀ i : Fin 8, ∀ b : Fin 256,
    (BitVec.ofFin (w := 8) b &&& bitsetIndexMask.getD i 0 != 0) =
      (BitVec.ofFin (w := 8) b).getLsbD i := by
  decide +kernel

namespace Bitset
variable {b : Bitset} {pos k lo hi : ℕ}

theorem test_eq : b.test pos = b.bit pos :=
  indexMask_bit ⟨pos % 8, Nat.mod_lt _ (by decide)⟩ (b (pos / 8)).toFin

/-- The bits of a range that lie in one byte. -/
def byteMask (range : BitsetRange) (k : ℕ) : BitVec 8 :=
  if k = range.fromBucket then
    charMask range.fromIndex (if range.fromBucket = range.toBucket then range.toIndex else 7)
  else if k = range.toBucket then charMask 0 range.toIndex
  else if range.fromBucket < k ∧ k < range.toBucket then 255 else 0

theorem byteMask_bit (hle : lo ≤ hi) (i : Fin 8) :
    (byteMask (toBitsetRange lo hi) k).getLsbD i = decide (lo ≤ 8 * k + i ∧ 8 * k + i ≤ hi) := by
  have hlo : lo % 8 < 8 := Nat.mod_lt _ (by decide)
  have hhi : hi % 8 < 8 := Nat.mod_lt _ (by decide)
  rw [byteMask]
  by_cases hf : k = (toBitsetRange lo hi).fromBucket
  · have hk : k = lo / 8 := hf
    rw [if_pos hf]
    by_cases hsame : (toBitsetRange lo hi).fromBucket = (toBitsetRange lo hi).toBucket
    · have heq : lo / 8 = hi / 8 := hsame
      rw [if_pos hsame]
      exact (charMask_getLsbD hlo hhi i.isLt).trans (decide_eq_decide.mpr (by omega))
    · have hne : lo / 8 ≠ hi / 8 := hsame
      rw [if_neg hsame]
      exact (charMask_getLsbD hlo (by decide) i.isLt).trans (decide_eq_decide.mpr (by omega))
  · have hk : k ≠ lo / 8 := hf
    rw [if_neg hf]
    by_cases ht : k = (toBitsetRange lo hi).toBucket
    · have hkt : k = hi / 8 := ht
      rw [if_pos ht]
      exact (charMask_getLsbD (by decide) hhi i.isLt).trans (decide_eq_decide.mpr (by omega))
    · have hkt : k ≠ hi / 8 := ht
      rw [if_neg ht]
      by_cases hin : (toBitsetRange lo hi).fromBucket < k ∧ k < (toBitsetRange lo hi).toBucket
      · have hin' : lo / 8 < k ∧ k < hi / 8 := hin
        have hones : ∀ j : Fin 8, (255 : BitVec 8).getLsbD j = true := by decide
        rw [if_pos hin, hones i]
        exact (decide_eq_true (by omega)).symm
      · have hin' : ¬ (lo / 8 < k ∧ k < hi / 8) := hin
        rw [if_neg hin, BitVec.ofNat_eq_ofNat, BitVec.getLsbD_zero]
        exact (decide_eq_false (by omega)).symm

theorem updateRange_byte {write : BitVec 8 → BitVec 8 → BitVec 8} {fill : BitVec 8}
    {range : BitsetRange} (hle : range.fromBucket ≤ range.toBucket)
    (hfull : ∀ x, write x 255 = fill) (hnone : ∀ x, write x 0 = x) :
    b.updateRange write fill range k = write (b k) (byteMask range k) := by
  rw [updateRange, byteMask]
  by_cases hsame : range.fromBucket = range.toBucket
  · rw [if_pos hsame, if_pos hsame]
    by_cases hf : k = range.fromBucket
    · rw [if_pos hf, hf, Function.update_self]
    · rw [if_neg hf, if_neg (hsame ▸ hf), if_neg (by omega), hnone, Function.update_of_ne hf]
  · rw [if_neg hsame, if_neg hsame]
    show (if _ then _ else _) = _
    by_cases hf : k = range.fromBucket
    · rw [if_pos hf, if_neg (by omega), hf, Function.update_of_ne hsame, Function.update_self]
    · rw [if_neg hf]
      by_cases ht : k = range.toBucket
      · rw [if_pos ht, if_neg (by omega), ht, Function.update_self,
          Function.update_of_ne (Ne.symm hsame)]
      · rw [if_neg ht]
        by_cases hin : range.fromBucket < k ∧ k < range.toBucket
        · rw [if_pos hin, if_pos (by omega), hfull]
        · rw [if_neg hin, if_neg (by omega), hnone, Function.update_of_ne ht,
            Function.update_of_ne hf]

theorem bit_setRange (hle : lo ≤ hi) :
    (b.setRange (toBitsetRange lo hi)).bit k = (b.bit k || decide (lo ≤ k ∧ k ≤ hi)) := by
  have hmask := byteMask_bit (k := k / 8) hle ⟨k % 8, Nat.mod_lt _ (by decide)⟩
  rw [bit, setRange, updateRange_byte (Nat.div_le_div_right hle) (by decide +kernel) (by simp),
    BitVec.getLsbD_or, hmask]
  simp only [Nat.div_add_mod]
  rfl

theorem bit_clearRange (hle : lo ≤ hi) :
    (b.clearRange (toBitsetRange lo hi)).bit k = (b.bit k && !decide (lo ≤ k ∧ k ≤ hi)) := by
  have hmask := byteMask_bit (k := k / 8) hle ⟨k % 8, Nat.mod_lt _ (by decide)⟩
  rw [bit, clearRange, updateRange_byte (Nat.div_le_div_right hle) (by simp) (by decide +kernel),
    BitVec.getLsbD_and, BitVec.getLsbD_not, hmask]
  simp only [Nat.div_add_mod, Nat.mod_lt k (show 0 < 8 by decide), decide_true, Bool.true_and]
  rfl

theorem countBuckets_eq {n bucket result : ℕ} : b.countBuckets n bucket result =
    result + ∑ i ∈ Finset.range n, popcountByte (b (bucket + i)) := by
  induction n generalizing bucket result with
  | zero => rfl
  | succ n ih =>
    rw [countBuckets, ih, Finset.sum_range_succ', Nat.add_zero, add_assoc]
    congr 1
    rw [add_comm]
    congr 1
    exact Finset.sum_congr rfl fun i _ => by rw [add_right_comm, add_assoc]

theorem sum_bytes {n : ℕ} {g : ℕ → ℕ} : ∑ k ∈ Finset.range n, ∑ i ∈ Finset.range 8, g (8 * k + i) =
    ∑ k ∈ Finset.range (8 * n), g k := by
  induction n with
  | zero => rfl
  | succ n ih => rw [Finset.sum_range_succ, ih, Nat.mul_succ, Finset.sum_range_add]

theorem popcount_masked (hle : lo ≤ hi) :
    popcountByte (b k &&& byteMask (toBitsetRange lo hi) k) =
      ∑ i ∈ Finset.range 8,
        (b.bit (8 * k + i) && decide (lo ≤ 8 * k + i ∧ 8 * k + i ≤ hi)).toNat := by
  rw [popcountByte_eq]
  refine Finset.sum_congr rfl fun i hi => ?_
  have hi := Finset.mem_range.mp hi
  have hmask := byteMask_bit (k := k) hle ⟨i, hi⟩
  rw [BitVec.getLsbD_and, hmask, bit, Nat.mul_add_div (by decide), Nat.div_eq_of_lt hi,
    Nat.mul_add_mod, Nat.mod_eq_of_lt hi, Nat.add_zero]

/-- The bytes of a range hold the bits of a range. -/
theorem countRange_bytes {range : BitsetRange} (hle : range.fromBucket ≤ range.toBucket) :
    b.countRange range =
      ∑ k ∈ Finset.range (range.toBucket + 1), popcountByte (b k &&& byteMask range k) := by
  have hzero : popcountByte 0#8 = 0 := rfl
  have hbefore : ∑ k ∈ Finset.range range.fromBucket, popcountByte (b k &&& byteMask range k) = 0 := by
    refine Finset.sum_eq_zero fun k hk => ?_
    have hk := Finset.mem_range.mp hk
    rw [byteMask, if_neg (by omega), if_neg (by omega), if_neg (by omega)]
    simp [hzero]
  obtain ⟨n, hn⟩ := Nat.exists_eq_add_of_le hle
  rw [countRange, hn, add_assoc, Finset.sum_range_add, hbefore, Nat.zero_add]
  cases n with
  | zero =>
    have hsame : range.fromBucket = range.toBucket := by omega
    simp [byteMask, hsame]
  | succ n =>
    have hne : range.fromBucket ≠ range.toBucket := by omega
    rw [if_neg (by omega), countBuckets_eq, Finset.sum_range_succ, Finset.sum_range_succ']
    have hmid : ∀ i ∈ Finset.range n, popcountByte (b (range.fromBucket + (i + 1)) &&&
        byteMask range (range.fromBucket + (i + 1))) = popcountByte (b (range.fromBucket + 1 + i)) := by
      intro i hi
      have hi := Finset.mem_range.mp hi
      rw [byteMask, if_neg (by omega), if_neg (by omega), if_pos (by omega), add_right_comm, add_assoc]
      congr 1
      have hones : ∀ x : BitVec 8, x &&& 255 = x := by decide +kernel
      exact hones _
    rw [Finset.sum_congr rfl hmid, show range.fromBucket + (n + 1) - range.fromBucket - 1 = n by omega]
    rw [byteMask, if_pos (by omega), if_neg hne, byteMask, if_neg (by omega), if_pos (by omega)]
    simp only [Nat.add_zero]
    omega

/-- What is counted are the bits that are set between the two positions. -/
theorem countRange_eq (hle : lo ≤ hi) : b.countRange (toBitsetRange lo hi) =
    ∑ k ∈ Finset.Icc lo hi, (b.bit k).toNat := by
  rw [countRange_bytes (Nat.div_le_div_right hle)]
  rw [Finset.sum_congr rfl fun k _ => popcount_masked hle,
    sum_bytes (g := fun k => (b.bit k && decide (lo ≤ k ∧ k ≤ hi)).toNat)]
  have hsub : Finset.Icc lo hi ⊆ Finset.range (8 * ((toBitsetRange lo hi).toBucket + 1)) := by
    intro k hk
    have hk := (Finset.mem_Icc.mp hk).2
    have hb : (toBitsetRange lo hi).toBucket = hi / 8 := rfl
    rw [Finset.mem_range, hb]
    omega
  rw [← Finset.sum_subset hsub]
  · refine Finset.sum_congr rfl fun k hk => ?_
    rw [decide_eq_true (Finset.mem_Icc.mp hk), Bool.and_true]
  · intro k _ hk
    rw [Finset.mem_Icc] at hk
    simp [hk]

end Bitset
end Copy2.Memory
