import Copy2.FileJob.Size
import Copy2.Memory.Options

/-! # The blocks that a block size makes of a file

The offset of a block is a `size_t` product with a job number that has been stored in an
`int`. A block is started when this offset lies in the file. -/
namespace Copy2.FileJob
open Memory

def blockOffset (bs n : ℕ) : ℕ := mulInt bs (toInt n)

def blockBytes (fsize bs n : ℕ) : ℕ := min bs (fsize - blockOffset bs n)

def writeBytes (fsize bs n : ℕ) : ℕ := alignUp (blockBytes fsize bs n) directIoAlign

/-- The scheduler starts the block. It counts up the numbers of the blocks that it starts, so
all up to this one lie in the file. -/
def Started (fsize bs n : ℕ) : Prop := n < blockCount fsize bs ∧ ∀ k ≤ n, blockOffset bs k < fsize

theorem blockOffset_of_lt {fsize bs n : ℕ} (hfile : bs * n < fsize) (hsize : fsize < 2 ^ 63)
    (hn : n < 2 ^ 31) : blockOffset bs n = bs * n :=
  mulInt_toInt hn (by omega)

/-- The first number that an `int` cannot hold gives an offset past every file. -/
theorem blockOffset_two_pow {fsize bs : ℕ} (hbs : 0 < bs) (hfile : bs * 2 ^ 31 < fsize)
    (hsize : fsize < 2 ^ 63) : fsize ≤ blockOffset bs (2 ^ 31) := by
  have hint : toInt ((2 ^ 31 : ℕ) : ℤ) = -2 ^ 31 := by decide
  have hprod : (bs : ℤ) * -2 ^ 31 = -((bs * 2 ^ 31 : ℕ) : ℤ) := by
    rw [Nat.cast_mul]
    ring
  rw [blockOffset, hint, mulInt, hprod]
  have hpos : 0 < bs * 2 ^ 31 := Nat.mul_pos hbs (by norm_num)
  generalize bs * 2 ^ 31 = c at *
  omega

/-- The scheduler never comes to a number that an `int` cannot hold. -/
theorem Started.lt {fsize bs n : ℕ} (h : Started fsize bs n) (hbs : 0 < bs)
    (hsize : fsize < 2 ^ 63) : n < 2 ^ 31 := by
  by_contra hn
  have hle : bs * 2 ^ 31 ≤ bs * n := Nat.mul_le_mul_left bs (Nat.not_lt.mp hn)
  have hfile := hle.trans_lt ((lt_blockCount_iff hbs).mp h.1)
  exact absurd (h.2 (2 ^ 31) (Nat.not_lt.mp hn))
    (Nat.not_lt.mpr (blockOffset_two_pow hbs hfile hsize))

/-- A started block begins where it lies in the file. -/
theorem Started.offset {fsize bs n : ℕ} (h : Started fsize bs n) (hbs : 0 < bs)
    (hsize : fsize < 2 ^ 63) : blockOffset bs n = bs * n :=
  blockOffset_of_lt ((lt_blockCount_iff hbs).mp h.1) hsize (h.lt hbs hsize)

/-- As long as an `int` holds their numbers, all blocks of the file are started. -/
theorem Started.of_lt {fsize bs n : ℕ} (hbs : 0 < bs) (hsize : fsize < 2 ^ 63) (hn : n < 2 ^ 31)
    (hcount : n < blockCount fsize bs) : Started fsize bs n := by
  refine ⟨hcount, fun k hk => ?_⟩
  have hfile : bs * k < fsize :=
    (Nat.mul_le_mul_left bs hk).trans_lt ((lt_blockCount_iff hbs).mp hcount)
  rw [blockOffset_of_lt hfile hsize (hk.trans_lt hn)]
  exact hfile

/-- What direct I/O and the staging buffers ask of a block size. -/
structure Usable (fsize bs copyBufferSize : ℕ) : Prop where
  pos : 0 < bs
  aligned : directIoAlign ∣ bs
  lt_copyBuffer : bs < copyBufferSize
  offset_aligned : ∀ n, Started fsize bs n → directIoAlign ∣ blockOffset bs n
  padded_fits : ∀ n, Started fsize bs n → writeBytes fsize bs n ≤ bs
  apart : ∀ m n, Started fsize bs m → Started fsize bs n → m ≠ n →
    blockOffset bs m + writeBytes fsize bs m ≤ blockOffset bs n ∨
      blockOffset bs n + writeBytes fsize bs n ≤ blockOffset bs m

theorem Usable.of_aligned {fsize bs copyBufferSize : ℕ} (hpos : 0 < bs)
    (hdvd : directIoAlign ∣ bs) (hbuf : bs < copyBufferSize) (hsize : fsize ≤ 2 ^ 63 - 4096) :
    Usable fsize bs copyBufferSize := by
  have hlt : fsize < 2 ^ 63 := by omega
  have hfits (n) : writeBytes fsize bs n ≤ bs := by
    refine alignUp_le_of_dvd ?_ (min_le_left ..) hdvd
    have : blockBytes fsize bs n ≤ fsize := (min_le_right ..).trans (Nat.sub_le ..)
    omega
  -- a block ends before any later one begins
  have hbefore {m n : ℕ} (hm : Started fsize bs m) (hn : Started fsize bs n) (hmn : m < n) :
      blockOffset bs m + writeBytes fsize bs m ≤ blockOffset bs n := by
    rw [hm.offset hpos hlt, hn.offset hpos hlt]
    calc bs * m + writeBytes fsize bs m ≤ bs * (m + 1) := Nat.add_le_add_left (hfits m) _
      _ ≤ bs * n := Nat.mul_le_mul_left bs hmn
  refine ⟨hpos, hdvd, hbuf, fun n hn => ?_, fun n _ => hfits n, fun m n hm hn hne => ?_⟩
  · rw [hn.offset hpos hlt]
    exact hdvd.mul_right n
  · rcases Nat.lt_or_gt_of_ne hne with hmn | hmn
    · exact .inl (hbefore hm hn hmn)
    · exact .inr (hbefore hn hm hmn)

/-- A power of two is aligned as soon as it is large enough. -/
theorem dvd_bitCeil_iff {n : ℕ} : directIoAlign ∣ bitCeil n ↔ directIoAlign ≤ bitCeil n := by
  refine ⟨Nat.le_of_dvd (Nat.two_pow_pos _), fun h => ?_⟩
  have hpow : directIoAlign = 2 ^ 12 := rfl
  rw [hpow, bitCeil] at h ⊢
  exact Nat.pow_dvd_pow 2 ((Nat.pow_le_pow_iff_right (by norm_num)).mp h)

/-- The options suit a file of this size: the bound that decides its block size, the minimum or
the maximum, is a multiple of the alignment below the size of the copy buffer, or neither
decides and half the file, rounded up to a power of two, is large enough and smaller than the
copy buffer. -/
def SuitsSize (o : Opts) (fsize : ℕ) : Prop :=
  let half := bitCeil (fsize / 2)
  if min o.maxBlockSize half ≤ o.minBlockSize then
    0 < o.minBlockSize ∧ directIoAlign ∣ o.minBlockSize ∧ o.minBlockSize < o.copyBufferSize
  else if o.maxBlockSize ≤ half then
    directIoAlign ∣ o.maxBlockSize ∧ o.maxBlockSize < o.copyBufferSize
  else directIoAlign ≤ half ∧ half < o.copyBufferSize

/-- The block size of a file is usable exactly if the options suit the size of the file. -/
theorem block_size_usable_iff (o : Opts) (fsBlockSize : ℕ) {fsize : ℕ}
    (hsize : fsize ≤ 2 ^ 63 - 4096) :
    Usable fsize (blockSize fsize fsBlockSize o.minBlockSize o.maxBlockSize) o.copyBufferSize ↔
      SuitsSize o fsize := by
  have hiff (bs : ℕ) : Usable fsize bs o.copyBufferSize ↔
      0 < bs ∧ directIoAlign ∣ bs ∧ bs < o.copyBufferSize :=
    ⟨fun h => ⟨h.pos, h.aligned, h.lt_copyBuffer⟩,
      fun h => .of_aligned h.1 h.2.1 h.2.2 hsize⟩
  rw [hiff, SuitsSize, blockSize]
  by_cases hmin : min o.maxBlockSize (bitCeil (fsize / 2)) ≤ o.minBlockSize
  · rw [if_pos hmin, max_eq_left hmin]
  rw [if_neg hmin, max_eq_right (Nat.le_of_not_le hmin)]
  have hpos : 0 < min o.maxBlockSize (bitCeil (fsize / 2)) := by omega
  by_cases hmax : o.maxBlockSize ≤ bitCeil (fsize / 2)
  · rw [if_pos hmax, min_eq_left hmax] at *
    exact and_iff_right hpos
  · rw [if_neg hmax, min_eq_right (Nat.le_of_not_le hmax)] at *
    rw [dvd_bitCeil_iff]
    exact and_iff_right hpos

/-- With the default options a file of one gibibyte is cut into blocks that are usable; there
are eight, of which the first and the last are among those started. -/
theorem block_size_usable_sample :
    Usable (2 ^ 30) (blockSize (2 ^ 30) 0 (4 * 2 ^ 10) (128 * 2 ^ 20)) (2 * 2 ^ 30) ∧
      blockSize (2 ^ 30) 0 (4 * 2 ^ 10) (128 * 2 ^ 20) = 2 ^ 27 ∧
      Started (2 ^ 30) (2 ^ 27) 0 ∧ Started (2 ^ 30) (2 ^ 27) 7 ∧
      ¬ Started (2 ^ 30) (2 ^ 27) 8 := by
  have hbs : blockSize (2 ^ 30) 0 (4 * 2 ^ 10) (128 * 2 ^ 20) = 2 ^ 27 := by decide +kernel
  refine ⟨(block_size_usable_iff {} 0 (by norm_num)).mpr ?_, hbs, ?_, ?_, fun h => ?_⟩
  · rw [SuitsSize]
    decide +kernel
  · exact .of_lt (by norm_num) (by norm_num) (by norm_num) (by decide)
  · exact .of_lt (by norm_num) (by norm_num) (by norm_num) (by decide)
  · exact absurd h.1 (by decide)

/-- `--min-block-size 5000`, everything else as by default. -/
def unalignedOpts : Opts := { minBlockSize := 5000 }

/-- A file of 6000 bytes: the first block is padded beyond its buffer and into the second. -/
theorem min_block_size_unaligned : unalignedOpts.accepted = true ∧
    blockSize 6000 0 unalignedOpts.minBlockSize unalignedOpts.maxBlockSize = 5000 ∧
    Started 6000 5000 0 ∧ Started 6000 5000 1 ∧
    5000 < writeBytes 6000 5000 0 ∧ blockOffset 5000 1 < blockOffset 5000 0 + writeBytes 6000 5000 0 ∧
    ¬ Usable 6000 (blockSize 6000 0 unalignedOpts.minBlockSize unalignedOpts.maxBlockSize)
      unalignedOpts.copyBufferSize := by
  have hbs : blockSize 6000 0 unalignedOpts.minBlockSize unalignedOpts.maxBlockSize = 5000 := by
    decide +kernel
  refine ⟨by decide, hbs, .of_lt (by norm_num) (by norm_num) (by norm_num) (by decide),
    .of_lt (by norm_num) (by norm_num) (by norm_num) (by decide), by decide, by decide, fun h => ?_⟩
  rw [hbs] at h
  exact absurd h.aligned (by decide)

end Copy2.FileJob
