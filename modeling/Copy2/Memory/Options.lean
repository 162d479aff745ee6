import Mathlib.Tactic

/-! # The sizes given on the command line

The options that size the memory of the program, and the check that `main` makes before it
sets the memory up. Sums and products of `size_t` wrap. -/
namespace Copy2.Memory

/-- The sizes and thread counts of `Opts`, with the defaults of `main`. -/
structure Opts where
  allocatorMemSize : ℕ := 4 * 2 ^ 30
  allocatorDiskSize : ℕ := 0
  threadMemSize : ℕ := 256 * 2 ^ 10
  nCrawlers : ℕ := 16
  nTransfers : ℕ := 8
  nFinishProcessors : ℕ := 16
  copyBufferSize : ℕ := 2 * 2 ^ 30
  minBlockSize : ℕ := 4 * 2 ^ 10
  maxBlockSize : ℕ := 128 * 2 ^ 20
  size_lt : ∀ n ∈ [allocatorMemSize, allocatorDiskSize, threadMemSize, nCrawlers, nTransfers,
    nFinishProcessors, copyBufferSize, minBlockSize, maxBlockSize], n < 2 ^ 64 := by decide

namespace Opts
variable (o : Opts)

def nAllocThreads : ℕ := (o.nFinishProcessors + o.nCrawlers + o.nTransfers) % 2 ^ 64

def subAllocTotal : ℕ := o.nAllocThreads * o.threadMemSize % 2 ^ 64

/-- `main` goes on: the memory is larger than the copy buffer and the memory of the threads. -/
def accepted : Bool :=
  !decide (o.allocatorMemSize ≤ (o.copyBufferSize + o.subAllocTotal) % 2 ^ 64)

variable {o}

theorem allocatorMemSize_pos (h : o.accepted = true) : 0 < o.allocatorMemSize := by
  rw [accepted, Bool.not_eq_true', decide_eq_false_iff_not] at h
  omega

end Opts
end Copy2.Memory
