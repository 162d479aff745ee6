import Copy2.Memory.BuddyTree
import Copy2.Memory.Powers

/-! # Allocating from a buddy arena

A block of memory is a node of the tree. The memory behind the arena, up to the next power of
two, is marked as used from the start. -/
namespace Copy2.Memory
open Lib.BinaryTree

structure Embedded where
  buddy : Buddy
  tree : BuddyTree

/-- `enum buddy_safe_free_status` -/
inductive SafeFreeStatus
  | success
  | invalidAddress
  | sizeMismatch
deriving DecidableEq, Repr

namespace Buddy
variable (b : Buddy)

def effectiveMemorySize : ℕ := ceilingPowerOfTwo b.memorySize

def treeOrder : ℕ := treeOrderForMemory b.memorySize b.alignment % 256

def depthForSize (requestedSize : ℕ) : ℕ :=
  let requestedSize := if requestedSize < b.alignment then b.alignment else requestedSize
  countTrailingZeroes b.effectiveMemorySize + 1 -
    countTrailingZeroes (ceilingPowerOfTwo requestedSize)

def sizeForDepth (depth : ℕ) : ℕ := ceilingPowerOfTwo b.memorySize >>> (depth - 1)

def addressForPosition (pos : Pos) : ℕ := b.main + b.sizeForDepth pos.depth * pos.indexInternal

/-- The loop of `buddy_toggle_virtual_slots` with a state of 1, cut off after `fuel` rows. -/
def maskLoop : (fuel : ℕ) → BuddyTree → Pos → (delta : ℕ) → BuddyTree
  | 0, t, _, _ => t
  | fuel + 1, t, pos, delta =>
    if delta = 0 then t
    else
      let currentPosSize := b.sizeForDepth pos.depth
      if delta = currentPosSize then t.mark pos
      else if delta ≤ currentPosSize / 2 then maskLoop fuel t pos.rightChild delta
      else maskLoop fuel (t.mark pos.rightChild) pos.leftChild (delta - currentPosSize / 2)

/-- `buddy_toggle_virtual_slots` with a state of 1. -/
def maskVirtualSlots (t : BuddyTree) : BuddyTree :=
  if b.effectiveMemorySize = b.memorySize then t
  else b.maskLoop t.order t Pos.root.rightChild (b.effectiveMemorySize - b.memorySize)

def init : Embedded := ⟨b, b.maskVirtualSlots (.init b.treeOrder)⟩

end Buddy

namespace Embedded
variable (e : Embedded)

def deepestPositionForOffset (offset : ℕ) : Pos :=
  { e.tree.leftmostChild with index := e.tree.leftmostChild.index + offset / e.buddy.alignment }

/-- The loop of `position_for_address`, cut off after `fuel` rows. -/
def climb : (fuel : ℕ) → Pos → Pos
  | 0, _ => .invalid
  | fuel + 1, pos =>
    if e.tree.status pos ≠ 0 then pos
    else if !e.tree.valid pos.parent then .invalid
    else climb fuel pos.parent

def positionForAddress (addr : ℕ) : Pos :=
  let offset := addr - e.buddy.main
  if offset % e.buddy.alignment ≠ 0 then .invalid
  else
    let pos := climb e e.tree.order (e.deepestPositionForOffset offset)
    if pos = .invalid ∨ e.buddy.addressForPosition pos ≠ addr then .invalid else pos

/-- `buddy_malloc`; it answers `none` for the null pointer. -/
def malloc (requestedSize : ℕ) : Embedded × Option ℕ :=
  let requestedSize := if requestedSize = 0 then 1 else requestedSize
  if e.buddy.memorySize < requestedSize then (e, none)
  else
    let pos := e.tree.findFree (e.buddy.depthForSize requestedSize % 256)
    if !e.tree.valid pos then (e, none)
    else ({ e with tree := e.tree.mark pos }, some (e.buddy.addressForPosition pos))

def free (ptr : ℕ) : Embedded :=
  if !e.buddy.accepts ptr then e
  else
    let pos := e.positionForAddress ptr
    if !e.tree.valid pos then e else { e with tree := (e.tree.release pos).1 }

/-- `buddy_safe_free` -/
def safeFree (ptr requestedSize : ℕ) : Embedded × SafeFreeStatus :=
  if !e.buddy.accepts ptr then (e, .invalidAddress)
  else
    let pos := e.positionForAddress ptr
    if !e.tree.valid pos then (e, .invalidAddress)
    else
      let allocatedSize := e.buddy.sizeForDepth pos.depth
      let requestedSize :=
        if requestedSize < e.buddy.alignment then e.buddy.alignment else requestedSize
      if allocatedSize < requestedSize then (e, .sizeMismatch)
      else if requestedSize ≤ allocatedSize / 2 then (e, .sizeMismatch)
      else
        match e.tree.release pos with
        | (_, .failPartiallyUsed) => (e, .invalidAddress)
        | (tree, .success) => ({ e with tree := tree }, .success)

end Embedded

namespace Buddy
variable {b : Buddy} {i k x l : ℕ}

/-- What the checks of `buddy_init_alignment` see to, for an arena that fits into memory. -/
structure Proper (b : Buddy) : Prop where
  alignment : isValidAlignment b.alignment = true
  alignment_le : b.alignment ≤ b.memorySize
  memorySize_le : b.memorySize ≤ 2 ^ 62

def unit (b : Buddy) : ℕ := Nat.clog 2 b.alignment

def units (b : Buddy) : ℕ := b.memorySize / b.alignment

theorem Proper.alignment_eq (h : b.Proper) : b.alignment = 2 ^ b.unit :=
  isValidAlignment_pow h.alignment (by have := h.alignment_le; have := h.memorySize_le; omega)

theorem Proper.memorySize_eq (h : b.Proper) : b.memorySize = 2 ^ b.unit * b.units := by
  have hdvd : b.alignment ∣ b.memorySize := by
    rw [memorySize]
    exact Nat.dvd_sub_mod _
  rw [← h.alignment_eq, units, Nat.mul_div_cancel' hdvd]

theorem Proper.units_pos (h : b.Proper) : 0 < b.units := by
  have hpos : 0 < b.alignment := by
    rw [h.alignment_eq]
    exact Nat.two_pow_pos _
  exact Nat.div_pos h.alignment_le hpos

theorem Proper.effective_eq (h : b.Proper) :
    b.effectiveMemorySize = 2 ^ (b.unit + Nat.clog 2 b.units) := by
  have hpos : 0 < b.memorySize := by
    rw [h.memorySize_eq]
    exact Nat.mul_pos (Nat.two_pow_pos _) h.units_pos
  rw [effectiveMemorySize, ceilingPowerOfTwo_eq hpos (by have := h.memorySize_le; omega),
    h.memorySize_eq, clog_mul_pow h.units_pos]

theorem Proper.exponent_le (h : b.Proper) : b.unit + Nat.clog 2 b.units ≤ 62 := by
  rw [← clog_mul_pow h.units_pos, ← h.memorySize_eq]
  exact Nat.clog_le_of_le_pow h.memorySize_le

theorem Proper.treeOrder_eq (h : b.Proper) : b.treeOrder = Nat.clog 2 b.units + 1 := by
  have hexp := h.exponent_le
  have hle : b.units ≤ 2 ^ 62 := by
    have := h.memorySize_eq
    have hpow := Nat.two_pow_pos b.unit
    have hmul : b.units ≤ 2 ^ b.unit * b.units := Nat.le_mul_of_pos_left _ hpow
    have := h.memorySize_le
    omega
  have hlt : 2 ^ Nat.clog 2 b.units < 2 ^ 64 := Nat.pow_lt_pow_right one_lt_two (by omega)
  rw [treeOrder, treeOrderForMemory, ← units, ceilingPowerOfTwo_eq h.units_pos (by omega),
    highestBitPosition_eq hlt, Nat.size_pow]
  exact Nat.mod_eq_of_lt (by omega)

theorem Proper.order_pos (h : b.Proper) : 0 < b.treeOrder := by
  rw [h.treeOrder_eq]
  exact Nat.succ_pos _

/-- The units of the arena and of the memory that is missing behind it. -/
theorem Proper.units_le (h : b.Proper) : b.units ≤ 2 ^ (b.treeOrder - 1) := by
  rw [h.treeOrder_eq]
  exact Nat.le_pow_clog one_lt_two _

/-- The size of the block of a node, and its distance from the start of the arena. -/
def blockSize (b : Buddy) (i : ℕ) : ℕ := 2 ^ (b.unit + (b.treeOrder - 1 - row i))

def blockOffset (b : Buddy) (i : ℕ) : ℕ := (i - 2 ^ row i) * b.blockSize i

def leaf (b : Buddy) (x : ℕ) : ℕ := 2 ^ (b.treeOrder - 1) + x / 2 ^ b.unit

theorem Proper.sizeForDepth_eq (h : b.Proper) (hrow : row i < b.treeOrder) :
    b.sizeForDepth (row i + 1) = b.blockSize i := by
  have heff := h.effective_eq
  rw [effectiveMemorySize] at heff
  have hn := h.treeOrder_eq
  rw [sizeForDepth, heff, Nat.add_sub_cancel, Nat.shiftRight_eq_div_pow, blockSize,
    Nat.pow_div (by omega) (by decide)]
  exact congrArg (2 ^ ·) (by omega)

theorem Proper.addressForPosition_eq (h : b.Proper) (hi : i ≠ 0) (hrow : row i < b.treeOrder) :
    b.addressForPosition (.ofIndex i) = b.main + b.blockOffset i := by
  rw [addressForPosition, BuddyTree.indexInternal_ofIndex hi, blockOffset, mul_comm]
  congr 2
  exact h.sizeForDepth_eq hrow

def slotSize (b : Buddy) (requestedSize : ℕ) : ℕ :=
  2 ^ Nat.clog 2 (max (max requestedSize 1) b.alignment)

theorem Proper.depthForSize_eq (h : b.Proper) {r : ℕ} (hr : r ≤ b.memorySize) (hpos : 0 < r) :
    0 < b.depthForSize r ∧ b.depthForSize r ≤ b.treeOrder ∧
      ∀ i, row i = b.depthForSize r - 1 → b.blockSize i = b.slotSize r := by
  have hmax : max (max r 1) b.alignment = if r < b.alignment then b.alignment else r := by
    rw [max_eq_left (a := r) hpos, max_def]
    split <;> split <;> omega
  have hal : b.unit ≤ Nat.clog 2 (max (max r 1) b.alignment) :=
    Nat.clog_mono_right 2 (le_max_right _ _)
  have hmem : Nat.clog 2 (max (max r 1) b.alignment) ≤ b.unit + Nat.clog 2 b.units := by
    rw [← clog_mul_pow h.units_pos, ← h.memorySize_eq]
    refine Nat.clog_mono_right 2 (max_le (max_le hr ?_) h.alignment_le)
    omega
  have hexp := h.exponent_le
  have hn := h.treeOrder_eq
  have hle : max (max r 1) b.alignment ≤ 2 ^ 63 := by
    have := h.memorySize_le
    have := h.alignment_le
    omega
  have hdepth : b.depthForSize r =
      b.unit + Nat.clog 2 b.units + 1 - Nat.clog 2 (max (max r 1) b.alignment) := by
    rw [depthForSize, ← hmax, ceilingPowerOfTwo_eq (by omega) hle, h.effective_eq,
      countTrailingZeroes_pow (by omega), countTrailingZeroes_pow (by omega)]
  refine ⟨by omega, by omega, fun i hi => ?_⟩
  rw [blockSize, slotSize, hi]
  exact congrArg (2 ^ ·) (by omega)

theorem Proper.row_leaf (h : b.Proper) (hx : x < 2 ^ (b.unit + (b.treeOrder - 1))) :
    row (b.leaf x) + 1 = b.treeOrder := by
  have hdiv : x / 2 ^ b.unit < 2 ^ (b.treeOrder - 1) := by
    rw [Nat.div_lt_iff_lt_mul (Nat.two_pow_pos _), ← pow_add, add_comm]
    exact hx
  have hn := h.order_pos
  have hpos := Nat.two_pow_pos (b.treeOrder - 1)
  have hrow : row (b.leaf x) = b.treeOrder - 1 := by
    rw [leaf]
    generalize x / 2 ^ b.unit = y at hdiv ⊢
    rw [row_eq_iff (by omega), pow_succ]
    omega
  omega

/-- The bytes of a block are those whose leaves stand below its node. -/
theorem Proper.under_leaf_iff (h : b.Proper) (hi : i ≠ 0) (hrow : row i < b.treeOrder)
    (hx : x < 2 ^ (b.unit + (b.treeOrder - 1))) :
    Under i (b.leaf x) ↔ b.blockOffset i ≤ x ∧ x < b.blockOffset i + b.blockSize i := by
  have hrl := h.row_leaf hx
  have hpow := pow_row_le hi
  have hdist : row (b.leaf x) - row i = b.treeOrder - 1 - row i := by omega
  have hsplit : 2 ^ (b.treeOrder - 1) = 2 ^ (b.treeOrder - 1 - row i) * 2 ^ row i := by
    rw [← pow_add]
    exact congrArg (2 ^ ·) (by omega)
  have hdiv : b.leaf x / 2 ^ (b.treeOrder - 1 - row i) = 2 ^ row i + x / b.blockSize i := by
    rw [leaf, hsplit, Nat.mul_add_div (Nat.two_pow_pos _), Nat.div_div_eq_div_mul, ← pow_add,
      blockSize]
  have hu : Under i (b.leaf x) ↔ x / b.blockSize i = i - 2 ^ row i := by
    constructor
    · intro hu
      have := hu.eq_div hi
      rw [hdist, hdiv] at this
      omega
    · intro hq
      exact ⟨b.treeOrder - 1 - row i, by rw [hdiv, hq]; omega⟩
  have hsize : 0 < b.blockSize i := Nat.two_pow_pos _
  rw [hu, blockOffset, Nat.div_eq_iff hsize]
  generalize (i - 2 ^ row i) * b.blockSize i = m
  omega

end Buddy
end Copy2.Memory
