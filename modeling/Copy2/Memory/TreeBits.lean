import Copy2.Lib.BinaryTree
import Copy2.Memory.Bitset

/-! # The status of a node in bits

A tree stores the status of each of its nodes in as many bits as the node has rows below it
and with it, row after row. The status is the number of bits that are set, from the first
one on. -/
namespace Copy2.Memory
open Lib.BinaryTree

structure Pos where
  index : ℕ
  depth : ℕ
deriving DecidableEq, Repr

namespace Pos

def invalid : Pos := ⟨0, 0⟩

def root : Pos := ⟨1, 1⟩

variable (pos : Pos)

def leftChild : Pos := ⟨pos.index * 2, pos.depth + 1⟩

def rightChild : Pos := ⟨pos.index * 2 + 1, pos.depth + 1⟩

def sibling : Pos := { pos with index := pos.index ^^^ 1 }

def parent : Pos := ⟨pos.index / 2, pos.depth - 1⟩

/-- The index in the row: the highest bit is cleared. -/
def indexInternal : ℕ := pos.index ^^^ (pos.index &&& 2 ^ (pos.depth - 1))

def ofIndex (i : ℕ) : Pos := ⟨i, row i + 1⟩

end Pos

structure InternalPosition where
  localOffset : ℕ
  bitsetLocation : ℕ

/-- The bits of the first `n` rows of a tree: each row has twice the nodes of the one above, each
of them one bit shorter. -/
def sizeRows : (n order result multi : ℕ) → ℕ
  | 0, _, result, _ => result
  | n + 1, order, result, multi => sizeRows n (order - 1) (result + order * multi) (multi * 2)

/-- `size_for_order`, with the order at which it stops. -/
def sizeForOrderTo (order stop : ℕ) : ℕ := sizeRows (order - stop) order 0 1

/-- `struct buddy_tree`; it fits into memory, so its positions do not wrap. -/
structure BuddyTree where
  order : ℕ
  bits : Bitset

namespace BuddyTree
variable (t : BuddyTree) (pos : Pos) (p : InternalPosition)

def internalPosition : InternalPosition :=
  let localOffset := t.order - pos.depth + 1
  { localOffset := localOffset
    bitsetLocation := sizeForOrderTo t.order localOffset + localOffset * pos.indexInternal }

def init (order : ℕ) : BuddyTree := ⟨order, fun _ => 0⟩

def valid : Bool := pos.index != 0 && decide (pos.index < 2 ^ t.order)

def leftmostChild : Pos := ⟨2 ^ (t.order - 1), t.order⟩

def writeToInternalPosition (value : ℕ) : BuddyTree :=
  let bits := t.bits.clearRange (toBitsetRange p.bitsetLocation
    (p.bitsetLocation + p.localOffset - 1))
  let bits := if value = 0 then bits
    else bits.setRange (toBitsetRange p.bitsetLocation (p.bitsetLocation + value - 1))
  { t with bits := bits }

def readFromInternalPosition : ℕ :=
  if !t.bits.test p.bitsetLocation then 0
  else t.bits.countRange (toBitsetRange p.bitsetLocation (p.bitsetLocation + p.localOffset - 1))

def compareWithInternalPosition (value : ℕ) : Bool := t.bits.test (p.bitsetLocation + value - 1)

def status : ℕ := t.readFromInternalPosition (t.internalPosition pos)

@[simp] theorem write_order (value : ℕ) :
    (t.writeToInternalPosition p value).order = t.order := rfl

end BuddyTree

theorem sizeRows_succ {n order result multi : ℕ} : sizeRows (n + 1) order result multi =
    sizeRows n order result multi + (order - n) * (multi * 2 ^ n) := by
  induction n generalizing order result multi with
  | zero => simp [sizeRows]
  | succ n ih =>
    rw [sizeRows, ih, ← sizeRows, Nat.sub_sub, add_comm 1 n]
    congr 2
    ring

namespace BuddyTree
variable {t : BuddyTree} {i j k v : ℕ} {τ : ℕ → ℕ}

def location (t : BuddyTree) (i : ℕ) : ℕ :=
  sizeRows (row i) t.order 0 1 + (t.order - row i) * (i - 2 ^ row i)

theorem rows_mono (t : BuddyTree) (h : j ≤ k) :
    sizeRows j t.order 0 1 ≤ sizeRows k t.order 0 1 := by
  induction k with
  | zero => rw [Nat.le_zero.mp h]
  | succ k ih =>
    rcases Nat.lt_or_eq_of_le h with h | rfl
    · rw [sizeRows_succ]
      exact (ih (by omega)).trans (Nat.le_add_right _ _)
    · exact le_rfl

/-- The bits of a node end before those of the next one. -/
theorem location_add_le (hi : i ≠ 0) (hij : i < j) :
    location t i + (t.order - row i) ≤ location t j := by
  have hj : j ≠ 0 := by omega
  have hpow := pow_row_le hi
  have hrow : row i ≤ row j := Nat.log_mono_right hij.le
  have hstep : location t i + (t.order - row i) =
      sizeRows (row i) t.order 0 1 + (t.order - row i) * (i + 1 - 2 ^ row i) := by
    rw [location, add_assoc, ← Nat.mul_succ]
    congr 2
    omega
  rw [hstep]
  rcases Nat.lt_or_eq_of_le hrow with hrow | hrow
  · -- the whole row ends before the other one starts
    have hlt := lt_pow_row i
    have hwidth : i + 1 - 2 ^ row i ≤ 2 ^ row i := by
      rw [pow_succ] at hlt
      omega
    calc sizeRows (row i) t.order 0 1 + (t.order - row i) * (i + 1 - 2 ^ row i)
        ≤ sizeRows (row i) t.order 0 1 + (t.order - row i) * 2 ^ row i :=
          Nat.add_le_add_left (Nat.mul_le_mul_left _ hwidth) _
      _ = sizeRows (row i + 1) t.order 0 1 := by rw [sizeRows_succ, one_mul]
      _ ≤ sizeRows (row j) t.order 0 1 := rows_mono t hrow
      _ ≤ location t j := Nat.le_add_right _ _
  · rw [location, ← hrow]
    exact Nat.add_le_add_left (Nat.mul_le_mul_left _ (by omega)) _

theorem clear_highest_bit {r : ℕ} (hle : 2 ^ r ≤ i) (hlt : i < 2 ^ (r + 1)) :
    i ^^^ (i &&& 2 ^ r) = i - 2 ^ r := by
  obtain ⟨m, rfl⟩ := Nat.exists_eq_add_of_le hle
  have hm : m < 2 ^ r := by
    rw [pow_succ] at hlt
    omega
  have hor : 2 ^ r + m = 2 ^ r ||| m := by simpa using Nat.two_pow_add_eq_or_of_lt hm 1
  rw [Nat.add_sub_cancel_left]
  refine Nat.eq_of_testBit_eq fun k => ?_
  rw [Nat.testBit_xor, Nat.testBit_and, hor, Nat.testBit_or, Nat.testBit_two_pow]
  by_cases hk : r = k
  · subst hk
    simp [Nat.testBit_lt_two_pow hm]
  · simp [hk]

theorem indexInternal_ofIndex (hi : i ≠ 0) : (Pos.ofIndex i).indexInternal = i - 2 ^ row i := by
  rw [Pos.indexInternal, Pos.ofIndex, Nat.add_sub_cancel]
  exact clear_highest_bit (pow_row_le hi) (lt_pow_row i)

theorem internalPosition_ofIndex (hi : i ≠ 0) (hrow : row i < t.order) :
    t.internalPosition (.ofIndex i) = ⟨t.order - row i, location t i⟩ := by
  have hoff : t.order - (row i + 1) + 1 = t.order - row i := by omega
  rw [internalPosition, indexInternal_ofIndex hi]
  simp only [Pos.ofIndex, hoff, location, sizeForOrderTo]
  rw [Nat.sub_sub_self hrow.le]

/-- The bits show a status for every node. -/
def Shows (t : BuddyTree) (τ : ℕ → ℕ) : Prop :=
  ∀ i, i ≠ 0 → i < 2 ^ t.order → τ i ≤ t.order - row i ∧
    ∀ k < t.order - row i, t.bits.bit (location t i + k) = decide (k < τ i)

variable (hi : i ≠ 0) (hlt : i < 2 ^ t.order)
include hi hlt

theorem Shows.compare (h : t.Shows τ) (hv : 0 < v) (hle : v ≤ t.order - row i) :
    t.compareWithInternalPosition (t.internalPosition (.ofIndex i)) v = decide (v ≤ τ i) := by
  have hrow := (row_lt_iff hi).mpr hlt
  have hbit := (h i hi hlt).2 (v - 1) (by omega)
  rw [compareWithInternalPosition, internalPosition_ofIndex hi hrow, Bitset.test_eq]
  simp only
  rw [Nat.add_sub_assoc hv, hbit]
  exact decide_eq_decide.mpr (by omega)

theorem Shows.status (h : t.Shows τ) : t.status (.ofIndex i) = τ i := by
  have hrow := (row_lt_iff hi).mpr hlt
  obtain ⟨hle, hbits⟩ := h i hi hlt
  rw [BuddyTree.status, internalPosition_ofIndex hi hrow, readFromInternalPosition, Bitset.test_eq]
  simp only
  have hfirst := hbits 0 (by omega)
  rw [Nat.add_zero] at hfirst
  rw [hfirst]
  by_cases hz : τ i = 0
  · simp [hz]
  · rw [if_neg (by simp [Nat.pos_of_ne_zero hz]), Bitset.countRange_eq (by omega)]
    have hicc : Finset.Icc (location t i) (location t i + (t.order - row i) - 1) =
        Finset.Ico (location t i) (location t i + (t.order - row i)) := by
      ext k
      simp only [Finset.mem_Icc, Finset.mem_Ico]
      omega
    rw [hicc, Finset.sum_Ico_eq_sum_range, Nat.add_sub_cancel_left]
    rw [Finset.sum_congr rfl fun k hk => by rw [hbits k (Finset.mem_range.mp hk)]]
    -- as many bits are set as the status says
    obtain ⟨m, hm⟩ := Nat.exists_eq_add_of_le hle
    rw [hm, Finset.sum_range_add]
    rw [Finset.sum_congr rfl fun k hk => by rw [decide_eq_true (Finset.mem_range.mp hk)]]
    have hrest : ∑ k ∈ Finset.range m, (decide (τ i + k < τ i)).toNat = 0 :=
      Finset.sum_eq_zero fun k _ => by simp
    rw [hrest]
    simp

omit hi hlt in
/-- The bits after a write: those of the node show the value, all others stay. -/
theorem bit_write {loc h : ℕ} (hh : 0 < h) (hv : v ≤ h) :
    (t.writeToInternalPosition ⟨h, loc⟩ v).bits.bit k =
      if loc ≤ k ∧ k < loc + h then decide (k < loc + v) else t.bits.bit k := by
  have hclear := Bitset.bit_clearRange (b := t.bits) (k := k)
    (show loc ≤ loc + h - 1 by omega)
  rw [writeToInternalPosition]
  by_cases hin : loc ≤ k ∧ k < loc + h
  · rw [decide_eq_true (by omega), Bool.not_true, Bool.and_false] at hclear
    rw [if_pos hin]
    by_cases hv0 : v = 0
    · simp only [hv0, if_true]
      rw [hclear]
      exact (decide_eq_false (by omega)).symm
    · simp only [hv0, if_false]
      rw [Bitset.bit_setRange (by omega), hclear, Bool.false_or]
      exact decide_eq_decide.mpr (by omega)
  · rw [decide_eq_false (by omega), Bool.not_false, Bool.and_true] at hclear
    rw [if_neg hin]
    by_cases hv0 : v = 0
    · simp only [hv0, if_true]
      exact hclear
    · simp only [hv0, if_false]
      rw [Bitset.bit_setRange (by omega), hclear, decide_eq_false (by omega), Bool.or_false]

theorem Shows.write (h : t.Shows τ) (hv : v ≤ t.order - row i) :
    (t.writeToInternalPosition (t.internalPosition (.ofIndex i)) v).Shows
      (Function.update τ i v) := by
  have hrow := (row_lt_iff hi).mpr hlt
  rw [internalPosition_ofIndex hi hrow]
  intro j hj hjlt
  rw [write_order] at hjlt ⊢
  have hloc : location (t.writeToInternalPosition ⟨t.order - row i, location t i⟩ v) j =
      location t j := rfl
  obtain ⟨hle, hbits⟩ := h j hj hjlt
  rw [hloc]
  by_cases hji : j = i
  · subst hji
    rw [Function.update_self]
    refine ⟨hv, fun k hk => ?_⟩
    rw [bit_write (by omega) hv, if_pos (by omega)]
    exact decide_eq_decide.mpr (by omega)
  · rw [Function.update_of_ne hji]
    refine ⟨hle, fun k hk => ?_⟩
    -- the bits of another node lie before or behind
    have hout : ¬ (location t i ≤ location t j + k ∧
        location t j + k < location t i + (t.order - row i)) := by
      rcases Nat.lt_or_gt_of_ne hji with hlt' | hgt
      · have := location_add_le (t := t) hj hlt'
        omega
      · have := location_add_le (t := t) hi hgt
        omega
    rw [bit_write (by omega) hv, if_neg hout]
    exact hbits k hk

end BuddyTree
end Copy2.Memory
