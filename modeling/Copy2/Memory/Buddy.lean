import Mathlib.Tactic

/-! # Embedding a buddy allocator in a region

The size of the bookkeeping of a buddy allocator and where in its region it is written. The
rest of the region in front of it is the arena. Addresses and sizes are words of 64 bits. -/
namespace Copy2.Memory

/-- Steps of the search in `highest_bit_position`: a bound and the shift it allows. -/
def allSet : List (ℕ × ℕ) :=
  [(4294967295, 32), (65535, 16), (255, 8), (15, 4), (7, 2), (3, 1), (1, 1)]

def highestBitPosition (value : ℕ) : ℕ :=
  let r := allSet.foldl (fun (r : ℕ × ℕ) step =>
    if step.1 ≤ r.2 then (r.1 + step.2, r.2 >>> step.2) else r) (0, value)
  r.1 + r.2

def ceilingPowerOfTwo (value : ℕ) : ℕ :=
  let value := if value = 0 then 1 else value
  2 ^ (highestBitPosition ((value + value + (2 ^ 64 - 1)) % 2 ^ 64) - 1)

def isValidAlignment (alignment : ℕ) : Bool := ceilingPowerOfTwo alignment == alignment

def treeOrderForMemory (memorySize alignment : ℕ) : ℕ :=
  highestBitPosition (ceilingPowerOfTwo (memorySize / alignment))

/-- The bits of a tree: each row has twice the nodes of the one above, each of them one bit
shorter. -/
def sizeForOrder : (order result multi : ℕ) → ℕ
  | 0, result, _ => result
  | order + 1, result, multi =>
    sizeForOrder order ((result + (order + 1) * multi) % 2 ^ 64) (multi * 2 % 2 ^ 64)

def bitsetSizeof (elements : ℕ) : ℕ := (elements + 7) % 2 ^ 64 / 8

def treeSizeof (order : ℕ) : ℕ :=
  let bitsetSize := bitsetSizeof (sizeForOrder order 0 1)
  24 + (bitsetSize + bitsetSize % 8) + (order + 2) * 8

def sizeofAlignment (memorySize alignment : ℕ) : ℕ :=
  if !isValidAlignment alignment then 0
  else if memorySize < alignment then 0
  else 32 + treeSizeof (treeOrderForMemory memorySize alignment % 256)

def embedOffset (memorySize alignment : ℕ) : Option ℕ :=
  let buddySize := sizeofAlignment memorySize alignment
  if memorySize ≤ buddySize then none
  else
    let buddySize := buddySize + (memorySize - buddySize) % 8
    if memorySize ≤ buddySize then none else some (memorySize - buddySize)

theorem embedOffset_le {memorySize alignment offset : ℕ}
    (h : embedOffset memorySize alignment = some offset) : offset ≤ memorySize := by
  simp only [embedOffset] at h
  split at h
  · cases h
  · split at h
    · cases h
    · obtain rfl := Option.some.inj h
      exact Nat.sub_le ..

theorem embedOffset_pos {memorySize alignment offset : ℕ}
    (h : embedOffset memorySize alignment = some offset) : 0 < offset := by
  simp only [embedOffset] at h
  split at h
  · cases h
  · split at h
    · cases h
    · obtain rfl := Option.some.inj h
      omega

/-- `p + n` for a pointer. -/
def ptrAdd (p n : ℕ) : ℕ := (p + n) % 2 ^ 64

theorem ptrAdd_of_lt {p n : ℕ} (h : p + n < 2 ^ 64) : ptrAdd p n = p + n := Nat.mod_eq_of_lt h

/-- An embedded allocator: its region, and the distance of its bookkeeping. -/
structure Buddy where
  main : ℕ
  size : ℕ
  alignment : ℕ
  offset : ℕ
deriving DecidableEq, Repr

namespace Buddy
variable (b : Buddy)

/-- Where the bookkeeping is. The rest of the program knows the allocator by this address. -/
def address : ℕ := ptrAdd b.main b.offset

/-- The arena, trimmed down to the alignment. -/
def memorySize : ℕ := b.offset - b.offset % b.alignment

/-- `buddy_free` does not turn the address down for lying outside the arena. -/
def accepts (ptr : ℕ) : Bool :=
  decide (ptr ≠ 0 ∧ b.main ≤ ptr ∧ ptr < b.main + b.memorySize)

structure Placed : Prop where
  offset_pos : 0 < b.offset
  offset_le : b.offset ≤ b.size
  main_pos : 0 < b.main

theorem Placed.memorySize_le {b : Buddy} (h : b.Placed) : b.memorySize ≤ b.size :=
  (Nat.sub_le ..).trans h.offset_le

end Buddy

/-- A call does not return: the process exits, or touches memory that is not its own. -/
inductive Stop
  | exit
  | fault
deriving DecidableEq, Repr

/-- `buddy_embed_alignment`. It answers `none` for the null pointer. -/
def embedAlignment (writable : ℕ → Bool) (main size alignment : ℕ) :
    Except Stop (Option Buddy) :=
  if main = 0 then .ok none
  else if !isValidAlignment alignment then .ok none
  else match embedOffset size alignment with
    | none => .ok none
    | some offset =>
      let b : Buddy := ⟨main, size, alignment, offset⟩
      -- the checks of `buddy_init_alignment`
      if b.address = 0 ∨ b.address = main ∨ b.address % 8 ≠ 0 ∨ main % 8 ≠ 0 then .ok none
      else if sizeofAlignment b.memorySize alignment = 0 then .ok none
      else if writable b.address then .ok (some b)
      else .error .fault

/-- `buddy_get_embed_at_alignment`. -/
def getEmbedAtAlignment (main size alignment : ℕ) : Option ℕ :=
  (embedOffset size alignment).map (ptrAdd main)

/-- What is known of an allocator that was embedded. -/
theorem embedAlignment_eq {writable : ℕ → Bool} {main size alignment : ℕ} {b : Buddy}
    (h : embedAlignment writable main size alignment = .ok (some b)) :
    b.main = main ∧ b.size = size ∧ embedOffset size alignment = some b.offset ∧
      writable b.address = true ∧ b.Placed := by
  rw [embedAlignment] at h
  by_cases hmain : main = 0
  · simp [hmain] at h
  rw [if_neg hmain] at h
  split at h
  · cases h
  · cases hoff : embedOffset size alignment with
    | none => simp [hoff] at h
    | some offset =>
      simp only [hoff] at h
      split at h
      · cases h
      · split at h
        · cases h
        · split at h
          · next hw =>
            obtain rfl := Option.some.inj (Except.ok.inj h)
            exact ⟨rfl, rfl, rfl, hw, embedOffset_pos hoff, embedOffset_le hoff,
              Nat.pos_of_ne_zero hmain⟩
          · cases h

end Copy2.Memory
