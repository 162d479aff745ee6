import Copy2.Memory.BuddyRuns

/-! # The bookkeeping stays in its place

Behind the record of an allocator stand the record of its tree, the bits and a table of
distances. Whatever the bits are, no operation writes behind the last of them, and all of it
fits between the arena and the end of the region. -/
namespace Copy2.Memory
open Lib.BinaryTree

/-- Where `buddy_tree_populate_size_for_order` puts the table, in words from the first bit on. -/
def sizeForOrderOffset (order : ℕ) : ℕ :=
  let bitsetOffset := bitsetSizeof (sizeForOrder order 0 1)
  (bitsetOffset + bitsetOffset % 8) / 8 + 1

variable {b : Buddy} {t : BuddyTree} {e : Embedded} {i j k p q n h v loc x r ptr c : ℕ}

theorem Bitset.updateRange_of_lt {bits : Bitset} {write : BitVec 8 → BitVec 8 → BitVec 8}
    {fill : BitVec 8} {range : BitsetRange} (hle : range.fromBucket ≤ range.toBucket)
    (hk : range.toBucket < k) : bits.updateRange write fill range k = bits k := by
  rw [Bitset.updateRange]
  split
  · rw [Function.update_of_ne (by omega)]
  · simp only
    rw [Bitset.memset, if_neg (by omega), Function.update_of_ne (by omega),
      Function.update_of_ne (by omega)]

namespace BuddyTree

def total (order : ℕ) : ℕ := sizeRows order order 0 1

theorem write_bits_of_le (hh : 0 < h) (hv : v ≤ h) (hk : loc + h ≤ 8 * k) :
    (t.writeToInternalPosition ⟨h, loc⟩ v).bits k = t.bits k := by
  have hclear : t.bits.clearRange (toBitsetRange loc (loc + h - 1)) k = t.bits k :=
    Bitset.updateRange_of_lt (Nat.div_le_div_right (by omega))
      (show (loc + h - 1) / 8 < k by omega)
  rw [writeToInternalPosition]
  by_cases hv0 : v = 0
  · simp only [hv0, if_true]
    exact hclear
  · simp only [hv0, if_false]
    refine Eq.trans ?_ hclear
    exact Bitset.updateRange_of_lt (Nat.div_le_div_right (by omega))
      (show (loc + v - 1) / 8 < k by omega)

/-- The bits of a node end before those of the rows below it begin. -/
theorem location_le_total (hi : i ≠ 0) (hrow : row i < t.order) :
    location t i + (t.order - row i) ≤ total t.order := by
  have hpow := pow_row_le hi
  have hlt := lt_pow_row i
  rw [pow_succ] at hlt
  calc location t i + (t.order - row i)
      = sizeRows (row i) t.order 0 1 + (t.order - row i) * (i - 2 ^ row i + 1) := by
        rw [location, add_assoc, ← Nat.mul_succ]
    _ ≤ sizeRows (row i) t.order 0 1 + (t.order - row i) * 2 ^ row i :=
        Nat.add_le_add_left (Nat.mul_le_mul_left _ (by omega)) _
    _ = sizeRows (row i + 1) t.order 0 1 := by rw [sizeRows_succ, one_mul]
    _ ≤ total t.order := rows_mono t hrow

theorem write_bits (hi : i ≠ 0) (hrow : row i < t.order) (hv : v ≤ t.order - row i)
    (hk : total t.order ≤ 8 * k) :
    (t.writeToInternalPosition (t.internalPosition (.ofIndex i)) v).bits k = t.bits k := by
  rw [internalPosition_ofIndex hi hrow]
  exact write_bits_of_le (by omega) hv ((location_le_total hi hrow).trans hk)

theorem above_le_left (l r : ℕ) : above l r ≤ l + 1 := above_le_succ_iff.mpr (.inl le_rfl)

/-- Only nodes above the first one are written, with no more bits than they have. -/
theorem updateParentChain_bits {fuel : ℕ} {place : InternalPosition} (hi : i ≠ 0)
    (hrow : row i < t.order) (hc : c ≤ t.order - row i) (hk : total t.order ≤ 8 * k) :
    (updateParentChain fuel t (.ofIndex i) place c).bits k = t.bits k := by
  induction fuel generalizing t i place c with
  | zero => rfl
  | succ fuel ih =>
    rw [updateParentChain]
    by_cases hone : i = 1
    · rw [if_pos (by rw [hone]; rfl)]
    · have hone : 1 < i := by omega
      have hhalf := row_half hone
      rw [if_neg (by exact hone.ne')]
      simp only [parent_ofIndex hone]
      split
      · rfl
      · have hle : targetParent c (t.readFromInternalPosition
            (siblingInternal place (Pos.ofIndex i).index)) ≤ t.order - row (i / 2) := by
          rw [targetParent_eq]
          have := above_le_left c (t.readFromInternalPosition
            (siblingInternal place (Pos.ofIndex i).index))
          omega
        generalize targetParent c (t.readFromInternalPosition
          (siblingInternal place (Pos.ofIndex i).index)) = v at hle ⊢
        exact (ih (t := t.writeToInternalPosition (t.internalPosition (.ofIndex (i / 2))) v)
          (by omega) (show row (i / 2) < t.order by omega) hle hk).trans
            (write_bits (by omega) (by omega) hle hk)

theorem mark_bits (hp : p ≠ 0) (hrow : row p < t.order) (hk : total t.order ≤ 8 * k) :
    (t.mark (.ofIndex p)).bits k = t.bits k := by
  have hoff : (t.internalPosition (.ofIndex p)).localOffset = t.order - row p := by
    rw [internalPosition_ofIndex hp hrow]
  rw [BuddyTree.mark]
  simp only [hoff]
  exact (updateParentChain_bits (t := t.writeToInternalPosition _ _) hp hrow le_rfl hk).trans
    (write_bits hp hrow le_rfl hk)

theorem release_bits (hp : p ≠ 0) (hrow : row p < t.order) (hk : total t.order ≤ 8 * k) :
    (t.release (.ofIndex p)).1.bits k = t.bits k := by
  rw [BuddyTree.release]
  split
  · rfl
  · exact (updateParentChain_bits (t := t.writeToInternalPosition _ _) hp hrow
      (Nat.zero_le _) hk).trans (write_bits hp hrow (Nat.zero_le _) hk)

/-- The search goes down row by row, whatever the bits are. -/
theorem findFreeLoop_row (hi : i ≠ 0) :
    ∃ p, findFreeLoop t n (.ofIndex i) = .ofIndex p ∧ p ≠ 0 ∧ row p = row i + n := by
  induction n generalizing i with
  | zero => exact ⟨i, rfl, hi, rfl⟩
  | succ n ih =>
    obtain ⟨l, hl, hl0, hlrow⟩ := ih (i := 2 * i) (by omega)
    obtain ⟨m, hm, hm0, hmrow⟩ := ih (i := 2 * i + 1) (by omega)
    rw [row_left hi] at hlrow
    rw [row_right hi] at hmrow
    have hleft : ∃ p, findFreeLoop t n (.ofIndex (2 * i)) = .ofIndex p ∧ p ≠ 0 ∧
        row p = row i + (n + 1) := ⟨l, hl, hl0, by omega⟩
    have hright : ∃ p, findFreeLoop t n (.ofIndex (2 * i + 1)) = .ofIndex p ∧ p ≠ 0 ∧
        row p = row i + (n + 1) := ⟨m, hm, hm0, by omega⟩
    rw [findFreeLoop]
    simp only [leftChild_ofIndex hi, sibling_left hi]
    split
    · exact hright
    · split
      · exact hleft
      · split
        · split
          · exact hleft
          · exact hright
        · exact hleft

end BuddyTree

namespace Embedded

/-- The climb ends at a node of the tree, or nowhere, whatever the bits are. -/
theorem climb_inside {fuel : ℕ} (hi : i ≠ 0) (hrow : row i < e.tree.order) :
    e.climb fuel (.ofIndex i) = .invalid ∨
      ∃ q, e.climb fuel (.ofIndex i) = .ofIndex q ∧ q ≠ 0 ∧ row q < e.tree.order := by
  induction fuel generalizing i with
  | zero => exact .inl rfl
  | succ fuel ih =>
    rw [climb]
    split
    · exact .inr ⟨i, rfl, hi, hrow⟩
    · by_cases hone : i = 1
      · rw [hone, valid_parent_one]
        exact .inl rfl
      · have hone : 1 < i := by omega
        have hhalf := row_half hone
        rw [BuddyTree.parent_ofIndex hone]
        split
        · exact .inl rfl
        · exact ih (by omega) (by omega)

variable (hb : e.buddy.Proper) (ho : e.tree.order = e.buddy.treeOrder)
variable (hk : BuddyTree.total e.tree.order ≤ 8 * k)
include hb ho

theorem positionForAddress_inside (ha : e.buddy.accepts ptr = true) :
    e.positionForAddress ptr = .invalid ∨
      ∃ q, e.positionForAddress ptr = .ofIndex q ∧ q ≠ 0 ∧ row q < e.tree.order := by
  obtain ⟨-, hlo, hhi⟩ := of_decide_eq_true ha
  have hx : ptr - e.buddy.main < 2 ^ (e.buddy.unit + (e.buddy.treeOrder - 1)) := by
    refine lt_of_lt_of_le (by omega : _ < e.buddy.memorySize) ?_
    rw [hb.memorySize_eq, pow_add]
    exact Nat.mul_le_mul_left _ hb.units_le
  have hrow := hb.row_leaf hx
  have hdeep : e.deepestPositionForOffset (ptr - e.buddy.main) =
      .ofIndex (e.buddy.leaf (ptr - e.buddy.main)) := by
    rw [deepestPositionForOffset, BuddyTree.leftmostChild, Pos.ofIndex, hrow, ho, Buddy.leaf,
      hb.alignment_eq]
  rw [positionForAddress, hdeep]
  simp only
  split
  · exact .inl rfl
  · split
    · exact .inl rfl
    · exact climb_inside Buddy.leaf_ne_zero (by rw [ho]; omega)

include hk

theorem malloc_bits : (e.malloc r).1.tree.bits k = e.tree.bits k := by
  have hr : (if r = 0 then 1 else r) = max r 1 := by
    split <;> omega
  rw [malloc]
  simp only [hr]
  split
  · rfl
  · next hbig =>
    obtain ⟨hd, hdn, -⟩ := hb.depthForSize_eq (r := max r 1) (Nat.not_lt.mp hbig)
      (lt_max_of_lt_right one_pos)
    have hexp := hb.exponent_le
    have hn := hb.treeOrder_eq
    rw [Nat.mod_eq_of_lt (by omega), BuddyTree.findFree]
    split
    · rw [BuddyTree.valid_invalid, Bool.not_false, if_pos rfl]
    · rw [BuddyTree.root_eq]
      obtain ⟨p, hp, hp0, hrow⟩ := BuddyTree.findFreeLoop_row (t := e.tree)
        (n := e.buddy.depthForSize (max r 1) - 1) one_ne_zero
      rw [row_one] at hrow
      rw [hp]
      split
      · rfl
      · exact BuddyTree.mark_bits hp0 (by rw [ho]; omega) hk

theorem release_bits (ha : e.buddy.accepts ptr = true)
    (hv : e.tree.valid (e.positionForAddress ptr) = true) :
    (e.tree.release (e.positionForAddress ptr)).1.bits k = e.tree.bits k := by
  rcases e.positionForAddress_inside hb ho ha with hp | ⟨q, hq, hq0, hrow⟩
  · rw [hp] at hv
    cases hv
  · rw [hq]
    exact BuddyTree.release_bits hq0 hrow hk

theorem free_bits : (e.free ptr).tree.bits k = e.tree.bits k := by
  rw [free]
  split
  · rfl
  · next ha =>
    simp only
    split
    · rfl
    · next hv => exact e.release_bits hb ho hk (by simpa using ha) (by simpa using hv)

theorem safeFree_bits : (e.safeFree ptr r).1.tree.bits k = e.tree.bits k := by
  rw [safeFree]
  split
  · rfl
  · next ha =>
    simp only
    split
    · rfl
    · next hv =>
      have hbits := e.release_bits hb ho hk (by simpa using ha) (by simpa using hv)
      generalize (if r < e.buddy.alignment then e.buddy.alignment else r) = wanted
      split
      · rfl
      · split
        · rfl
        · generalize e.tree.release (e.positionForAddress ptr) = released at hbits ⊢
          obtain ⟨tree, status⟩ := released
          cases status with
          | success => exact hbits
          | failPartiallyUsed => rfl

theorem serve_bits (request : Request) : (e.serve request).tree.bits k = e.tree.bits k := by
  cases request with
  | malloc r => exact e.malloc_bits hb ho hk
  | free ptr => exact e.free_bits hb ho hk
  | safeFree ptr r => exact e.safeFree_bits hb ho hk

end Embedded

/-- The masking marks nodes of the tree only. -/
theorem Buddy.Proper.maskLoop_bits (hb : b.Proper) {fuel d : ℕ} (ho : t.order = b.treeOrder)
    (hi : i ≠ 0) (hrow : row i < b.treeOrder) (hd : 0 < d)
    (hdle : d ≤ 2 ^ (b.treeOrder - 1 - row i)) (hk : BuddyTree.total t.order ≤ 8 * k) :
    (b.maskLoop fuel t (.ofIndex i) (2 ^ b.unit * d)).bits k = t.bits k := by
  induction fuel generalizing t i d with
  | zero => rfl
  | succ fuel ih =>
    have hunit := Nat.two_pow_pos b.unit
    have hsize : b.sizeForDepth (Pos.ofIndex i).depth =
        2 ^ b.unit * 2 ^ (b.treeOrder - 1 - row i) := by
      rw [← pow_add]
      exact hb.sizeForDepth_eq hrow
    rw [Buddy.maskLoop, if_neg (Nat.mul_pos hunit hd).ne']
    simp only [hsize, Nat.mul_right_inj hunit.ne']
    by_cases hfull : d = 2 ^ (b.treeOrder - 1 - row i)
    · rw [if_pos hfull]
      exact BuddyTree.mark_bits hi (ho ▸ hrow) hk
    · obtain ⟨w, hw⟩ : ∃ w, b.treeOrder - 1 - row i = w + 1 :=
        Nat.exists_eq_succ_of_ne_zero fun hz => by
          rw [hz, pow_zero] at hdle hfull
          omega
      have hhalf : 2 ^ b.unit * 2 ^ (w + 1) / 2 = 2 ^ b.unit * 2 ^ w := by
        rw [pow_succ, ← mul_assoc, Nat.mul_div_cancel _ two_pos]
      have hwl : b.treeOrder - 1 - row (2 * i) = w := by rw [row_left hi]; omega
      have hwr : b.treeOrder - 1 - row (2 * i + 1) = w := by rw [row_right hi]; omega
      have hrl : row (2 * i) < b.treeOrder := by rw [row_left hi]; omega
      have hrr : row (2 * i + 1) < b.treeOrder := by rw [row_right hi]; omega
      rw [hw] at hdle hfull
      rw [hw, if_neg hfull, hhalf, rightChild_ofIndex hi, BuddyTree.leftChild_ofIndex hi]
      by_cases hle : d ≤ 2 ^ w
      · rw [if_pos (Nat.mul_le_mul_left _ hle)]
        exact ih ho (by omega) hrr hd (by rw [hwr]; exact hle) hk
      · rw [if_neg (by rwa [Nat.mul_le_mul_left_iff hunit]), ← Nat.mul_sub]
        have hpow : 2 ^ (w + 1) = 2 ^ w + 2 ^ w := by ring
        refine (ih (t := t.mark _) (by rw [BuddyTree.mark_order, ho]) (by omega) hrl (by omega)
          (by rw [hwl]; omega) (by rw [BuddyTree.mark_order]; exact hk)).trans ?_
        exact BuddyTree.mark_bits (by omega) (ho ▸ hrr) hk

theorem Buddy.Proper.maskVirtualSlots_bits (hb : b.Proper) (ho : t.order = b.treeOrder)
    (hk : BuddyTree.total t.order ≤ 8 * k) : (b.maskVirtualSlots t).bits k = t.bits k := by
  rcases hb.maskVirtualSlots_eq t with ⟨-, heq⟩ | ⟨hunits, i, hi, hrow, hone, -, hdle, heq⟩
  · rw [heq]
  · rw [heq]
    exact hb.maskLoop_bits ho hi (by omega) (Nat.sub_pos_of_lt hunits) hdle hk

theorem Buddy.init_buddy : b.init.buddy = b := rfl

theorem Buddy.init_tree : b.init.tree = b.maskVirtualSlots (.init b.treeOrder) := by
  rw [Buddy.init]

theorem le_sizeRows {order result multi : ℕ} : result ≤ sizeRows n order result multi := by
  induction n generalizing order result multi with
  | zero => exact le_rfl
  | succ n ih => exact (Nat.le_add_right _ _).trans ih

theorem sizeRows_closed (hk : k ≤ n) : sizeRows k n 0 1 + n + 2 = (n - k + 2) * 2 ^ k := by
  induction k with
  | zero => simp [sizeRows]
  | succ k ih =>
    obtain ⟨d, rfl⟩ := Nat.exists_eq_add_of_le hk
    have ih := ih (by omega)
    rw [show k + 1 + d - k = d + 1 by omega] at ih
    rw [sizeRows_succ, show k + 1 + d - k = d + 1 by omega,
      show k + 1 + d - (k + 1) = d by omega]
    calc sizeRows k (k + 1 + d) 0 1 + (d + 1) * (1 * 2 ^ k) + (k + 1 + d) + 2
        = sizeRows k (k + 1 + d) 0 1 + (k + 1 + d) + 2 + (d + 1) * 2 ^ k := by ring
      _ = (d + 1 + 2) * 2 ^ k + (d + 1) * 2 ^ k := by rw [ih]
      _ = (d + 2) * 2 ^ (k + 1) := by ring

theorem total_eq (n : ℕ) : BuddyTree.total n + n + 2 = 2 ^ (n + 1) := by
  rw [BuddyTree.total, sizeRows_closed le_rfl, Nat.sub_self, pow_succ]
  ring

theorem total_mono {m : ℕ} (h : n ≤ m) : BuddyTree.total n ≤ BuddyTree.total m := by
  induction h with
  | refl => exact le_rfl
  | @step m _ ih =>
    have h₁ := total_eq m
    have h₂ := total_eq (m + 1)
    have hpow : 2 ^ (m + 1 + 1) = 2 ^ (m + 1) + 2 ^ (m + 1) := by ring
    have hlt : m + 1 < 2 ^ (m + 1) := Nat.lt_two_pow_self
    rw [Nat.succ_eq_add_one]
    omega

/-- Nothing wraps in the computation of the size. -/
theorem sizeForOrder_eq {result multi : ℕ} (hr : sizeRows n n result multi < 2 ^ 64)
    (hm : multi * 2 ^ n < 2 ^ 64) : sizeForOrder n result multi = sizeRows n n result multi := by
  induction n generalizing result multi with
  | zero => rfl
  | succ n ih =>
    rw [sizeRows, Nat.add_sub_cancel] at hr
    have hres : result + (n + 1) * multi < 2 ^ 64 := le_sizeRows.trans_lt hr
    have hmul : multi * 2 * 2 ^ n < 2 ^ 64 := by
      rw [mul_assoc, ← pow_succ']
      exact hm
    have hmul' : multi * 2 < 2 ^ 64 :=
      (Nat.le_mul_of_pos_right _ (Nat.two_pow_pos n)).trans_lt hmul
    rw [sizeForOrder, Nat.mod_eq_of_lt hres, Nat.mod_eq_of_lt hmul', ih hr hmul, sizeRows,
      Nat.add_sub_cancel]

theorem total_lt (hn : n ≤ 63) : BuddyTree.total n + 7 < 2 ^ 64 := by
  have htotal := total_eq n
  rcases Nat.lt_or_eq_of_le hn with hlt | rfl
  · have hpow : 2 ^ (n + 1) ≤ 2 ^ 63 := Nat.pow_le_pow_right two_pos (by omega)
    omega
  · omega

theorem bitsetSizeof_eq (hn : n ≤ 63) :
    bitsetSizeof (sizeForOrder n 0 1) = (BuddyTree.total n + 7) / 8 := by
  have hlt := total_lt hn
  have hpow : 2 ^ n ≤ 2 ^ 63 := Nat.pow_le_pow_right two_pos hn
  have hsize : sizeForOrder n 0 1 = BuddyTree.total n := by
    refine sizeForOrder_eq ?_ (by omega)
    change BuddyTree.total n < 2 ^ 64
    omega
  rw [hsize, bitsetSizeof, Nat.mod_eq_of_lt hlt]

theorem treeOrderForMemory_eq {m alignment : ℕ} (hm : 0 < m / alignment)
    (hle : m / alignment ≤ 2 ^ 62) :
    treeOrderForMemory m alignment = Nat.clog 2 (m / alignment) + 1 := by
  have hclog : Nat.clog 2 (m / alignment) ≤ 62 := Nat.clog_le_of_le_pow hle
  have hlt : 2 ^ Nat.clog 2 (m / alignment) < 2 ^ 64 := Nat.pow_lt_pow_right one_lt_two (by omega)
  rw [treeOrderForMemory, ceilingPowerOfTwo_eq hm (by omega), highestBitPosition_eq hlt,
    Nat.size_pow]

/-- The record, the bits and the table end inside the region. -/
theorem bookkeeping_fits {writable : ℕ → Bool} {main size alignment : ℕ}
    (hb : embedAlignment writable main size alignment = .ok (some b)) (hsize : size ≤ 2 ^ 62) :
    b.offset + 32 + 24 + 8 * (sizeForOrderOffset b.treeOrder + b.treeOrder + 1) ≤ b.size := by
  obtain ⟨hproper, -, -, halign⟩ := Buddy.Proper.of_embed hb hsize
  obtain ⟨-, hregion, hoff, -, hplaced⟩ := embedAlignment_eq hb
  have hle := hplaced.memorySize_le
  have hal := hproper.alignment_le
  have hvalid := hproper.alignment
  have hexp := hproper.exponent_le
  have hpos : 0 < alignment := by
    rw [← halign, hproper.alignment_eq]
    exact Nat.two_pow_pos _
  rw [halign] at hal hvalid
  rw [hregion] at hle ⊢
  -- the tree was sized for the whole region
  obtain ⟨n, hn⟩ : ∃ n, treeOrderForMemory size alignment = n := ⟨_, rfl⟩
  have hdiv : 0 < size / alignment := Nat.div_pos (by omega) hpos
  have horder := treeOrderForMemory_eq hdiv ((Nat.div_le_self _ _).trans hsize)
  have hclog : Nat.clog 2 (size / alignment) ≤ 62 :=
    Nat.clog_le_of_le_pow ((Nat.div_le_self _ _).trans hsize)
  have hmono : b.treeOrder ≤ n := by
    rw [← hn, horder, hproper.treeOrder_eq, Buddy.units, halign]
    exact Nat.succ_le_succ (Nat.clog_mono_right 2 (Nat.div_le_div_right hle))
  have hn63 : n ≤ 63 := by omega
  have hsizeof : sizeofAlignment size alignment = 32 + treeSizeof n := by
    rw [sizeofAlignment, hvalid, Bool.not_true, if_neg (by simp), if_neg (by omega), hn,
      Nat.mod_eq_of_lt (by omega)]
  have htree := bitsetSizeof_eq (hmono.trans hn63)
  have hwhole := bitsetSizeof_eq hn63
  have htotal := total_mono hmono
  have hroom : b.offset + (32 + treeSizeof n) ≤ size := by
    rw [embedOffset, hsizeof] at hoff
    simp only at hoff
    split at hoff
    · cases hoff
    · split at hoff
      · cases hoff
      · have := Option.some.inj hoff
        omega
  rw [treeSizeof] at hroom
  simp only [hwhole] at hroom
  rw [sizeForOrderOffset]
  simp only [htree]
  generalize b.treeOrder = o at htotal hmono ⊢
  rcases Nat.lt_or_eq_of_le hmono with hlt | rfl
  · omega
  · omega

/-- The bits end before the table, and both end inside the region. No operation writes behind
the bits, whatever is in them. -/
theorem bookkeeping_inside {writable : ℕ → Bool} {main size alignment : ℕ}
    (hb : embedAlignment writable main size alignment = .ok (some b)) (hsize : size ≤ 2 ^ 62) :
    bitsetSizeof (sizeForOrder b.treeOrder 0 1) ≤ 8 * sizeForOrderOffset b.treeOrder ∧
    b.offset + 32 + 24 + 8 * (sizeForOrderOffset b.treeOrder + b.treeOrder + 1) ≤ b.size ∧
    ∀ k, bitsetSizeof (sizeForOrder b.treeOrder 0 1) ≤ k →
      b.init.tree.bits k = 0 ∧ ∀ (e : Embedded) (request : Request), e.buddy = b →
        e.tree.order = b.treeOrder → (e.serve request).tree.bits k = e.tree.bits k := by
  obtain ⟨hproper, -, -, -⟩ := Buddy.Proper.of_embed hb hsize
  have hexp := hproper.exponent_le
  have hn := hproper.treeOrder_eq
  have hbits := bitsetSizeof_eq (n := b.treeOrder) (by omega)
  refine ⟨?_, bookkeeping_fits hb hsize, fun k hk => ?_⟩
  · rw [sizeForOrderOffset]
    generalize bitsetSizeof (sizeForOrder b.treeOrder 0 1) = m
    omega
  · have htotal : BuddyTree.total b.treeOrder ≤ 8 * k := by omega
    refine ⟨?_, fun e request he ho => ?_⟩
    · have ho : (BuddyTree.init b.treeOrder).order = b.treeOrder := rfl
      rw [Buddy.init_tree, hproper.maskVirtualSlots_bits ho (by rw [ho]; exact htotal)]
      rfl
    · subst he
      exact e.serve_bits hproper ho (ho ▸ htotal) request

theorem bookkeeping_inside_sample :
    (sampleArena.init.free 1048576).tree.bits 4 = sampleArena.init.tree.bits 4 := by
  obtain ⟨-, -, hbits⟩ := bookkeeping_inside sampleArena_embedded (by decide)
  have hfree : ∀ e : Embedded, e.buddy = sampleArena → e.tree.order = sampleArena.treeOrder →
      (e.free 1048576).tree.bits 4 = e.tree.bits 4 :=
    fun e he ho => (hbits 4 (by decide +kernel)).2 e (.free 1048576) he ho
  exact hfree sampleArena.init Buddy.init_buddy (by decide +kernel)

end Copy2.Memory
