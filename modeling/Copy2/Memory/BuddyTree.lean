import Copy2.Memory.TreeBits
import Mathlib.Data.Nat.Bitwise

/-! # Taking and releasing the nodes of a buddy tree

A node is marked as used as a whole, and the status of every node above it is brought up to
date. The search for a free node walks down from the root and keeps to the fuller side. -/
namespace Copy2.Memory
open Lib.BinaryTree

namespace BuddyTree
variable (t : BuddyTree)

/-- The bits of the sibling are next to those of the node. -/
def siblingInternal (p : InternalPosition) (index : ℕ) : InternalPosition :=
  { p with bitsetLocation :=
      p.bitsetLocation + p.localOffset - 2 * p.localOffset * (index &&& 1) }

/-- The status of a parent: one more than that of its emptier child, unless both are empty. -/
def targetParent (sizeCurrent sizeSibling : ℕ) : ℕ :=
  (decide (sizeCurrent ≠ 0 ∨ sizeSibling ≠ 0)).toNat *
    ((if sizeCurrent ≤ sizeSibling then sizeCurrent else sizeSibling) + 1)

/-- The loop of `update_parent_chain`, cut off after `fuel` rows. -/
def updateParentChain : (fuel : ℕ) → BuddyTree → Pos → InternalPosition → ℕ → BuddyTree
  | 0, t, _, _, _ => t
  | fuel + 1, t, pos, posInternal, sizeCurrent =>
    if pos.index = 1 then t
    else
      let sizeSibling := t.readFromInternalPosition (siblingInternal posInternal pos.index)
      let posInternal := t.internalPosition pos.parent
      let sizeParent := t.readFromInternalPosition posInternal
      let target := targetParent sizeCurrent sizeSibling
      if target = sizeParent then t
      else updateParentChain fuel (t.writeToInternalPosition posInternal target) pos.parent
        posInternal target

def mark (pos : Pos) : BuddyTree :=
  let internal := t.internalPosition pos
  updateParentChain pos.depth (t.writeToInternalPosition internal internal.localOffset) pos
    internal internal.localOffset

inductive ReleaseStatus
  | success
  | failPartiallyUsed
deriving DecidableEq, Repr

def release (pos : Pos) : BuddyTree × ReleaseStatus :=
  let internal := t.internalPosition pos
  if t.readFromInternalPosition internal ≠ internal.localOffset then (t, .failPartiallyUsed)
  else (updateParentChain pos.depth (t.writeToInternalPosition internal 0) pos internal 0, .success)

/-- The loop of `buddy_tree_find_free`: the rows that are left to go down. -/
def findFreeLoop : (targetStatus : ℕ) → Pos → Pos
  | 0, currentPos => currentPos
  | targetStatus + 1, currentPos =>
    let leftPos := currentPos.leftChild
    let rightPos := leftPos.sibling
    let leftInternal := t.internalPosition leftPos
    let rightInternal := { leftInternal with
      bitsetLocation := leftInternal.bitsetLocation + leftInternal.localOffset }
    -- the left branch is busy, or else the right one
    if t.compareWithInternalPosition leftInternal (targetStatus + 1) then
      findFreeLoop targetStatus rightPos
    else if t.compareWithInternalPosition rightInternal (targetStatus + 1) then
      findFreeLoop targetStatus leftPos
    else
      let rightStatus := t.readFromInternalPosition rightInternal
      if rightStatus ≠ 0 then
        if t.compareWithInternalPosition leftInternal rightStatus then
          findFreeLoop targetStatus leftPos
        else findFreeLoop targetStatus rightPos
      else findFreeLoop targetStatus leftPos

/-- `buddy_tree_find_free` -/
def findFree (targetDepth : ℕ) : Pos :=
  if targetDepth - 1 < t.status .root then .invalid else findFreeLoop t (targetDepth - 1) .root

variable {t} {pos : Pos} {i j p n : ℕ} {A B : ℕ → Bool} {τ : ℕ → ℕ}

theorem updateParentChain_order {fuel : ℕ} {pos : Pos} {q : InternalPosition} {c : ℕ} :
    (updateParentChain fuel t pos q c).order = t.order := by
  induction fuel generalizing t pos q c with
  | zero => rfl
  | succ fuel ih =>
    rw [updateParentChain]
    split
    · rfl
    · simp only
      split
      · rfl
      · rw [ih, write_order]

@[simp] theorem mark_order {pos : Pos} : (t.mark pos).order = t.order := by
  rw [mark, updateParentChain_order, write_order]

@[simp] theorem release_order {pos : Pos} : (t.release pos).1.order = t.order := by
  rw [release]
  split
  · rfl
  · rw [updateParentChain_order, write_order]

theorem root_eq : Pos.root = .ofIndex 1 := by simp [Pos.root, Pos.ofIndex]

theorem leftChild_ofIndex (hi : i ≠ 0) : (Pos.ofIndex i).leftChild = .ofIndex (2 * i) := by
  rw [Pos.leftChild, Pos.ofIndex, Pos.ofIndex, row_left hi, mul_comm]

theorem sibling_left (hi : i ≠ 0) : (Pos.ofIndex (2 * i)).sibling = .ofIndex (2 * i + 1) := by
  have hxor : 2 * i ^^^ 1 = 2 * i + 1 := Nat.xor_one_of_even (even_two_mul i)
  rw [Pos.sibling, Pos.ofIndex, Pos.ofIndex, row_right hi, row_left hi, hxor]

theorem parent_ofIndex (hi : 1 < i) : (Pos.ofIndex i).parent = .ofIndex (i / 2) := by
  rw [Pos.parent, Pos.ofIndex, Pos.ofIndex, row_half hi]
  rfl

theorem targetParent_eq (c d : ℕ) : targetParent c d = above c d := by
  rw [targetParent, above]
  by_cases h : c = 0 ∧ d = 0
  · simp [h]
  · rw [if_neg h, decide_eq_true (by omega), Bool.toNat_true, one_mul, min_def]

theorem above_comm (c d : ℕ) : above c d = above d c := by
  rw [above, above]
  split_ifs <;> omega

/-- The bits of a right child follow those of the left one. -/
theorem location_succ (hi : i ≠ 0) :
    location t (2 * i) + (t.order - row (2 * i)) = location t (2 * i + 1) := by
  have hpow := pow_row_le (i := 2 * i) (by omega)
  rw [location, location, row_right hi, ← row_left hi, add_assoc, ← Nat.mul_succ]
  congr 2
  omega

/-- The sibling of a node, by number. -/
theorem sibling_internal (hi : 1 < i) (hrow : row i < t.order) :
    ∃ j, j ≠ i ∧ j / 2 = i / 2 ∧ row j = row i ∧ j ≠ 0 ∧
      siblingInternal (t.internalPosition (.ofIndex i)) i = t.internalPosition (.ofIndex j) := by
  have hq : i / 2 ≠ 0 := by omega
  have hloc := location_succ (t := t) hq
  rcases Nat.mod_two_eq_zero_or_one i with hm | hm
  · have hi2 : 2 * (i / 2) = i := by omega
    have hr : row (i + 1) = row i := by
      rw [← hi2, row_right hq, row_left hq]
    refine ⟨i + 1, by omega, by omega, hr, by omega, ?_⟩
    rw [hi2] at hloc
    rw [internalPosition_ofIndex (by omega) hrow, internalPosition_ofIndex (by omega) (hr ▸ hrow),
      siblingInternal, Nat.and_one_is_mod, hm, hr, ← hloc]
    rfl
  · have hi2 : 2 * (i / 2) + 1 = i := by omega
    have hr : row (2 * (i / 2)) = row i := by
      rw [← hi2, row_right hq, show (2 * (i / 2) + 1) / 2 = i / 2 by omega, row_left hq]
    refine ⟨2 * (i / 2), by omega, by omega, hr, by omega, ?_⟩
    rw [hi2, hr] at hloc
    rw [internalPosition_ofIndex (by omega) hrow, internalPosition_ofIndex (by omega) (hr ▸ hrow),
      siblingInternal, Nat.and_one_is_mod, hm, hr, ← hloc]
    congr 1
    dsimp only
    omega

/-- What the search and the updates rely on: the bits show the statuses of the taken nodes. -/
structure Represents (t : BuddyTree) (A : ℕ → Bool) : Prop where
  shows : t.Shows (statusAt t.order A)
  blocks : Blocks t.order A

/-- Brought up to date from `i` on upwards, the bits show the new statuses everywhere. -/
theorem updateParentChain_shows {fuel : ℕ} (hAB : ∀ a, a ≠ p → A a = B a)
    (hA : ∀ a, Under a p → a ≠ p → A a = false) (hB : ∀ a, Under a p → a ≠ p → B a = false)
    (hp : p ≠ 0) (hpn : row p < t.order) (hu : Under i p) (hi : i ≠ 0) (hfuel : row i < fuel)
    (h : t.Shows τ) (hlow : ∀ j, (Under j i → j = i) → τ j = statusAt t.order B j)
    (hup : ∀ j, Under j i → j ≠ i → τ j = statusAt t.order A j) :
    (updateParentChain fuel t (.ofIndex i) (t.internalPosition (.ofIndex i))
      (statusAt t.order B i)).Shows (statusAt t.order B) := by
  have hin : i < 2 ^ t.order := (row_lt_iff hi).mp (by have := hu.row_le hi; omega)
  induction fuel generalizing t i τ with
  | zero => omega
  | succ fuel ih =>
    rw [updateParentChain]
    by_cases hone : i = 1
    · -- nothing is left above the root
      rw [if_pos (by rw [hone]; rfl)]
      intro j hj hjn
      obtain ⟨hle, hbits⟩ := h j hj hjn
      have := hlow j fun hj1 => by
        have hr := hj1.row_le hj
        rw [hone, row_one, Nat.le_zero] at hr
        exact (hj1.eq_of_row hj (by rw [hone, row_one]; exact Nat.zero_le _)).symm
      rw [this] at hle hbits
      exact ⟨hle, hbits⟩
    · have hi1 : 1 < i := by omega
      have hq : i / 2 ≠ 0 := by omega
      have hri := (row_lt_iff hi).mpr hin
      have hrq := row_half hi1
      have hqn : i / 2 < 2 ^ t.order := by omega
      have hqu : Under (i / 2) p := (under_half i).trans hu
      have hqp : i / 2 ≠ p := by
        rintro rfl
        have := hu.row_le hi
        omega
      obtain ⟨j, hji, hj2, hjr, hj0, hsib⟩ := sibling_internal hi1 hri
      have hjn : j < 2 ^ t.order := (row_lt_iff hj0).mp (hjr ▸ hri)
      have hsj : t.readFromInternalPosition (t.internalPosition (.ofIndex j)) =
          statusAt t.order B j :=
        (h.status hj0 hjn).trans (hlow j fun hu => (hu.eq_of_row hj0 hjr.ge).symm)
      have hsq : t.readFromInternalPosition (t.internalPosition (.ofIndex (i / 2))) =
          statusAt t.order A (i / 2) :=
        (h.status hq hqn).trans (hup (i / 2) (under_half i) (by omega))
      have htarget : targetParent (statusAt t.order B i) (statusAt t.order B j) =
          statusAt t.order B (i / 2) := by
        rw [targetParent_eq, statusAt_parent hq (by omega) (hB _ hqu hqp)]
        rcases Nat.mod_two_eq_zero_or_one i with hm | hm
        · rw [show 2 * (i / 2) = i by omega, show j = i + 1 by omega]
        · rw [show 2 * (i / 2) = j by omega, show j + 1 = i by omega, above_comm]
      rw [if_neg (by exact hone)]
      simp only [parent_ofIndex hi1, show (Pos.ofIndex i).index = i from rfl, hsib, hsj, hsq, htarget]
      by_cases hsame : statusAt t.order B (i / 2) = statusAt t.order A (i / 2)
      · -- what is above a node that keeps its status keeps its own
        rw [if_pos hsame]
        intro k hk hkn
        obtain ⟨hle, hbits⟩ := h k hk hkn
        have hτ : τ k = statusAt t.order B k := by
          by_cases hki : Under k i ∧ k ≠ i
          · rw [hup k hki.1 hki.2]
            exact statusAt_of_same hAB hA hB hqu hq (by omega) hsame.symm (hki.1.half hki.2) hk
          · exact hlow k fun hu => by_contra fun hne => hki ⟨hu, hne⟩
        rw [hτ] at hle hbits
        exact ⟨hle, hbits⟩
      · rw [if_neg hsame]
        have hw := h.write hq hqn (v := statusAt t.order B (i / 2)) statusAt_le
        refine ih (t := t.writeToInternalPosition _ _) hpn hqu hq (by omega) hw (fun k hk => ?_)
          (fun k hk hne => ?_) hqn
        · by_cases hkq : k = i / 2
          · rw [hkq, Function.update_self]
            rfl
          · rw [Function.update_of_ne hkq]
            refine hlow k fun hu => ?_
            by_contra hne
            exact hkq (hk (hu.half hne))
        · rw [Function.update_of_ne hne]
          refine hup k (hk.trans (under_half i)) ?_
          rintro rfl
          have := hk.row_le hi
          omega

/-- One node has been written, and the chain above it updated. -/
theorem Represents.update {v : ℕ} {b : Bool} (h : t.Represents A) (hp : p ≠ 0)
    (hpn : p < 2 ^ t.order) (hA : ∀ a, Under a p → a ≠ p → A a = false)
    (hv : v = statusAt t.order (Function.update A p b) p) :
    (updateParentChain (row p + 1) (t.writeToInternalPosition (t.internalPosition (.ofIndex p)) v)
      (.ofIndex p) (t.internalPosition (.ofIndex p)) v).Shows
        (statusAt t.order (Function.update A p b)) := by
  have hrow := (row_lt_iff hp).mpr hpn
  have hw := h.shows.write hp hpn (v := v) (hv ▸ statusAt_le)
  have hAB : ∀ a, a ≠ p → A a = Function.update A p b a := fun a ha =>
    (Function.update_of_ne ha _ _).symm
  subst hv
  refine updateParentChain_shows (A := A)
    (t := t.writeToInternalPosition (t.internalPosition (.ofIndex p)) _)
    hAB hA (fun a ha hne => ?_) hp hrow (.refl p) hp (Nat.lt_succ_self _) hw (fun j hj => ?_)
    fun j hj hne => ?_
  · rw [← hAB a hne]
    exact hA a ha hne
  · by_cases hjp : j = p
    · rw [hjp, Function.update_self]
      rfl
    · rw [Function.update_of_ne hjp]
      exact statusAt_of_not_above hAB fun hu => hjp (hj hu)
  · rw [Function.update_of_ne hne]
    rfl

/-- A free node is taken. -/
theorem Represents.mark (h : t.Represents A) (hp : Free t.order A p) :
    (t.mark (.ofIndex p)).Represents (Function.update A p true) := by
  obtain ⟨hp0, hpn⟩ := hp.inside
  have hrow := (row_lt_iff hp0).mpr hpn
  have hA : ∀ a, Under a p → a ≠ p → A a = false := fun a ha _ => by
    by_contra hne
    exact hp.above a (by simpa using hne) ha
  have hs : t.order - row p = statusAt t.order (Function.update A p true) p :=
    (statusAt_of_taken (by rw [Function.update_self])).symm
  have hshows := h.update hp0 hpn hA hs
  refine ⟨?_, by rw [mark_order]; exact h.blocks.take hp⟩
  rw [mark_order, BuddyTree.mark]
  simp only [internalPosition_ofIndex hp0 hrow]
  rw [← internalPosition_ofIndex hp0 hrow]
  exact hshows

/-- A taken node is released. -/
theorem Represents.release (h : t.Represents A) (hp : A p = true) :
    (t.release (.ofIndex p)).1.Represents (Function.update A p false) ∧
      (t.release (.ofIndex p)).2 = .success := by
  obtain ⟨hp0, hpn⟩ := h.blocks.inside p hp
  have hrow := (row_lt_iff hp0).mpr hpn
  have hA : ∀ a, Under a p → a ≠ p → A a = false := fun a ha hne => by
    by_contra hna
    exact hne (h.blocks.apart a p (by simpa using hna) hp ha)
  have hfree := h.blocks.free_of_release hp
  have hs : 0 = statusAt t.order (Function.update A p false) p := by
    refine (statusAt_of_free fun j hj => ?_).symm
    by_contra hne
    exact hfree.below j (by simpa using hne) hj
  have hread : t.readFromInternalPosition (t.internalPosition (.ofIndex p)) = t.order - row p :=
    (h.shows.status hp0 hpn).trans (statusAt_of_taken hp)
  have hshows := h.update hp0 hpn hA hs
  have hoff : (t.internalPosition (.ofIndex p)).localOffset = t.order - row p := by
    rw [internalPosition_ofIndex hp0 hrow]
  rw [BuddyTree.release]
  simp only [hread, hoff, ne_eq, not_true_eq_false, if_false]
  refine ⟨⟨?_, ?_⟩, trivial⟩
  · rw [updateParentChain_order, write_order]
    exact hshows
  · rw [updateParentChain_order, write_order]
    exact h.blocks.release

/-- A node that is used in part is turned down. -/
theorem release_of_partial (hs : t.status pos ≠ (t.internalPosition pos).localOffset) :
    t.release pos = (t, .failPartiallyUsed) := by
  rw [BuddyTree.release]
  exact if_pos hs

theorem Represents.findFreeLoop {k : ℕ} (h : t.Represents A) (hi : i ≠ 0)
    (hrow : row i + k < t.order) (hs : statusAt t.order A i ≤ k)
    (hA : ∀ a, Under a i → a ≠ i → A a = false) :
    ∃ p, findFreeLoop t k (.ofIndex i) = .ofIndex p ∧ row p = row i + k ∧ Free t.order A p := by
  induction k generalizing i with
  | zero =>
    have hin := (row_lt_iff hi).mp (by omega : row i < t.order)
    have hbelow := (h.blocks.statusAt_eq_zero_iff hi).mp (Nat.le_zero.mp hs)
    refine ⟨i, rfl, rfl, ⟨hi, hin⟩, fun a ha hu => ?_, fun a ha hu => ?_⟩
    · by_cases hai : a = i
      · simp [hbelow a (hai ▸ .refl a)] at ha
      · simp [hA a hu hai] at ha
    · simp [hbelow a hu] at ha
  | succ k ih =>
    have hiA : A i = false := by
      by_contra hne
      rw [statusAt_of_taken (by simpa using hne)] at hs
      omega
    rw [statusAt_parent hi (by omega) hiA, above_le_succ_iff] at hs
    have hl0 : 2 * i ≠ 0 := by omega
    have hr0 : 2 * i + 1 ≠ 0 := by omega
    have hln := (row_lt_iff hl0).mp (by rw [row_left hi]; omega : row (2 * i) < t.order)
    have hrn := (row_lt_iff hr0).mp (by rw [row_right hi]; omega : row (2 * i + 1) < t.order)
    -- either child may be chosen when it is not busy
    have hgo : ∀ c, c / 2 = i → row c = row i + 1 → statusAt t.order A c ≤ k →
        ∃ p, BuddyTree.findFreeLoop t k (.ofIndex c) = .ofIndex p ∧ row p = row i + (k + 1) ∧
          Free t.order A p := by
      intro c hc hrc hsc
      obtain ⟨p, hp, hrp, hfree⟩ := ih (i := c) (by omega) (by omega) hsc fun a ha hne => by
        have hu := ha.half hne
        rw [hc] at hu
        by_cases hai : a = i
        · rw [hai, hiA]
        · exact hA a hu hai
      exact ⟨p, hp, by omega, hfree⟩
    have hleft : statusAt t.order A (2 * i) ≤ k → _ := hgo (2 * i) (by omega) (row_left hi)
    have hright : statusAt t.order A (2 * i + 1) ≤ k → _ :=
      hgo (2 * i + 1) (by omega) (row_right hi)
    have hri : ({ t.internalPosition (.ofIndex (2 * i)) with
        bitsetLocation := (t.internalPosition (.ofIndex (2 * i))).bitsetLocation +
          (t.internalPosition (.ofIndex (2 * i))).localOffset } : InternalPosition) =
        t.internalPosition (.ofIndex (2 * i + 1)) := by
      rw [internalPosition_ofIndex hl0 (by rw [row_left hi]; omega),
        internalPosition_ofIndex hr0 (by rw [row_right hi]; omega), ← location_succ hi,
        row_left hi, row_right hi]
    rw [BuddyTree.findFreeLoop]
    simp only [leftChild_ofIndex hi, sibling_left hi, hri]
    rw [h.shows.compare hl0 hln (Nat.succ_pos k) (by rw [row_left hi]; omega),
      h.shows.compare hr0 hrn (Nat.succ_pos k) (by rw [row_right hi]; omega)]
    by_cases hbl : k + 1 ≤ statusAt t.order A (2 * i)
    · rw [if_pos (decide_eq_true hbl)]
      exact hright (hs.resolve_left (by omega))
    · rw [if_neg (by simpa using hbl)]
      by_cases hbr : k + 1 ≤ statusAt t.order A (2 * i + 1)
      · rw [if_pos (decide_eq_true hbr)]
        exact hleft (by omega)
      · rw [if_neg (by simpa using hbr)]
        split
        · split
          · exact hleft (by omega)
          · exact hright (by omega)
        · exact hleft (by omega)

/-- The search depends on the statuses alone. -/
theorem findFreeLoop_congr {u : BuddyTree} {k : ℕ} (ht : t.Shows τ) (hu : u.Shows τ)
    (ho : t.order = u.order) (hi : i ≠ 0) (hrow : row i + k < t.order) :
    BuddyTree.findFreeLoop t k (.ofIndex i) = BuddyTree.findFreeLoop u k (.ofIndex i) := by
  induction k generalizing i with
  | zero => rfl
  | succ k ih =>
    have hl0 : 2 * i ≠ 0 := by omega
    have hr0 : 2 * i + 1 ≠ 0 := by omega
    have hrl := row_left hi
    have hrr := row_right hi
    have hln := (row_lt_iff hl0).mp (by omega : row (2 * i) < t.order)
    have hrn := (row_lt_iff hr0).mp (by omega : row (2 * i + 1) < t.order)
    have hright : ∀ v : BuddyTree, v.order = t.order →
        ({ v.internalPosition (.ofIndex (2 * i)) with
          bitsetLocation := (v.internalPosition (.ofIndex (2 * i))).bitsetLocation +
            (v.internalPosition (.ofIndex (2 * i))).localOffset } : InternalPosition) =
        v.internalPosition (.ofIndex (2 * i + 1)) := fun v hv => by
      rw [internalPosition_ofIndex hl0 (by omega), internalPosition_ofIndex hr0 (by omega),
        ← location_succ hi, hrl, hrr]
    have hstatus : t.readFromInternalPosition (t.internalPosition (.ofIndex (2 * i + 1))) =
        u.readFromInternalPosition (u.internalPosition (.ofIndex (2 * i + 1))) :=
      (ht.status hr0 hrn).trans (hu.status hr0 (ho ▸ hrn)).symm
    have hle : u.readFromInternalPosition (u.internalPosition (.ofIndex (2 * i + 1))) ≤
        t.order - row (2 * i) := by
      rw [← hstatus, show t.readFromInternalPosition _ = τ (2 * i + 1) from ht.status hr0 hrn,
        hrl, ← hrr]
      exact (ht (2 * i + 1) hr0 hrn).1
    have hcompare : ∀ c w, c ≠ 0 → c < 2 ^ t.order → 0 < w → w ≤ t.order - row c →
        t.compareWithInternalPosition (t.internalPosition (.ofIndex c)) w =
          u.compareWithInternalPosition (u.internalPosition (.ofIndex c)) w :=
      fun c w hc hcn hw hwc => (ht.compare hc hcn hw hwc).trans
        (hu.compare hc (ho ▸ hcn) hw (ho ▸ hwc)).symm
    rw [BuddyTree.findFreeLoop, BuddyTree.findFreeLoop]
    simp only [leftChild_ofIndex hi, sibling_left hi, hright t rfl, hright u ho.symm, hstatus,
      ih hl0 (by omega), ih hr0 (by omega),
      hcompare _ (k + 1) hl0 hln (Nat.succ_pos k) (by omega),
      hcompare _ (k + 1) hr0 hrn (Nat.succ_pos k) (by omega)]
    split
    · rfl
    · split
      · rfl
      · split
        · next hne => rw [hcompare _ _ hl0 hln (Nat.pos_of_ne_zero hne) hle]
        · rfl

theorem findFree_congr {u : BuddyTree} {d : ℕ} (ht : t.Shows τ) (hu : u.Shows τ)
    (ho : t.order = u.order) (hd : 0 < d) (hdn : d ≤ t.order) : t.findFree d = u.findFree d := by
  have hone : 1 < 2 ^ t.order := Nat.one_lt_two_pow (by omega)
  have hroot : t.status .root = u.status .root := by
    rw [root_eq]
    exact (ht.status one_ne_zero hone).trans (hu.status one_ne_zero (ho ▸ hone)).symm
  rw [BuddyTree.findFree, BuddyTree.findFree, hroot, root_eq,
    findFreeLoop_congr ht hu ho one_ne_zero (by rw [row_one]; omega)]

/-- The search finds a free node of the wanted depth whenever there is one. -/
theorem Represents.findFree {d : ℕ} (h : t.Represents A) (hd : 0 < d) (hdn : d ≤ t.order) :
    (∃ p, t.findFree d = .ofIndex p ∧ row p = d - 1 ∧ Free t.order A p) ∨
      t.findFree d = .invalid ∧ ∀ p, row p = d - 1 → ¬ Free t.order A p := by
  have hroot : t.status .root = statusAt t.order A 1 := by
    rw [root_eq]
    exact h.shows.status one_ne_zero (Nat.one_lt_two_pow (by omega))
  rw [BuddyTree.findFree, hroot]
  by_cases hs : d - 1 < statusAt t.order A 1
  · refine .inr ⟨if_pos hs, fun p hp hfree => ?_⟩
    have := h.blocks.statusAt_le_of_free one_ne_zero (under_one hfree.inside.1) hfree
    rw [row_one] at this
    omega
  · rw [if_neg hs, root_eq]
    obtain ⟨p, hp, hrow, hfree⟩ := h.findFreeLoop (i := 1) (k := d - 1) one_ne_zero
      (by rw [row_one]; omega) (by omega) fun a ha hne => by
        have hone := ha.row_le (a := a) (b := 1)
        by_contra hA
        have ha0 := (h.blocks.inside a (by simpa using hA)).1
        have := hone ha0
        rw [row_one] at this
        exact hne (ha.eq_of_row ha0 (by rw [row_one]; omega)).symm
    exact .inl ⟨p, hp, by rw [hrow, row_one, Nat.zero_add], hfree⟩

end BuddyTree
end Copy2.Memory
