import Copy2.Memory.BuddyAlloc
import Copy2.Lib.TransitionSystem

/-! # What is allocated in a buddy arena

The nodes that are taken stand for the blocks that have been handed out, and for the memory
that is missing behind the arena. Any block may be asked for and any address given back, in
any order; an address at which no block starts is turned down. -/
namespace Copy2.Memory
open Lib Lib.BinaryTree

variable {b : Buddy} {t : BuddyTree} {e : Embedded} {A V : ℕ → Bool}
variable {i j k l p q x d r ptr : ℕ}

theorem BuddyTree.Represents.init (n : ℕ) : (BuddyTree.init n).Represents fun _ => false where
  shows i _ _ := by
    have hz : statusAt (BuddyTree.init n).order (fun _ => false) i = 0 :=
      statusAt_of_free fun _ _ => rfl
    rw [hz]
    exact ⟨Nat.zero_le _, fun k _ => by simp [BuddyTree.init, Bitset.bit]⟩
  blocks := .none n

/-- The leaves below a node are numbered in a row. -/
theorem under_leaf_iff_le {n l : ℕ} (hi : i ≠ 0) (hrow : row i < n) (hl : row l + 1 = n) :
    Under i l ↔ i * 2 ^ (n - 1 - row i) ≤ l ∧ l < (i + 1) * 2 ^ (n - 1 - row i) := by
  have hdist : row l - row i = n - 1 - row i := by omega
  have hpos := Nat.two_pow_pos (n - 1 - row i)
  constructor
  · intro hu
    have hdiv := hu.eq_div hi
    rw [hdist] at hdiv
    exact ⟨(Nat.le_div_iff_mul_le hpos).mp hdiv.ge,
      (Nat.div_lt_iff_lt_mul hpos).mp (by omega)⟩
  · rintro ⟨hle, hlt⟩
    exact ⟨_, Nat.div_eq_of_lt_le hle hlt⟩

theorem BuddyTree.Represents.free_of_uncovered (h : t.Represents A) (hi : i ≠ 0)
    (hrow : row i < t.order)
    (hl : ∀ l, l ≠ 0 → row l + 1 = t.order → Covered A l →
      (i + 1) * 2 ^ (t.order - 1 - row i) ≤ l) : Free t.order A i := by
  refine (h.blocks.free_iff hi ((row_lt_iff hi).mp hrow)).mpr fun l hl0 hln hu hc => ?_
  have := hl l hl0 hln hc
  have := ((under_leaf_iff_le hi hrow hln).mp hu).2
  omega

theorem rightChild_ofIndex (hi : i ≠ 0) : (Pos.ofIndex i).rightChild = .ofIndex (2 * i + 1) := by
  rw [Pos.rightChild, Pos.ofIndex, Pos.ofIndex, row_right hi, mul_comm]

/-- A node is marked, in front of the leaves that are covered already. -/
theorem BuddyTree.Represents.cover (h : t.Represents A) (hi : i ≠ 0) (hrow : row i < t.order)
    (hcov : ∀ l, l ≠ 0 → row l + 1 = t.order →
      (Covered A l ↔ (i + 1) * 2 ^ (t.order - 1 - row i) ≤ l)) :
    (t.mark (.ofIndex i)).Represents (Function.update A i true) ∧
      ∀ l, l ≠ 0 → row l + 1 = t.order →
        (Covered (Function.update A i true) l ↔ i * 2 ^ (t.order - 1 - row i) ≤ l) := by
  refine ⟨h.mark (h.free_of_uncovered hi hrow fun l hl hln => (hcov l hl hln).mp),
    fun l hl hln => ?_⟩
  rw [covered_take, hcov l hl hln, under_leaf_iff_le hi hrow hln]
  have hle := Nat.mul_le_mul_right (2 ^ (t.order - 1 - row i)) (Nat.le_succ i)
  generalize (i + 1) * 2 ^ (t.order - 1 - row i) = m at hle ⊢
  generalize i * 2 ^ (t.order - 1 - row i) = k at hle ⊢
  omega

/-- The masking covers what lies behind `d` units before the end of a node. -/
theorem Buddy.Proper.maskLoop (h : b.Proper) {fuel : ℕ} (hA : t.Represents A)
    (ht : t.order = b.treeOrder) (hi : i ≠ 0) (hrow : row i < b.treeOrder)
    (hfuel : b.treeOrder - row i ≤ fuel) (hd : 0 < d) (hdle : d ≤ 2 ^ (b.treeOrder - 1 - row i))
    (hcov : ∀ l, l ≠ 0 → row l + 1 = b.treeOrder →
      (Covered A l ↔ (i + 1) * 2 ^ (b.treeOrder - 1 - row i) ≤ l)) :
    ∃ B, (b.maskLoop fuel t (.ofIndex i) (2 ^ b.unit * d)).Represents B ∧
      (b.maskLoop fuel t (.ofIndex i) (2 ^ b.unit * d)).order = b.treeOrder ∧
      ∀ l, l ≠ 0 → row l + 1 = b.treeOrder →
        (Covered B l ↔ (i + 1) * 2 ^ (b.treeOrder - 1 - row i) - d ≤ l) := by
  induction fuel generalizing t A i d with
  | zero => omega
  | succ fuel ih =>
    have hunit := Nat.two_pow_pos b.unit
    have hsize : b.sizeForDepth (Pos.ofIndex i).depth =
        2 ^ b.unit * 2 ^ (b.treeOrder - 1 - row i) := by
      rw [← pow_add]
      exact h.sizeForDepth_eq hrow
    rw [Buddy.maskLoop, if_neg (Nat.mul_pos hunit hd).ne']
    simp only [hsize, Nat.mul_right_inj hunit.ne']
    by_cases hfull : d = 2 ^ (b.treeOrder - 1 - row i)
    · -- the node is masked as a whole
      obtain ⟨hm, hc⟩ := hA.cover hi (ht ▸ hrow) (by rw [ht]; exact hcov)
      rw [if_pos hfull]
      refine ⟨_, hm, by rw [BuddyTree.mark_order, ht], fun l hl hln => ?_⟩
      rw [hfull, Nat.add_one_mul, Nat.add_sub_cancel, ← ht]
      exact hc l hl (by rw [ht]; exact hln)
    · obtain ⟨w, hw⟩ : ∃ w, b.treeOrder - 1 - row i = w + 1 :=
        Nat.exists_eq_succ_of_ne_zero fun hz => by
          rw [hz, pow_zero] at hdle hfull
          omega
      have hhalf : 2 ^ b.unit * 2 ^ (w + 1) / 2 = 2 ^ b.unit * 2 ^ w := by
        rw [pow_succ, ← mul_assoc, Nat.mul_div_cancel _ two_pos]
      have hwl : b.treeOrder - 1 - row (2 * i) = w := by rw [row_left hi]; omega
      have hwr : b.treeOrder - 1 - row (2 * i + 1) = w := by rw [row_right hi]; omega
      have hrl : row (2 * i) < b.treeOrder := by rw [row_left hi]; omega
      have hrr : row (2 * i + 1) < b.treeOrder := by rw [row_right hi]; omega
      have hend : (i + 1) * 2 ^ (w + 1) = (2 * i + 1 + 1) * 2 ^ w := by ring
      rw [hw] at hdle hfull hcov
      rw [hw, if_neg hfull, hhalf, hend, rightChild_ofIndex hi,
        BuddyTree.leftChild_ofIndex hi]
      rw [hend] at hcov
      by_cases hle : d ≤ 2 ^ w
      · rw [if_pos (Nat.mul_le_mul_left _ hle)]
        have := ih hA ht (i := 2 * i + 1) (by omega) hrr (by rw [row_right hi]; omega) hd
          (by rw [hwr]; exact hle) (by rw [hwr]; exact hcov)
        rwa [hwr] at this
      · -- the right half is masked, and a part of the left one
        rw [if_neg (by rwa [Nat.mul_le_mul_left_iff hunit]), ← Nat.mul_sub]
        obtain ⟨hm, hc⟩ := hA.cover (i := 2 * i + 1) (by omega) (ht ▸ hrr)
          (by rw [ht, hwr]; exact hcov)
        rw [ht, hwr] at hc
        have hpow : 2 ^ (w + 1) = 2 ^ w + 2 ^ w := by ring
        obtain ⟨B, hB, hBo, hBc⟩ := ih (d := d - 2 ^ w) (i := 2 * i) hm
          (by rw [BuddyTree.mark_order, ht]) (by omega) hrl (by rw [row_left hi]; omega)
          (by omega) (by rw [hwl]; omega) (by rw [hwl]; exact hc)
        refine ⟨B, hB, hBo, fun l hl hln => ?_⟩
        rw [hBc l hl hln, hwl, Nat.add_one_mul (2 * i + 1)]
        omega

theorem Buddy.Proper.units_le_leaf (h : b.Proper) :
    2 ^ (b.treeOrder - 1) + b.units ≤ b.leaf x ↔ b.memorySize ≤ x := by
  rw [Buddy.leaf, Nat.add_le_add_iff_left, Nat.le_div_iff_mul_le (Nat.two_pow_pos _),
    h.memorySize_eq, mul_comm]

/-- The masking has nothing to do, or it starts at the right child of the root. -/
theorem Buddy.Proper.maskVirtualSlots_eq (h : b.Proper) (t : BuddyTree) :
    b.units = 2 ^ (b.treeOrder - 1) ∧ b.maskVirtualSlots t = t ∨
    b.units < 2 ^ (b.treeOrder - 1) ∧ ∃ i, i ≠ 0 ∧ row i = 1 ∧ 1 < b.treeOrder ∧
      (i + 1) * 2 ^ (b.treeOrder - 1 - row i) = 2 ^ b.treeOrder ∧
      2 ^ (b.treeOrder - 1) - b.units ≤ 2 ^ (b.treeOrder - 1 - row i) ∧
      b.maskVirtualSlots t =
        b.maskLoop t.order t (.ofIndex i) (2 ^ b.unit * (2 ^ (b.treeOrder - 1) - b.units)) := by
  have heff := h.effective_eq
  have hmem := h.memorySize_eq
  have hn := h.treeOrder_eq
  have hpos := Nat.two_pow_pos b.unit
  rw [pow_add] at heff
  rw [show 2 ^ Nat.clog 2 b.units = 2 ^ (b.treeOrder - 1) by rw [hn, Nat.add_sub_cancel]] at heff
  rw [Buddy.maskVirtualSlots]
  by_cases heq : b.effectiveMemorySize = b.memorySize
  · -- the arena is a power of two
    refine .inl ⟨?_, if_pos heq⟩
    rw [heff, hmem] at heq
    exact (Nat.mul_left_cancel hpos heq).symm
  · have hunits : b.units < 2 ^ (b.treeOrder - 1) :=
      lt_of_le_of_ne h.units_le fun he => heq (by rw [heff, hmem, he])
    have hbig : 2 < b.treeOrder := by
      by_contra hle
      have hclog : Nat.clog 2 b.units ≤ 1 := by omega
      have hle := (Nat.clog_le_iff_le_pow one_lt_two).mp hclog
      have hup := h.units_pos
      have : b.units = 2 ^ (b.treeOrder - 1) := by
        rcases (by omega : b.units = 1 ∨ b.units = 2) with hu | hu
        · rw [hn, hu]
          decide
        · rw [hn, hu]
          decide
      omega
    have hhalf : 2 ^ (b.treeOrder - 1) = 2 ^ (b.treeOrder - 1 - 1) + 2 ^ (b.treeOrder - 1 - 1) := by
      rw [← mul_two, ← pow_succ]
      exact congrArg (2 ^ ·) (by omega)
    have htwo : 2 ^ b.treeOrder = 2 ^ (b.treeOrder - 1) + 2 ^ (b.treeOrder - 1) := by
      rw [hn, Nat.add_sub_cancel, pow_succ, mul_two]
    have hclog : 2 ^ (b.treeOrder - 1 - 1) < b.units :=
      (Nat.lt_clog_iff_pow_lt one_lt_two).mp (by omega)
    have hrow : row 3 = 1 := by decide +kernel
    have hright : Pos.root.rightChild = .ofIndex 3 :=
      (congrArg Pos.rightChild BuddyTree.root_eq).trans (rightChild_ofIndex one_ne_zero)
    refine .inr ⟨hunits, 3, by decide, hrow, by omega, ?_, ?_, ?_⟩
    · rw [hrow]
      omega
    · rw [hrow]
      omega
    · rw [if_neg heq, heff, hmem, ← Nat.mul_sub, hright]

/-- A new arena: only the memory behind it is taken. -/
theorem Buddy.Proper.init (h : b.Proper) :
    ∃ V, b.init.tree.Represents V ∧ b.init.tree.order = b.treeOrder ∧
      ∀ l, l ≠ 0 → row l + 1 = b.treeOrder →
        (Covered V l ↔ 2 ^ (b.treeOrder - 1) + b.units ≤ l) := by
  have htwo : 2 ^ b.treeOrder = 2 ^ (b.treeOrder - 1) + 2 ^ (b.treeOrder - 1) := by
    rw [h.treeOrder_eq, Nat.add_sub_cancel, pow_succ, mul_two]
  have hempty : ∀ l, row l + 1 = b.treeOrder →
      (Covered (fun _ => false) l ↔ 2 ^ b.treeOrder ≤ l) := fun l hl => by
    refine ⟨?_, fun hle => absurd (hl ▸ lt_pow_row l) (Nat.not_lt.mpr hle)⟩
    rintro ⟨a, ha, -⟩
    cases ha
  have ho : (BuddyTree.init b.treeOrder).order = b.treeOrder := rfl
  rw [Buddy.init]
  rcases h.maskVirtualSlots_eq (.init b.treeOrder) with
    ⟨hunits, heq⟩ | ⟨hunits, i, hi, hrow, hone, hend, hdle, heq⟩
  · rw [heq]
    refine ⟨_, .init _, ho, fun l _ hl => ?_⟩
    rw [hempty l hl, hunits, ← htwo]
  · have hbefore : ∀ l, l ≠ 0 → row l + 1 = b.treeOrder → (Covered (fun _ => false) l ↔
        (i + 1) * 2 ^ (b.treeOrder - 1 - row i) ≤ l) := fun l _ hl => by
      rw [hempty l hl, hend]
    rw [heq, ho]
    obtain ⟨V, hV, ho, hc⟩ := h.maskLoop (.init b.treeOrder) ho hi (by omega)
      (Nat.sub_le b.treeOrder (row i)) (Nat.sub_pos_of_lt hunits) hdle hbefore
    generalize b.maskLoop b.treeOrder _ _ _ = u at hV ho ⊢
    refine ⟨V, hV, ho, fun l hl0 hl => ?_⟩
    rw [hc l hl0 hl, hend]
    omega

theorem BuddyTree.valid_ofIndex (hi : i ≠ 0) (hrow : row i < t.order) :
    t.valid (.ofIndex i) = true := by
  rw [BuddyTree.valid, Bool.and_eq_true, bne_iff_ne]
  exact ⟨hi, decide_eq_true ((row_lt_iff hi).mp hrow)⟩

theorem BuddyTree.valid_invalid : t.valid .invalid = false := rfl

theorem ofIndex_ne_invalid (hi : i ≠ 0) : Pos.ofIndex i ≠ .invalid := fun h =>
  hi (congrArg Pos.index h)

theorem valid_parent_one : t.valid (Pos.ofIndex 1).parent = false := rfl

namespace Embedded

/-- Below a taken node the climb ends at it. -/
theorem climb_of_taken {a fuel : ℕ} (h : e.tree.Represents A) (ha : A a = true)
    (hu : Under a i) (hrow : row i < e.tree.order) (hfuel : row i < fuel) :
    e.climb fuel (.ofIndex i) = .ofIndex a := by
  obtain ⟨ha0, han⟩ := h.blocks.inside a ha
  induction fuel generalizing i with
  | zero => omega
  | succ fuel ih =>
    have hi : i ≠ 0 := by
      rintro rfl
      obtain ⟨k, hk⟩ := hu
      exact ha0 (by rw [← hk, Nat.zero_div])
    have hs := h.shows.status hi ((row_lt_iff hi).mp hrow)
    rw [climb, hs]
    by_cases hai : i = a
    · subst hai
      rw [statusAt_of_taken ha, if_pos (by omega)]
    · have hz : statusAt e.tree.order A i = 0 :=
        (h.blocks.statusAt_eq_zero_iff hi).mpr fun j hj => by
          by_contra hne
          have haj := h.blocks.apart a j ha (by simpa using hne) (hu.trans hj)
          subst haj
          exact hai (hj.eq_of_row hi (hu.row_le ha0)).symm
      have hone : 1 < i := by
        by_contra hle
        obtain rfl : i = 1 := by omega
        exact hai (hu.eq_of_row ha0 (by rw [row_one]; exact Nat.zero_le _))
      have hhalf := row_half hone
      rw [hz, if_neg (by simp), BuddyTree.parent_ofIndex hone,
        BuddyTree.valid_ofIndex (by omega) (by omega), Bool.not_true, if_neg (by simp)]
      exact ih (hu.half fun h => hai h.symm) (by omega) (by omega)

/-- Elsewhere it ends at a node that is used in part, or nowhere. -/
theorem climb_of_untaken {fuel : ℕ} (h : e.tree.Represents A) (hi : i ≠ 0)
    (hA : ∀ a, A a = true → ¬ Under a i) (hrow : row i < e.tree.order) (hfuel : row i < fuel)
    (hs : statusAt e.tree.order A i = 0) :
    e.climb fuel (.ofIndex i) = .invalid ∨ ∃ q, e.climb fuel (.ofIndex i) = .ofIndex q ∧ q ≠ 0 ∧
      row q + 1 < e.tree.order ∧ statusAt e.tree.order A q = 1 := by
  induction fuel generalizing i with
  | zero => omega
  | succ fuel ih =>
    rw [climb, h.shows.status hi ((row_lt_iff hi).mp hrow), hs, if_neg (by simp)]
    by_cases hone : i = 1
    · rw [hone, valid_parent_one]
      exact .inl rfl
    · have hone : 1 < i := by omega
      have hhalf := row_half hone
      have hq : i / 2 ≠ 0 := by omega
      have hAq : ∀ a, A a = true → ¬ Under a (i / 2) := fun a ha hu =>
        hA a ha (hu.trans (under_half i))
      rw [BuddyTree.parent_ofIndex hone, BuddyTree.valid_ofIndex hq (by omega), Bool.not_true,
        if_neg (by simp)]
      by_cases hz : statusAt e.tree.order A (i / 2) = 0
      · exact ih hq hAq (by omega) (by omega) hz
      · refine .inr ⟨i / 2, ?_, hq, by omega, ?_⟩
        · cases fuel with
          | zero => omega
          | succ fuel =>
            rw [climb, h.shows.status hq ((row_lt_iff hq).mp (by omega)), if_pos hz]
        · -- one of its children is free, the other one is not
          have hnot : A (i / 2) = false := by
            by_contra hne
            exact hAq (i / 2) (by simpa using hne) (.refl _)
          rw [statusAt_parent hq (by omega) hnot] at hz ⊢
          rcases Nat.mod_two_eq_zero_or_one i with hm | hm
          · rw [show 2 * (i / 2) = i by omega, hs, above] at hz ⊢
            split at hz
            · exact absurd rfl hz
            · next hne => rw [if_neg hne, Nat.zero_min]
          · rw [show 2 * (i / 2) + 1 = i by omega, hs, above] at hz ⊢
            split at hz
            · exact absurd rfl hz
            · next hne => rw [if_neg hne, Nat.min_zero]

end Embedded

end Copy2.Memory
