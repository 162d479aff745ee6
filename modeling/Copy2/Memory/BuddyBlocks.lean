import Copy2.Memory.BuddyHeap

/-! # The live blocks of a buddy arena

Which blocks have been handed out and not been given back is written down next to the arena.
The nodes that are taken stand for these blocks and for the memory that is missing behind the
arena, whatever has happened in between. -/
namespace Copy2.Memory
open Lib.BinaryTree

variable {b : Buddy} {e : Embedded} {A V : ℕ → Bool} {live : ℕ → Option ℕ}
variable {i j k l p q x r ptr : ℕ}

namespace Buddy

theorem blockSize_pos : 0 < b.blockSize i := Nat.two_pow_pos _

theorem blockOffset_add_le (hrow : row i < b.treeOrder) :
    b.blockOffset i + b.blockSize i ≤ 2 ^ (b.unit + (b.treeOrder - 1)) := by
  have hlt := lt_pow_row i
  have hpow : 2 ^ (b.unit + (b.treeOrder - 1)) = 2 ^ row i * b.blockSize i := by
    rw [blockSize, ← pow_add]
    exact congrArg (2 ^ ·) (by omega)
  rw [pow_succ] at hlt
  rw [blockOffset, ← Nat.succ_mul, hpow]
  exact Nat.mul_le_mul_right _ (by omega)

theorem leaf_ne_zero : b.leaf x ≠ 0 := (Nat.add_pos_left (Nat.two_pow_pos _) _).ne'

theorem blockSize_dvd_blockOffset : b.blockSize i ∣ b.blockOffset i := Nat.dvd_mul_left _ _

theorem slotSize_max : b.slotSize (max r 1) = b.slotSize r := by
  have hmax : max (max (max r 1) 1) b.alignment = max (max r 1) b.alignment := by
    rw [max_eq_left (a := max r 1) (le_max_right _ _)]
  rw [slotSize, hmax, ← slotSize]

/-- The first byte of a block belongs to it. -/
theorem Proper.under_leaf_start (h : b.Proper) (hi : i ≠ 0) (hrow : row i < b.treeOrder) :
    Under i (b.leaf (b.blockOffset i)) := by
  have hle := blockOffset_add_le (b := b) hrow
  have hpos := blockSize_pos (b := b) (i := i)
  exact (h.under_leaf_iff hi hrow (by omega)).mpr ⟨le_rfl, by omega⟩

end Buddy

/-- The taken nodes `A` of the tree are those behind the arena, `V`, and those of the blocks. -/
structure Tracks (e : Embedded) (V A : ℕ → Bool) (live : ℕ → Option ℕ) : Prop where
  proper : e.buddy.Proper
  main_pos : 0 < e.buddy.main
  order : e.tree.order = e.buddy.treeOrder
  represents : e.tree.Represents A
  masked : ∀ i, V i = true → A i = true
  behind : ∀ l, l ≠ 0 → row l + 1 = e.buddy.treeOrder →
    (Covered V l ↔ 2 ^ (e.buddy.treeOrder - 1) + e.buddy.units ≤ l)
  blocks : ∀ p k, live p = some k ↔ ∃ i, A i = true ∧ V i = false ∧
    p = e.buddy.main + e.buddy.blockOffset i ∧ k = e.buddy.blockSize i

namespace Tracks

theorem init (h : b.Proper) (hmain : 0 < b.main) : ∃ V, Tracks b.init V V fun _ => none := by
  obtain ⟨V, hV, ho, hc⟩ := h.init
  refine ⟨V, h, hmain, ho, hV, fun _ hi => hi, hc, fun p k => ⟨fun hp => ?_, ?_⟩⟩
  · cases hp
  · rintro ⟨i, hA, hn, -⟩
    rw [hA] at hn
    cases hn

variable (h : Tracks e V A live)
include h

theorem inside (hi : A i = true) : i ≠ 0 ∧ row i < e.buddy.treeOrder := by
  obtain ⟨hi0, hin⟩ := h.represents.blocks.inside i hi
  rw [h.order] at hin
  exact ⟨hi0, (row_lt_iff hi0).mpr hin⟩

theorem space_le : e.buddy.memorySize ≤ 2 ^ (e.buddy.unit + (e.buddy.treeOrder - 1)) := by
  rw [h.proper.memorySize_eq, pow_add]
  exact Nat.mul_le_mul_left _ h.proper.units_le

/-- The leaves of the arena are not behind it. -/
theorem covered_behind_iff (hx : x < 2 ^ (e.buddy.unit + (e.buddy.treeOrder - 1))) :
    Covered V (e.buddy.leaf x) ↔ e.buddy.memorySize ≤ x := by
  rw [h.behind _ Buddy.leaf_ne_zero (h.proper.row_leaf hx), h.proper.units_le_leaf]

/-- A taken node with a byte of the arena in its block is that of a live block. -/
theorem live_of_under (hi : A i = true) (hx : x < e.buddy.memorySize)
    (hu : Under i (e.buddy.leaf x)) :
    V i = false ∧ live (e.buddy.main + e.buddy.blockOffset i) = some (e.buddy.blockSize i) := by
  have hV : V i = false := by
    by_contra hne
    have := (h.covered_behind_iff (hx.trans_le h.space_le)).mp ⟨i, by simpa using hne, hu⟩
    omega
  exact ⟨hV, (h.blocks _ _).mpr ⟨i, hi, hV, rfl, rfl⟩⟩

/-- The block of a node that is not behind the arena ends in it. -/
theorem block_le (hi : A i = true) (hV : V i = false) :
    e.buddy.blockOffset i + e.buddy.blockSize i ≤ e.buddy.memorySize := by
  obtain ⟨hi0, hrow⟩ := h.inside hi
  have hle := Buddy.blockOffset_add_le hrow
  have hpos := Buddy.blockSize_pos (b := e.buddy) (i := i)
  have hx : e.buddy.blockOffset i + e.buddy.blockSize i - 1 <
      2 ^ (e.buddy.unit + (e.buddy.treeOrder - 1)) := by omega
  have hu := (h.proper.under_leaf_iff hi0 hrow hx).mpr ⟨by omega, by omega⟩
  by_contra hgt
  obtain ⟨v, hv, hvu⟩ := (h.covered_behind_iff hx).mpr (by omega)
  have := h.represents.blocks.eq_of_covers hi (h.masked v hv) hu hvu
  rw [← this, hV] at hv
  cases hv

/-- Blocks with a byte in common are the same one. -/
theorem eq_of_overlap (hi : A i = true) (hj : A j = true)
    (hij : e.buddy.blockOffset i < e.buddy.blockOffset j + e.buddy.blockSize j)
    (hji : e.buddy.blockOffset j < e.buddy.blockOffset i + e.buddy.blockSize i) : i = j := by
  obtain ⟨hi0, hri⟩ := h.inside hi
  obtain ⟨hj0, hrj⟩ := h.inside hj
  have hli := Buddy.blockOffset_add_le (b := e.buddy) hri
  have hlj := Buddy.blockOffset_add_le (b := e.buddy) hrj
  have hsi := Buddy.blockSize_pos (b := e.buddy) (i := i)
  have hsj := Buddy.blockSize_pos (b := e.buddy) (i := j)
  have hx : max (e.buddy.blockOffset i) (e.buddy.blockOffset j) <
      2 ^ (e.buddy.unit + (e.buddy.treeOrder - 1)) := by
    omega
  exact h.represents.blocks.eq_of_covers hi hj
    ((h.proper.under_leaf_iff hi0 hri hx).mpr ⟨le_max_left _ _, by omega⟩)
    ((h.proper.under_leaf_iff hj0 hrj hx).mpr ⟨le_max_right _ _, by omega⟩)

/-- Live blocks lie in the arena, at multiples of their sizes. -/
theorem live_inside (hp : live p = some k) : e.buddy.main ≤ p ∧
    p + k ≤ e.buddy.main + e.buddy.memorySize ∧ k ∣ p - e.buddy.main ∧
      ∃ m, k = 2 ^ m ∧ e.buddy.unit ≤ m := by
  obtain ⟨i, hi, hV, rfl, rfl⟩ := (h.blocks p k).mp hp
  have hle := h.block_le hi hV
  refine ⟨Nat.le_add_right _ _, by omega, ?_, _, rfl, Nat.le_add_right _ _⟩
  rw [Nat.add_sub_cancel_left]
  exact Buddy.blockSize_dvd_blockOffset

theorem live_apart (hp : live p = some k) (hq : live q = some l) (hne : p ≠ q) :
    p + k ≤ q ∨ q + l ≤ p := by
  obtain ⟨i, hi, -, rfl, rfl⟩ := (h.blocks p k).mp hp
  obtain ⟨j, hj, -, rfl, rfl⟩ := (h.blocks q l).mp hq
  by_contra hno
  exact hne (by rw [h.eq_of_overlap hi hj (by omega) (by omega)])

/-- The block of a free node has no byte in common with that of a taken one. -/
theorem apart_of_free (hp : Free e.tree.order A p) (hi : A i = true) :
    e.buddy.blockOffset p + e.buddy.blockSize p ≤ e.buddy.blockOffset i ∨
      e.buddy.blockOffset i + e.buddy.blockSize i ≤ e.buddy.blockOffset p := by
  obtain ⟨hi0, hri⟩ := h.inside hi
  have hp0 := hp.inside.1
  have hrp := hp.row_lt
  rw [h.order] at hrp
  have hli := Buddy.blockOffset_add_le (b := e.buddy) hri
  have hlp := Buddy.blockOffset_add_le (b := e.buddy) hrp
  have hsi := Buddy.blockSize_pos (b := e.buddy) (i := i)
  have hsp := Buddy.blockSize_pos (b := e.buddy) (i := p)
  by_contra hno
  have hx : max (e.buddy.blockOffset i) (e.buddy.blockOffset p) <
      2 ^ (e.buddy.unit + (e.buddy.treeOrder - 1)) := by
    omega
  have hiu := (h.proper.under_leaf_iff hi0 hri hx).mpr ⟨le_max_left _ _, by omega⟩
  have hpu := (h.proper.under_leaf_iff hp0 hrp hx).mpr ⟨le_max_right _ _, by omega⟩
  rcases hiu.comparable hpu with hu | hu
  · exact hp.above i hi hu
  · exact hp.below i hi hu

theorem free_block_le (hp : Free e.tree.order A p) :
    e.buddy.blockOffset p + e.buddy.blockSize p ≤ e.buddy.memorySize := by
  have hp0 := hp.inside.1
  have hrp := hp.row_lt
  rw [h.order] at hrp
  have hlp := Buddy.blockOffset_add_le (b := e.buddy) hrp
  have hsp := Buddy.blockSize_pos (b := e.buddy) (i := p)
  have hx : e.buddy.blockOffset p + e.buddy.blockSize p - 1 <
      2 ^ (e.buddy.unit + (e.buddy.treeOrder - 1)) := by omega
  have hu := (h.proper.under_leaf_iff hp0 hrp hx).mpr ⟨by omega, by omega⟩
  by_contra hgt
  obtain ⟨v, hv, hvu⟩ := (h.covered_behind_iff hx).mpr (by omega)
  rcases hvu.comparable hu with hc | hc
  · exact hp.above v (h.masked v hv) hc
  · exact hp.below v (h.masked v hv) hc

/-- A node is free when no live block has a byte in common with its own. -/
theorem free_of_apart (hp0 : p ≠ 0) (hrp : row p < e.buddy.treeOrder)
    (hle : e.buddy.blockOffset p + e.buddy.blockSize p ≤ e.buddy.memorySize)
    (hlive : ∀ q k, live q = some k →
      e.buddy.main + e.buddy.blockOffset p + e.buddy.blockSize p ≤ q ∨
        q + k ≤ e.buddy.main + e.buddy.blockOffset p) : Free e.tree.order A p := by
  refine (h.represents.blocks.free_iff hp0 ((row_lt_iff hp0).mp (h.order ▸ hrp))).mpr ?_
  rintro l hl0 hl hu ⟨a, ha, hal⟩
  rw [h.order] at hl
  have hpow := pow_row_le hl0
  have hlt := lt_pow_row l
  have hunit := Nat.two_pow_pos e.buddy.unit
  rw [show row l = e.buddy.treeOrder - 1 by omega] at hpow
  rw [show row l + 1 = e.buddy.treeOrder - 1 + 1 by omega, pow_succ] at hlt
  have hleaf : l = e.buddy.leaf ((l - 2 ^ (e.buddy.treeOrder - 1)) * 2 ^ e.buddy.unit) := by
    rw [Buddy.leaf, Nat.mul_div_cancel _ hunit]
    omega
  have hx : (l - 2 ^ (e.buddy.treeOrder - 1)) * 2 ^ e.buddy.unit <
      2 ^ (e.buddy.unit + (e.buddy.treeOrder - 1)) := by
    rw [pow_add, mul_comm]
    exact Nat.mul_lt_mul_of_pos_left (by omega) hunit
  generalize (l - 2 ^ (e.buddy.treeOrder - 1)) * 2 ^ e.buddy.unit = x at hleaf hx
  subst hleaf
  have hin := (h.proper.under_leaf_iff hp0 hrp hx).mp hu
  obtain ⟨-, hblock⟩ := h.live_of_under ha (x := x) (by omega) hal
  obtain ⟨ha0, hra⟩ := h.inside ha
  have hina := (h.proper.under_leaf_iff ha0 hra hx).mp hal
  have := hlive _ _ hblock
  omega

theorem take (hp : Free e.tree.order A p) :
    Tracks { e with tree := e.tree.mark (.ofIndex p) } V (Function.update A p true)
      (Function.update live (e.buddy.main + e.buddy.blockOffset p)
        (some (e.buddy.blockSize p))) := by
  have hA : A p = false := by
    by_contra hne
    exact hp.above p (by simpa using hne) (.refl p)
  have hV : V p = false := by
    by_contra hne
    rw [h.masked p (by simpa using hne)] at hA
    cases hA
  have hsp := Buddy.blockSize_pos (b := e.buddy) (i := p)
  refine ⟨h.proper, h.main_pos, by rw [BuddyTree.mark_order, h.order], h.represents.mark hp,
    fun i hi => ?_, h.behind, fun q k => ?_⟩
  · by_cases hip : i = p
    · rw [hip, Function.update_self]
    · rw [Function.update_of_ne hip]
      exact h.masked i hi
  · by_cases hq : q = e.buddy.main + e.buddy.blockOffset p
    · subst hq
      rw [Function.update_self, Option.some_inj]
      constructor
      · rintro rfl
        exact ⟨p, by rw [Function.update_self], hV, rfl, rfl⟩
      · rintro ⟨i, hi, -, heq, rfl⟩
        by_cases hip : i = p
        · rw [hip]
        · rw [Function.update_of_ne hip] at hi
          have hsi := Buddy.blockSize_pos (b := e.buddy) (i := i)
          have hstart : e.buddy.main + e.buddy.blockOffset p =
              e.buddy.main + e.buddy.blockOffset i := heq
          have := h.apart_of_free hp hi
          omega
    · rw [Function.update_of_ne hq, h.blocks]
      refine exists_congr fun i => ?_
      by_cases hip : i = p
      · subst hip
        exact ⟨fun hi => by simp [hA] at hi, fun hi => absurd hi.2.2.1 hq⟩
      · rw [Function.update_of_ne hip]

/-- A block is given back. -/
theorem drop (hA : A p = true) (hV : V p = false) :
    Tracks { e with tree := (e.tree.release (.ofIndex p)).1 } V (Function.update A p false)
      (Function.update live (e.buddy.main + e.buddy.blockOffset p) none) := by
  refine ⟨h.proper, h.main_pos, by rw [BuddyTree.release_order, h.order],
    (h.represents.release hA).1, fun i hi => ?_, h.behind, fun q k => ?_⟩
  · by_cases hip : i = p
    · rw [hip, hV] at hi
      cases hi
    · rw [Function.update_of_ne hip]
      exact h.masked i hi
  · by_cases hq : q = e.buddy.main + e.buddy.blockOffset p
    · subst hq
      rw [Function.update_self]
      refine ⟨fun hk => (by cases hk), ?_⟩
      rintro ⟨i, hi, -, heq, -⟩
      by_cases hip : i = p
      · rw [hip, Function.update_self] at hi
        cases hi
      · rw [Function.update_of_ne hip] at hi
        have hsi := Buddy.blockSize_pos (b := e.buddy) (i := i)
        have hsp := Buddy.blockSize_pos (b := e.buddy) (i := p)
        have hstart : e.buddy.main + e.buddy.blockOffset p =
            e.buddy.main + e.buddy.blockOffset i := heq
        exact absurd (h.eq_of_overlap hi hA (by omega) (by omega)) hip
    · rw [Function.update_of_ne hq, h.blocks]
      refine exists_congr fun i => ?_
      by_cases hip : i = p
      · subst hip
        exact ⟨fun hi => absurd hi.2.2.1 hq, fun hi => by simp at hi⟩
      · rw [Function.update_of_ne hip]

/-- `buddy_malloc` takes the slot of a free node, or finds none in the row of the request. -/
theorem malloc (r : ℕ) :
    (∃ p, Free e.tree.order A p ∧ e.buddy.blockSize p = e.buddy.slotSize r ∧
      e.malloc r = ({ e with tree := e.tree.mark (.ofIndex p) },
        some (e.buddy.main + e.buddy.blockOffset p))) ∨
    e.malloc r = (e, none) ∧ (e.buddy.memorySize < max r 1 ∨
      ∀ p, p ≠ 0 → row p < e.buddy.treeOrder → e.buddy.blockSize p = e.buddy.slotSize r →
        ¬ Free e.tree.order A p) := by
  have hr : (if r = 0 then 1 else r) = max r 1 := by
    split <;> omega
  rw [Embedded.malloc]
  simp only [hr]
  by_cases hbig : e.buddy.memorySize < max r 1
  · exact .inr ⟨if_pos hbig, .inl hbig⟩
  · obtain ⟨hd, hdn, hsize⟩ := h.proper.depthForSize_eq (r := max r 1) (by omega) (by omega)
    rw [Buddy.slotSize_max] at hsize
    have hexp := h.proper.exponent_le
    have hn := h.proper.treeOrder_eq
    rw [if_neg hbig, Nat.mod_eq_of_lt (by omega)]
    rcases h.represents.findFree hd (hdn.trans h.order.ge) with ⟨p, hp, hrow, hfree⟩ | ⟨hp, hno⟩
    · have hin := hfree.inside
      have hrp := (row_lt_iff hin.1).mpr hin.2
      rw [hp, BuddyTree.valid_ofIndex hin.1 hrp, Bool.not_true, if_neg (by simp)]
      rw [h.order] at hrp
      exact .inl ⟨p, hfree, hsize p hrow, by rw [h.proper.addressForPosition_eq hin.1 hrp]⟩
    · rw [hp, BuddyTree.valid_invalid, Bool.not_false, if_pos rfl]
      refine .inr ⟨rfl, .inr fun p hp0 hrp hs => hno p ?_⟩
      have hpow : e.buddy.blockSize p = 2 ^ (e.buddy.unit +
          (e.buddy.treeOrder - 1 - (e.buddy.depthForSize (max r 1) - 1))) := by
        have hrow : row (2 ^ (e.buddy.depthForSize (max r 1) - 1)) =
            e.buddy.depthForSize (max r 1) - 1 := Nat.log_pow one_lt_two _
        have := hsize _ hrow
        rw [Buddy.blockSize, hrow] at this
        rw [hs, this]
      have := Nat.pow_right_injective le_rfl hpow
      omega

/-- What a pointer inside the arena leads to. -/
theorem positionForAddress (ha : e.buddy.accepts ptr = true) :
    (∃ p, e.positionForAddress ptr = .ofIndex p ∧ A p = true ∧ V p = false ∧
      ptr = e.buddy.main + e.buddy.blockOffset p) ∨
    live ptr = none ∧ (e.positionForAddress ptr = .invalid ∨
      ∃ q, e.positionForAddress ptr = .ofIndex q ∧
        e.tree.status (.ofIndex q) ≠ (e.tree.internalPosition (.ofIndex q)).localOffset) := by
  obtain ⟨-, hlo, hhi⟩ := of_decide_eq_true ha
  obtain ⟨x, rfl⟩ := Nat.exists_eq_add_of_le hlo
  have hx : x < e.buddy.memorySize := by omega
  have hspace := hx.trans_le h.space_le
  have hrow := h.proper.row_leaf hspace
  have halign := h.proper.alignment_eq
  -- a live block that starts here has its node above the leaf
  have hlive : live (e.buddy.main + x) ≠ none → ∃ p, A p = true ∧ V p = false ∧
      x = e.buddy.blockOffset p ∧ Under p (e.buddy.leaf x) := fun hne => by
    obtain ⟨k, hk⟩ := Option.ne_none_iff_exists'.mp hne
    obtain ⟨p, hp, hV, hxp, -⟩ := (h.blocks _ _).mp hk
    obtain ⟨hp0, hrp⟩ := h.inside hp
    have hxp : x = e.buddy.blockOffset p := by omega
    exact ⟨p, hp, hV, hxp, hxp ▸ h.proper.under_leaf_start hp0 hrp⟩
  rw [Embedded.positionForAddress, Nat.add_sub_cancel_left]
  by_cases hmod : x % e.buddy.alignment = 0
  · have hdeep : e.deepestPositionForOffset x = .ofIndex (e.buddy.leaf x) := by
      rw [Embedded.deepestPositionForOffset, BuddyTree.leftmostChild, Pos.ofIndex, hrow, h.order,
        Buddy.leaf, halign]
    have hrl : row (e.buddy.leaf x) < e.tree.order := by
      rw [h.order]
      omega
    rw [if_neg (by simpa using hmod), hdeep]
    simp only
    by_cases hcov : Covered A (e.buddy.leaf x)
    · obtain ⟨a, haA, hu⟩ := hcov
      obtain ⟨ha0, hra⟩ := h.inside haA
      rw [e.climb_of_taken h.represents haA hu hrl hrl, h.proper.addressForPosition_eq ha0 hra]
      by_cases heq : e.buddy.blockOffset a = x
      · rw [if_neg (by simp [ofIndex_ne_invalid ha0, heq])]
        exact .inl ⟨a, rfl, haA, (h.live_of_under haA hx hu).1, by rw [heq]⟩
      · rw [if_pos (.inr (by omega))]
        refine .inr ⟨?_, .inl rfl⟩
        by_contra hne
        obtain ⟨p, hp, -, hxp, hpu⟩ := hlive hne
        exact heq (by rw [h.represents.blocks.eq_of_covers haA hp hu hpu, hxp])
    · have hnone : live (e.buddy.main + x) = none := by
        by_contra hne
        obtain ⟨p, hp, -, -, hpu⟩ := hlive hne
        exact hcov ⟨p, hp, hpu⟩
      have hz : statusAt e.tree.order A (e.buddy.leaf x) = 0 := by
        refine (h.represents.blocks.statusAt_eq_zero_iff Buddy.leaf_ne_zero).mpr fun j hj => ?_
        by_contra hne
        obtain ⟨hj0, hrj⟩ := h.inside (by simpa using hne : A j = true)
        have := hj.eq_of_row Buddy.leaf_ne_zero (by omega)
        exact hcov ⟨j, by simpa using hne, this ▸ .refl _⟩
      rcases e.climb_of_untaken h.represents Buddy.leaf_ne_zero
        (fun a ha hu => hcov ⟨a, ha, hu⟩) hrl hrl hz with hc | ⟨q, hc, hq0, hrq, hsq⟩
      · rw [hc, if_pos (.inl rfl)]
        exact .inr ⟨hnone, .inl rfl⟩
      · rw [hc]
        refine .inr ⟨hnone, ?_⟩
        split
        · exact .inl rfl
        · refine .inr ⟨q, rfl, ?_⟩
          rw [h.represents.shows.status hq0 ((row_lt_iff hq0).mp (by omega)), hsq,
            BuddyTree.internalPosition_ofIndex hq0 (by omega)]
          simp only
          omega
  · rw [if_pos hmod]
    refine .inr ⟨?_, .inl rfl⟩
    by_contra hne
    obtain ⟨p, -, -, rfl, -⟩ := hlive hne
    refine hmod (Nat.mod_eq_zero_of_dvd ?_)
    rw [halign]
    exact (Nat.pow_dvd_pow 2 (Nat.le_add_right _ _)).trans Buddy.blockSize_dvd_blockOffset

theorem accepts_of_live (hp : live ptr = some k) : e.buddy.accepts ptr = true := by
  obtain ⟨i, hi, hV, rfl, -⟩ := (h.blocks ptr k).mp hp
  have hle := h.block_le hi hV
  have hpos := Buddy.blockSize_pos (b := e.buddy) (i := i)
  have := h.main_pos
  exact decide_eq_true ⟨by omega, by omega, by omega⟩

/-- `buddy_free` takes out the block that starts at the pointer. Elsewhere it does nothing. -/
theorem free (ptr : ℕ) : (live ptr = none ∧ e.free ptr = e) ∨
    ∃ p, A p = true ∧ V p = false ∧ ptr = e.buddy.main + e.buddy.blockOffset p ∧
      e.free ptr = { e with tree := (e.tree.release (.ofIndex p)).1 } := by
  rw [Embedded.free]
  by_cases ha : e.buddy.accepts ptr = true
  · rw [ha, Bool.not_true, if_neg (by simp)]
    simp only
    rcases h.positionForAddress ha with ⟨p, hp, hA, hV, hptr⟩ | ⟨hnone, hp | ⟨q, hp, hs⟩⟩
    · obtain ⟨hp0, hrp⟩ := h.inside hA
      rw [hp, BuddyTree.valid_ofIndex hp0 (by rw [h.order]; exact hrp), Bool.not_true,
        if_neg (by simp)]
      exact .inr ⟨p, hA, hV, hptr, rfl⟩
    · rw [hp, BuddyTree.valid_invalid, Bool.not_false, if_pos rfl]
      exact .inl ⟨hnone, rfl⟩
    · refine .inl ⟨hnone, ?_⟩
      rw [hp, BuddyTree.release_of_partial hs]
      split <;> rfl
  · refine .inl ⟨?_, if_pos (by simpa using ha)⟩
    by_contra hne
    obtain ⟨k, hk⟩ := Option.ne_none_iff_exists'.mp hne
    exact ha (h.accepts_of_live hk)

theorem free_of_dead (hdead : live ptr = none) : e.free ptr = e := by
  rcases h.free ptr with ⟨-, heq⟩ | ⟨p, hA, hV, hptr, -⟩
  · exact heq
  · rw [(h.blocks _ _).mpr ⟨p, hA, hV, hptr, rfl⟩] at hdead
    cases hdead

/-- `buddy_safe_free` does so only if the block is the slot for a request of the given size. -/
theorem safeFree (ptr r : ℕ) :
    (∃ p, A p = true ∧ V p = false ∧ ptr = e.buddy.main + e.buddy.blockOffset p ∧
      e.buddy.blockSize p / 2 < max r e.buddy.alignment ∧
      max r e.buddy.alignment ≤ e.buddy.blockSize p ∧
      e.safeFree ptr r = ({ e with tree := (e.tree.release (.ofIndex p)).1 }, .success)) ∨
    (∃ k, live ptr = some k ∧
      ¬ (k / 2 < max r e.buddy.alignment ∧ max r e.buddy.alignment ≤ k) ∧
      e.safeFree ptr r = (e, .sizeMismatch)) ∨
    live ptr = none ∧ ∃ s, s ≠ .success ∧ e.safeFree ptr r = (e, s) := by
  have hmax : (if r < e.buddy.alignment then e.buddy.alignment else r) =
      max r e.buddy.alignment := by
    rw [max_def]
    split <;> split <;> omega
  rw [Embedded.safeFree]
  by_cases ha : e.buddy.accepts ptr = true
  · rw [ha, Bool.not_true, if_neg (by simp)]
    simp only [hmax]
    rcases h.positionForAddress ha with ⟨p, hp, hA, hV, hptr⟩ | ⟨hnone, hp | ⟨q, hp, hs⟩⟩
    · obtain ⟨hp0, hrp⟩ := h.inside hA
      have hsize : e.buddy.sizeForDepth (Pos.ofIndex p).depth = e.buddy.blockSize p :=
        h.proper.sizeForDepth_eq hrp
      have hlive : live ptr = some (e.buddy.blockSize p) :=
        (h.blocks _ _).mpr ⟨p, hA, hV, hptr, rfl⟩
      rw [hp, BuddyTree.valid_ofIndex hp0 (by rw [h.order]; exact hrp), Bool.not_true,
        if_neg (by simp), hsize]
      split
      · exact .inr (.inl ⟨_, hlive, by omega, rfl⟩)
      · split
        · exact .inr (.inl ⟨_, hlive, by omega, rfl⟩)
        · refine .inl ⟨p, hA, hV, hptr, by omega, by omega, ?_⟩
          have hrel := (h.represents.release hA).2
          generalize e.tree.release (.ofIndex p) = released at hrel ⊢
          obtain ⟨tree, status⟩ := released
          obtain rfl : status = .success := hrel
          rfl
    · rw [hp, BuddyTree.valid_invalid, Bool.not_false, if_pos rfl]
      exact .inr (.inr ⟨hnone, _, by decide, rfl⟩)
    · rw [hp, BuddyTree.release_of_partial hs]
      refine .inr (.inr ⟨hnone, ?_⟩)
      split
      · exact ⟨_, by decide, rfl⟩
      · split
        · exact ⟨_, by decide, rfl⟩
        · split
          · exact ⟨_, by decide, rfl⟩
          · exact ⟨_, by decide, rfl⟩
  · rw [if_pos (by simpa using ha)]
    refine .inr (.inr ⟨?_, _, by decide, rfl⟩)
    by_contra hne
    obtain ⟨k, hk⟩ := Option.ne_none_iff_exists'.mp hne
    exact ha (h.accepts_of_live hk)

/-- The node of the slot at a distance. -/
theorem exists_slot (hr : max r 1 ≤ e.buddy.memorySize) {o : ℕ}
    (hdvd : e.buddy.slotSize r ∣ o) (hle : o + e.buddy.slotSize r ≤ e.buddy.memorySize) :
    ∃ p, p ≠ 0 ∧ row p < e.buddy.treeOrder ∧ e.buddy.blockOffset p = o ∧
      e.buddy.blockSize p = e.buddy.slotSize r := by
  obtain ⟨hd, hdn, hsize⟩ := h.proper.depthForSize_eq (r := max r 1) hr (by omega)
  rw [Buddy.slotSize_max] at hsize
  generalize e.buddy.depthForSize (max r 1) = depth at hd hdn hsize
  obtain ⟨d, rfl⟩ := Nat.exists_eq_add_of_le' hd
  rw [Nat.add_sub_cancel] at hsize
  obtain ⟨m, rfl⟩ := hdvd
  have hpos := Nat.two_pow_pos d
  have hspos : 0 < e.buddy.slotSize r := Nat.two_pow_pos _
  have hspace : 2 ^ (e.buddy.unit + (e.buddy.treeOrder - 1)) = 2 ^ d * e.buddy.slotSize r := by
    have hrow : row (2 ^ d) = d := Nat.log_pow one_lt_two _
    rw [← hsize _ hrow, Buddy.blockSize, hrow, ← pow_add]
    exact congrArg (2 ^ ·) (by omega)
  have hm : m < 2 ^ d := by
    have hsp := h.space_le
    rw [hspace] at hsp
    have hlt : e.buddy.slotSize r * m < e.buddy.slotSize r * 2 ^ d := by
      rw [mul_comm (e.buddy.slotSize r) (2 ^ d)]
      omega
    exact Nat.lt_of_mul_lt_mul_left hlt
  have hrow : row (2 ^ d + m) = d := by
    rw [row_eq_iff (by omega), pow_succ]
    omega
  refine ⟨2 ^ d + m, by omega, by omega, ?_, hsize _ hrow⟩
  rw [Buddy.blockOffset, hsize _ hrow, hrow, Nat.add_sub_cancel_left, mul_comm]

theorem live_apart_of_free (hp : Free e.tree.order A p) (hq : live q = some k) :
    e.buddy.main + e.buddy.blockOffset p + e.buddy.blockSize p ≤ q ∨
      q + k ≤ e.buddy.main + e.buddy.blockOffset p := by
  obtain ⟨i, hi, -, rfl, rfl⟩ := (h.blocks q k).mp hq
  have := h.apart_of_free hp hi
  omega

/-- What is handed out is a slot that no live block overlaps. -/
theorem malloc_some (hp : (e.malloc r).2 = some ptr) :
    r ≤ e.buddy.slotSize r ∧ e.buddy.main ≤ ptr ∧ e.buddy.slotSize r ∣ ptr - e.buddy.main ∧
      ptr + e.buddy.slotSize r ≤ e.buddy.main + e.buddy.memorySize ∧
      ∀ q k, live q = some k → ptr + e.buddy.slotSize r ≤ q ∨ q + k ≤ ptr := by
  rcases h.malloc r with ⟨p, hfree, hslot, heq⟩ | ⟨heq, -⟩
  · have hle := h.free_block_le hfree
    rw [heq] at hp
    obtain rfl := Option.some.inj hp
    rw [← hslot]
    refine ⟨?_, Nat.le_add_right _ _, ?_, by omega, fun q k hq => h.live_apart_of_free hfree hq⟩
    · rw [hslot, Buddy.slotSize]
      exact (le_max_left r 1).trans ((le_max_left _ _).trans (Nat.le_pow_clog one_lt_two _))
    · rw [Nat.add_sub_cancel_left]
      exact Buddy.blockSize_dvd_blockOffset
  · rw [heq] at hp
    cases hp

/-- A request is turned down only if it is larger than the arena, or if live blocks overlap all
slots. -/
theorem malloc_none_iff : (e.malloc r).2 = none ↔ e.buddy.memorySize < max r 1 ∨
    ∀ o, e.buddy.slotSize r ∣ o → o + e.buddy.slotSize r ≤ e.buddy.memorySize →
      ∃ q k, live q = some k ∧ q < e.buddy.main + o + e.buddy.slotSize r ∧
        e.buddy.main + o < q + k := by
  rcases h.malloc r with ⟨p, hfree, hslot, heq⟩ | ⟨heq, hno⟩
  · have hle := h.free_block_le hfree
    rw [heq, ← hslot]
    refine ⟨fun hnone => absurd hnone (Option.some_ne_none _), ?_⟩
    -- the slot that was found is free
    rintro (hbig | hall)
    · have hmax : max r 1 ≤ e.buddy.slotSize r :=
        (le_max_left _ _).trans (Nat.le_pow_clog one_lt_two _)
      omega
    · obtain ⟨q, k, hq, hlt, hgt⟩ := hall _ Buddy.blockSize_dvd_blockOffset hle
      have := h.live_apart_of_free hfree hq
      omega
  · rw [heq]
    refine ⟨fun _ => ?_, fun _ => rfl⟩
    by_cases hbig : e.buddy.memorySize < max r 1
    · exact .inl hbig
    · refine .inr fun o hdvd hle => ?_
      obtain ⟨p, hp0, hrp, rfl, hps⟩ := h.exists_slot (Nat.not_lt.mp hbig) hdvd hle
      by_contra hnone
      refine (hno.resolve_left hbig) p hp0 hrp hps (h.free_of_apart hp0 hrp ?_ fun q k hq => ?_)
      · rw [hps]
        exact hle
      · by_contra hover
        exact hnone ⟨q, k, hq, by omega, by omega⟩

end Tracks
end Copy2.Memory
