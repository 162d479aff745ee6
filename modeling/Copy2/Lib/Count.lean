import Mathlib.Data.Fintype.Card
import Mathlib.Data.Fintype.Prod
import Mathlib.Algebra.BigOperators.Group.Finset.Basic
import Mathlib.Tactic

/-! # Counting the marked positions of a finite table

How many positions of a table carry a mark, and what one update does to that
number. -/
namespace Copy2.Lib

variable {ι : Type*} [Fintype ι]

def count (p : ι → Bool) : ℕ := (Finset.univ.filter fun i => p i = true).card

theorem count_eq_zero {p : ι → Bool} : count p = 0 ↔ ∀ i, p i = false := by
  simp [count, Finset.filter_eq_empty_iff]

theorem count_pos {p : ι → Bool} {i : ι} (h : p i = true) : 0 < count p := by
  refine Finset.card_pos.mpr ⟨i, ?_⟩
  simp [h]

theorem count_mono {p q : ι → Bool} (h : ∀ i, p i = true → q i = true) : count p ≤ count q := by
  refine Finset.card_le_card fun i hi => ?_
  simp only [Finset.mem_filter, Finset.mem_univ, true_and] at hi ⊢
  exact h i hi

theorem count_le_card (p : ι → Bool) : count p ≤ Fintype.card ι :=
  Finset.card_le_univ _

variable [DecidableEq ι]

theorem count_update_true {p : ι → Bool} {i : ι} (h : p i = false) :
    count (Function.update p i true) = count p + 1 := by
  have hset : (Finset.univ.filter fun j => Function.update p i true j = true) =
      insert i (Finset.univ.filter fun j => p j = true) := by
    ext j
    by_cases hj : j = i <;> simp [hj]
  rw [count, hset, Finset.card_insert_of_notMem (by simp [h])]
  rfl

theorem count_update_false {p : ι → Bool} {i : ι} (h : p i = true) :
    count (Function.update p i false) + 1 = count p := by
  have hset : (Finset.univ.filter fun j => Function.update p i false j = true) =
      (Finset.univ.filter fun j => p j = true).erase i := by
    ext j
    by_cases hj : j = i <;> simp [hj]
  rw [count, hset, Finset.card_erase_add_one (by simp [h])]
  rfl

omit [DecidableEq ι] in
/-- Clearing a mark takes one position away, wherever the other marks stay. -/
theorem count_lt_of_cleared {p q : ι → Bool} {i : ι} (hpq : ∀ j, q j = true → p j = true)
    (hp : p i = true) (hq : q i = false) : count q < count p := by
  refine Finset.card_lt_card ⟨fun j hj => ?_, fun hsub => ?_⟩
  · simp only [Finset.mem_filter, Finset.mem_univ, true_and] at hj ⊢
    exact hpq j hj
  · have hi : i ∈ Finset.univ.filter fun j => q j = true := hsub (by simpa using hp)
    simp [hq] at hi

/-- Two positions more are marked. -/
theorem count_add_two_le {p q : ι → Bool} {a b : ι} (hpq : ∀ j, p j = true → q j = true)
    (hab : a ≠ b) (ha : p a = false) (hb : p b = false) (hqa : q a = true) (hqb : q b = true) :
    count p + 2 ≤ count q := by
  have hone := count_update_true ha
  have hlt : count (Function.update p a true) < count q := by
    refine count_lt_of_cleared (i := b) (fun j hj => ?_) hqb ?_
    · by_cases hja : j = a
      · rw [hja, hqa]
      · rw [Function.update_of_ne hja] at hj
        exact hpq j hj
    · rw [Function.update_of_ne hab.symm, hb]
  omega

/-- When one value of a table changes, the sum changes by it. -/
theorem sum_add_of_one {M : Type*} [AddCommMonoid M] {f g : ι → M} (i : ι)
    (h : ∀ j, j ≠ i → g j = f j) : ∑ j, g j + f i = ∑ j, f j + g i := by
  have hrest : ∑ j ∈ Finset.univ.erase i, g j = ∑ j ∈ Finset.univ.erase i, f j :=
    Finset.sum_congr rfl fun j hj => h j (Finset.ne_of_mem_erase hj)
  rw [← Finset.sum_erase_add _ g (Finset.mem_univ i), ← Finset.sum_erase_add _ f (Finset.mem_univ i),
    hrest, add_right_comm]

end Copy2.Lib
