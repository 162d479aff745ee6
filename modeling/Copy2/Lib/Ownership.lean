import Mathlib.Logic.Function.Basic
import Mathlib.Tactic

/-! # Owned addresses

Holders own addresses of an allocator: an owned address is allocated, and has one
owner. Allocation and release keep it so. -/
namespace Copy2.Lib

variable {κ π : Type*}

structure Owns (data : κ → Option π) (allocated : π → Bool) : Prop where
  allocated : ∀ x p, data x = some p → allocated p = true
  injective : ∀ x y p, data x = some p → data y = some p → x = y

namespace Owns
variable {data : κ → Option π} {allocated : π → Bool} {x y : κ} {p : π}

theorem of_none (h : ∀ x, data x = none) : Owns data allocated :=
  ⟨fun x p hp => by simp [h x] at hp, fun x y p hp => by simp [h x] at hp⟩

theorem ne_of_ne (h : Owns data allocated) (hxy : x ≠ y) (hx : data x = some p) :
    data y ≠ some p := fun hy => hxy (h.injective x y p hx hy)

theorem ne_of_free (h : Owns data allocated) (hp : allocated p = false) (x : κ) :
    data x ≠ some p := fun hx => by simp [h.allocated x p hx] at hp

variable [DecidableEq κ] [DecidableEq π]

/-- An address that nobody has is given to a holder. -/
theorem alloc (h : Owns data allocated) (hp : allocated p = false) :
    Owns (Function.update data x (some p)) (Function.update allocated p true) where
  allocated y q hq := by
    by_cases hqp : q = p
    · simp [hqp]
    · rw [Function.update_of_ne hqp]
      by_cases hy : y = x
      · subst hy
        simp only [Function.update_self, Option.some.injEq] at hq
        exact absurd hq.symm hqp
      · exact h.allocated y q (by simpa [hy] using hq)
  injective y z q hy hz := by
    by_cases hqp : q = p
    · subst hqp
      have hown : ∀ y, Function.update data x (some q) y = some q → y = x := by
        intro y hy
        by_contra hne
        rw [Function.update_of_ne hne] at hy
        exact h.ne_of_free hp y hy
      rw [hown y hy, hown z hz]
    · have hown : ∀ y, Function.update data x (some p) y = some q → data y = some q := by
        intro y hy
        by_cases hyx : y = x
        · subst hyx
          simp only [Function.update_self, Option.some.injEq] at hy
          exact absurd hy.symm hqp
        · rwa [Function.update_of_ne hyx] at hy
      exact h.injective y z q (hown y hy) (hown z hz)

/-- A holder gives its address back. -/
theorem free (h : Owns data allocated) (hx : data x = some p) :
    Owns (Function.update data x none) (Function.update allocated p false) where
  allocated y q hq := by
    have hyx : y ≠ x := fun he => by simp [he] at hq
    rw [Function.update_of_ne hyx] at hq
    have hqp : q ≠ p := fun he => hyx (h.injective y x p (he ▸ hq) hx)
    rw [Function.update_of_ne hqp]
    exact h.allocated y q hq
  injective y z q hy hz := by
    have hyx : y ≠ x := fun he => by simp [he] at hy
    have hzx : z ≠ x := fun he => by simp [he] at hz
    rw [Function.update_of_ne hyx] at hy
    rw [Function.update_of_ne hzx] at hz
    exact h.injective y z q hy hz

end Owns

/-- Owners and allocator agree: besides, every allocated address has an owner. -/
structure OwnsAll (data : κ → Option π) (allocated : π → Bool) : Prop where
  owns : Owns data allocated
  owned : ∀ p, allocated p = true → ∃ x, data x = some p

namespace OwnsAll
variable {data : κ → Option π} {allocated : π → Bool} {x : κ} {p : π}

theorem of_none (h : ∀ x, data x = none) (hfree : ∀ p, allocated p = false) :
    OwnsAll data allocated :=
  ⟨.of_none h, fun p hp => by simp [hfree p] at hp⟩

/-- An address is allocated exactly if one holder has it, and no other. -/
theorem allocated_iff (h : OwnsAll data allocated) :
    allocated p = true ↔ ∃! x, data x = some p := by
  constructor
  · intro hp
    obtain ⟨x, hx⟩ := h.owned p hp
    exact ⟨x, hx, fun y hy => h.owns.injective y x p hy hx⟩
  · rintro ⟨x, hx, -⟩
    exact h.owns.allocated x p hx

variable [DecidableEq κ] [DecidableEq π]

theorem alloc (h : OwnsAll data allocated) (hx : data x = none) (hp : allocated p = false) :
    OwnsAll (Function.update data x (some p)) (Function.update allocated p true) where
  owns := h.owns.alloc hp
  owned q hq := by
    by_cases hqp : q = p
    · exact ⟨x, by simp [hqp]⟩
    · rw [Function.update_of_ne hqp] at hq
      obtain ⟨y, hy⟩ := h.owned q hq
      have hyx : y ≠ x := fun he => by simp [he, hx] at hy
      exact ⟨y, by rw [Function.update_of_ne hyx, hy]⟩

theorem free (h : OwnsAll data allocated) (hx : data x = some p) :
    OwnsAll (Function.update data x none) (Function.update allocated p false) where
  owns := h.owns.free hx
  owned q hq := by
    have hqp : q ≠ p := fun he => by simp [he] at hq
    rw [Function.update_of_ne hqp] at hq
    obtain ⟨y, hy⟩ := h.owned q hq
    have hyx : y ≠ x := fun he => hqp (Option.some.inj (hy.symm.trans (he ▸ hx)))
    exact ⟨y, by rw [Function.update_of_ne hyx, hy]⟩

end OwnsAll
end Copy2.Lib
