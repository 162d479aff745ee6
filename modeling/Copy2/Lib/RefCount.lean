import Copy2.Lib.Count

/-! # Counting references

Holders refer to objects, at most one each. The number of references to an object changes by
what one holder lets go of and by what it takes. -/
namespace Copy2.Lib

variable {ι ρ : Type*} [Fintype ι] [DecidableEq ρ]

/-- How many holders refer to `r`. -/
def refs (target : ι → Option ρ) (r : ρ) : ℕ := count fun i => decide (target i = some r)

variable {target : ι → Option ρ} {r : ρ}

theorem refs_pos {i : ι} (h : target i = some r) : 0 < refs target r :=
  count_pos (i := i) (decide_eq_true h)

theorem refs_eq_zero : refs target r = 0 ↔ ∀ i, target i ≠ some r := by
  rw [refs, count_eq_zero]
  simp

theorem exists_of_refs_pos (h : 0 < refs target r) : ∃ i, target i = some r := by
  by_contra hnone
  push Not at hnone
  exact h.ne' (refs_eq_zero.mpr hnone)

theorem refs_le_card : refs target r ≤ Fintype.card ι := count_le_card _

variable [DecidableEq ι]

/-- One holder lets go of what it refers to and takes a new reference. -/
theorem refs_update (i : ι) (x : Option ρ) :
    refs (Function.update target i x) r + (if target i = some r then 1 else 0) =
      refs target r + (if x = some r then 1 else 0) := by
  have hupdate : (fun j => decide (Function.update target i x j = some r)) =
      Function.update (fun j => decide (target j = some r)) i (decide (x = some r)) := by
    funext j
    by_cases hj : j = i
    · subst hj
      simp
    · simp [hj]
  rw [refs, refs, hupdate]
  generalize hp : (fun j => decide (target j = some r)) = p
  have hmark : p i = decide (target i = some r) := by rw [← hp]
  by_cases hold : target i = some r
  · rw [decide_eq_true hold] at hmark
    by_cases hnew : x = some r
    · rw [if_pos hold, if_pos hnew, decide_eq_true hnew, ← hmark, Function.update_eq_self]
    · rw [if_pos hold, if_neg hnew, decide_eq_false hnew, count_update_false hmark]
      rfl
  · rw [decide_eq_false hold] at hmark
    by_cases hnew : x = some r
    · rw [if_neg hold, if_pos hnew, decide_eq_true hnew, count_update_true hmark]
    · rw [if_neg hold, if_neg hnew, decide_eq_false hnew, ← hmark, Function.update_eq_self]

end Copy2.Lib
