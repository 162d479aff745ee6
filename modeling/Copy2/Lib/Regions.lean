import Mathlib.Algebra.Order.BigOperators.Group.List
import Mathlib.Order.Interval.Finset.Nat
import Mathlib.Tactic

/-! # Regions of an address space

Regions that lie apart, inside a space of `n` addresses, are together no longer than `n`. -/
namespace Copy2.Lib

variable {α : Type*} (lo len : α → ℕ)

/-- No address lies in both regions. -/
def Apart (a b : α) : Prop := lo a + len a ≤ lo b ∨ lo b + len b ≤ lo a

def covered (l : List α) : Finset ℕ :=
  l.foldr (fun a s => Finset.Ico (lo a) (lo a + len a) ∪ s) ∅

variable {lo len}

instance : Std.Symm (Apart lo len) where
  symm _ _ h := Or.symm h

/-- Two regions of a list with an address in common are the same one. -/
theorem eq_of_apart {l : List α} (h : l.Pairwise (Apart lo len)) {a b : α} (ha : a ∈ l)
    (hb : b ∈ l) {x : ℕ} (hxa : lo a ≤ x ∧ x < lo a + len a)
    (hxb : lo b ≤ x ∧ x < lo b + len b) : a = b := by
  by_contra hne
  rcases h.forall ha hb hne with h | h <;> omega

theorem mem_covered {l : List α} {x : ℕ} :
    x ∈ covered lo len l ↔ ∃ a ∈ l, lo a ≤ x ∧ x < lo a + len a := by
  induction l with
  | nil => simp [covered]
  | cons a l ih =>
    change x ∈ Finset.Ico (lo a) (lo a + len a) ∪ covered lo len l ↔ _
    rw [Finset.mem_union, Finset.mem_Ico, ih]
    simp

theorem card_covered {l : List α} (h : l.Pairwise (Apart lo len)) :
    (covered lo len l).card = (l.map len).sum := by
  induction l with
  | nil => rfl
  | cons a l ih =>
    obtain ⟨ha, hl⟩ := List.pairwise_cons.mp h
    have hdisj : Disjoint (Finset.Ico (lo a) (lo a + len a)) (covered lo len l) := by
      refine Finset.disjoint_left.mpr fun x hx hx' => ?_
      obtain ⟨b, hb, hlo, hhi⟩ := mem_covered.mp hx'
      have hx := Finset.mem_Ico.mp hx
      rcases ha b hb with h | h <;> omega
    change (Finset.Ico (lo a) (lo a + len a) ∪ covered lo len l).card = _
    rw [Finset.card_union_of_disjoint hdisj, ih hl, Nat.card_Ico, List.map_cons, List.sum_cons]
    omega

theorem sum_le_of_apart {l : List α} {n : ℕ} (hin : ∀ a ∈ l, lo a + len a ≤ n)
    (h : l.Pairwise (Apart lo len)) : (l.map len).sum ≤ n := by
  rw [← card_covered h]
  have hsub : covered lo len l ⊆ Finset.range n := fun x hx => by
    obtain ⟨a, ha, -, hhi⟩ := mem_covered.mp hx
    exact Finset.mem_range.mpr (hhi.trans_le (hin a ha))
  simpa using Finset.card_le_card hsub

end Copy2.Lib
