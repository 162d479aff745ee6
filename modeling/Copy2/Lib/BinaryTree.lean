import Mathlib.Data.Nat.Log
import Mathlib.Tactic

/-! # Blocks in a binary tree

The nodes of a binary tree are numbered row by row: the root is 1, and below `i` stand `2 * i`
and `2 * i + 1`. Some nodes are taken. The status of a node says how many rows below it the
highest node stands that is free, and is the height of the node when there is none. -/
namespace Copy2.Lib.BinaryTree

def Under (a b : ℕ) : Prop := ∃ k, b / 2 ^ k = a

variable {a b c i j k h n : ℕ} {A B : ℕ → Bool}

theorem Under.refl (a : ℕ) : Under a a := ⟨0, by simp⟩

theorem Under.trans (hab : Under a b) (hbc : Under b c) : Under a c := by
  obtain ⟨k, rfl⟩ := hab
  obtain ⟨m, rfl⟩ := hbc
  exact ⟨m + k, by rw [pow_add, Nat.div_div_eq_div_mul]⟩

theorem Under.left (h : Under (2 * i) j) : Under i j :=
  Under.trans ⟨1, by omega⟩ h

theorem Under.right (h : Under (2 * i + 1) j) : Under i j :=
  Under.trans ⟨1, by omega⟩ h

/-- Nodes below which a common node stands stand below one another. -/
theorem Under.comparable (ha : Under a c) (hb : Under b c) : Under a b ∨ Under b a := by
  obtain ⟨k, rfl⟩ := ha
  obtain ⟨m, rfl⟩ := hb
  rcases Nat.le_total k m with h | h
  · refine .inr ⟨m - k, ?_⟩
    rw [Nat.div_div_eq_div_mul, ← pow_add, Nat.add_sub_cancel' h]
  · refine .inl ⟨k - m, ?_⟩
    rw [Nat.div_div_eq_div_mul, ← pow_add, Nat.add_sub_cancel' h]

/-- A node above another one, but not that node, is above its parent. -/
theorem Under.half (h : Under i j) (hne : i ≠ j) : Under i (j / 2) := by
  obtain ⟨k, hk⟩ := h
  cases k with
  | zero => exact absurd (by simpa using hk.symm) hne
  | succ k => exact ⟨k, by rw [← hk, pow_succ', Nat.div_div_eq_div_mul]⟩

theorem under_half (j : ℕ) : Under (j / 2) j := ⟨1, by rw [pow_one]⟩

def row (i : ℕ) : ℕ := Nat.log 2 i

theorem row_eq_iff (hi : i ≠ 0) : row i = k ↔ 2 ^ k ≤ i ∧ i < 2 ^ (k + 1) :=
  Nat.log_eq_iff (.inr ⟨one_lt_two, hi⟩)

theorem pow_row_le (hi : i ≠ 0) : 2 ^ row i ≤ i := Nat.pow_log_le_self 2 hi

theorem lt_pow_row (i : ℕ) : i < 2 ^ (row i + 1) := Nat.lt_pow_succ_log_self one_lt_two i

theorem row_lt_iff (hi : i ≠ 0) : row i < n ↔ i < 2 ^ n := Nat.log_lt_iff_lt_pow one_lt_two hi

@[simp] theorem row_one : row 1 = 0 := by simp [row]

theorem row_left (hi : i ≠ 0) : row (2 * i) = row i + 1 := by
  rw [row, mul_comm, Nat.log_mul_base one_lt_two hi]
  rfl

theorem row_right (hi : i ≠ 0) : row (2 * i + 1) = row i + 1 := by
  have hle := pow_row_le hi
  have hlt := lt_pow_row i
  rw [row_eq_iff (by omega)]
  constructor
  · rw [pow_succ]
    omega
  · rw [pow_succ]
    omega

theorem row_div (hi : i / 2 ^ k ≠ 0) : row i = row (i / 2 ^ k) + k := by
  have hpos : 2 ^ k ≤ i := by
    by_contra hlt
    exact hi (Nat.div_eq_of_lt (by omega))
  have hk : k ≤ Nat.log 2 i := Nat.le_log_of_pow_le one_lt_two hpos
  rw [row, row, Nat.log_div_base_pow]
  omega

theorem row_half (hi : 1 < i) : row i = row (i / 2) + 1 := by
  have := row_div (i := i) (k := 1) (by omega)
  simpa using this

theorem Under.row_le (h : Under a b) (ha : a ≠ 0) : row a ≤ row b := by
  obtain ⟨k, rfl⟩ := h
  rw [row_div ha]
  exact Nat.le_add_right _ _

theorem Under.eq_div (h : Under a b) (ha : a ≠ 0) : b / 2 ^ (row b - row a) = a := by
  obtain ⟨k, rfl⟩ := h
  rw [row_div ha, Nat.add_sub_cancel_left]

theorem Under.eq_of_row (h : Under a b) (ha : a ≠ 0) (hr : row b ≤ row a) : b = a := by
  have := h.eq_div ha
  rwa [Nat.sub_eq_zero_of_le hr, pow_zero, Nat.div_one] at this

/-- All nodes stand below the root. -/
theorem under_one (hi : i ≠ 0) : Under 1 i := by
  have hle := pow_row_le hi
  have hlt := lt_pow_row i
  rw [pow_succ] at hlt
  exact ⟨row i, Nat.div_eq_of_lt_le (by omega) (by omega)⟩

/-- Nothing below the one child stands below the other. -/
theorem not_under_both (ha : a ≠ 0) (hb : b ≠ 0) (hrow : row a = row b) (hab : a ≠ b)
    (h : Under a c) : ¬ Under b c := by
  intro h'
  rcases h.comparable h' with hu | hu
  · exact hab (hu.eq_of_row ha hrow.ge).symm
  · exact hab (hu.eq_of_row hb hrow.le)

def above (l r : ℕ) : ℕ := if l = 0 ∧ r = 0 then 0 else min l r + 1

def status (A : ℕ → Bool) : (h i : ℕ) → ℕ
  | 0, _ => 0
  | h + 1, i => if A i then h + 1 else above (status A h (2 * i)) (status A h (2 * i + 1))

theorem above_eq_zero_iff {l r : ℕ} : above l r = 0 ↔ l = 0 ∧ r = 0 := by
  rw [above]
  split <;> simp [*]

theorem above_le_succ_iff {l r : ℕ} : above l r ≤ k + 1 ↔ l ≤ k ∨ r ≤ k := by
  rw [above]
  split <;> omega

theorem status_le : status A h i ≤ h := by
  induction h generalizing i with
  | zero => exact le_rfl
  | succ h ih =>
    rw [status]
    split
    · exact le_rfl
    · exact above_le_succ_iff.mpr (.inl ih)

theorem status_of_taken (hi : A i = true) : status A h i = h := by
  cases h with
  | zero => rfl
  | succ h => rw [status, if_pos hi]

theorem status_of_not_taken (hi : A i = false) :
    status A (h + 1) i = above (status A h (2 * i)) (status A h (2 * i + 1)) := by
  rw [status, hi]
  rfl

theorem status_congr (hAB : ∀ j, Under i j → A j = B j) : status A h i = status B h i := by
  induction h generalizing i with
  | zero => rfl
  | succ h ih =>
    rw [status, status, hAB i (.refl i), ih fun j hj => hAB j hj.left,
      ih fun j hj => hAB j hj.right]

theorem status_of_free (hi : ∀ j, Under i j → A j = false) : status A h i = 0 := by
  induction h generalizing i with
  | zero => rfl
  | succ h ih =>
    rw [status_of_not_taken (hi i (.refl i)), above_eq_zero_iff]
    exact ⟨ih fun j hj => hi j hj.left, ih fun j hj => hi j hj.right⟩

/-- Nothing is taken in the rows below a node of status zero. -/
theorem free_of_status (hs : status A h i = 0) (hk : k < h) (hj : j / 2 ^ k = i) :
    A j = false := by
  induction k generalizing h i with
  | zero =>
    obtain rfl : j = i := by simpa using hj
    obtain ⟨h, rfl⟩ := Nat.exists_eq_succ_of_ne_zero (by omega : h ≠ 0)
    by_contra hne
    rw [status_of_taken (by simpa using hne)] at hs
    cases hs
  | succ k ih =>
    obtain ⟨h, rfl⟩ := Nat.exists_eq_succ_of_ne_zero (by omega : h ≠ 0)
    rw [pow_succ, ← Nat.div_div_eq_div_mul] at hj
    have hi : A i = false := by
      by_contra hne
      rw [status_of_taken (by simpa using hne)] at hs
      cases hs
    rw [Nat.succ_eq_add_one, status_of_not_taken hi, above_eq_zero_iff] at hs
    rcases Nat.mod_two_eq_zero_or_one (j / 2 ^ k) with hm | hm
    · exact ih hs.1 (by omega) (by omega)
    · exact ih hs.2 (by omega) (by omega)

/-- A free node `k` rows below, under no taken one, keeps the status down. -/
theorem status_le_of_free (hk : k < h) (hj : j / 2 ^ k = i)
    (hpath : ∀ m, A (j / 2 ^ m) = true → k < m) (hs : status A (h - k) j = 0) :
    status A h i ≤ k := by
  induction k generalizing h i with
  | zero =>
    obtain rfl : j = i := by simpa using hj
    exact hs.le
  | succ k ih =>
    obtain ⟨h, rfl⟩ := Nat.exists_eq_succ_of_ne_zero (by omega : h ≠ 0)
    have hi : A i = false := by
      by_contra hne
      exact absurd (hpath (k + 1) (by rw [hj]; simpa using hne)) (lt_irrefl _)
    have hchild : status A h (j / 2 ^ k) ≤ k := by
      refine ih (by omega) rfl (fun m hm => (Nat.lt_succ_self k).trans (hpath m hm)) ?_
      rwa [show h - k = h + 1 - (k + 1) by omega]
    rw [pow_succ, ← Nat.div_div_eq_div_mul] at hj
    rw [Nat.succ_eq_add_one, status_of_not_taken hi, above_le_succ_iff]
    rcases Nat.mod_two_eq_zero_or_one (j / 2 ^ k) with hm | hm
    · exact .inl (by rwa [show 2 * i = j / 2 ^ k by omega])
    · exact .inr (by rwa [show 2 * i + 1 = j / 2 ^ k by omega])

/-- The taken nodes of a tree of `n` rows: none of them stands below another. -/
structure Blocks (n : ℕ) (A : ℕ → Bool) : Prop where
  inside : ∀ a, A a = true → a ≠ 0 ∧ a < 2 ^ n
  apart : ∀ a b, A a = true → A b = true → Under a b → a = b

/-- No taken node stands above or below `i`. -/
structure Free (n : ℕ) (A : ℕ → Bool) (i : ℕ) : Prop where
  inside : i ≠ 0 ∧ i < 2 ^ n
  above : ∀ a, A a = true → ¬ Under a i
  below : ∀ a, A a = true → ¬ Under i a

theorem Free.row_lt (h : Free n A i) : row i < n := (row_lt_iff h.inside.1).mpr h.inside.2

def statusAt (n : ℕ) (A : ℕ → Bool) (i : ℕ) : ℕ := status A (n - row i) i

theorem Blocks.none (n : ℕ) : Blocks n fun _ => false := ⟨by simp, by simp⟩

theorem Blocks.take (h : Blocks n A) (hi : Free n A i) : Blocks n (Function.update A i true) where
  inside a ha := by
    by_cases hai : a = i
    · exact hai ▸ hi.inside
    · exact h.inside a (by rwa [Function.update_of_ne hai] at ha)
  apart a b ha hb hab := by
    by_cases hai : a = i
    · by_cases hbi : b = i
      · exact hai.trans hbi.symm
      · rw [Function.update_of_ne hbi] at hb
        exact absurd (hai ▸ hab) (hi.below b hb)
    · rw [Function.update_of_ne hai] at ha
      by_cases hbi : b = i
      · exact absurd (hbi ▸ hab) (hi.above a ha)
      · exact h.apart a b ha (by rwa [Function.update_of_ne hbi] at hb) hab

theorem Blocks.release (h : Blocks n A) : Blocks n (Function.update A i false) := by
  have hsub : ∀ a, Function.update A i false a = true → A a = true := fun a ha => by
    by_cases hai : a = i
    · simp [hai] at ha
    · rwa [Function.update_of_ne hai] at ha
  exact ⟨fun a ha => h.inside a (hsub a ha), fun a b ha hb => h.apart a b (hsub a ha) (hsub b hb)⟩

/-- A node that has been released is free. -/
theorem Blocks.free_of_release (h : Blocks n A) (hi : A i = true) :
    Free n (Function.update A i false) i := by
  have hsub : ∀ a, Function.update A i false a = true → a ≠ i ∧ A a = true := fun a ha => by
    by_cases hai : a = i
    · simp [hai] at ha
    · exact ⟨hai, by rwa [Function.update_of_ne hai] at ha⟩
  refine ⟨h.inside i hi, fun a ha hu => ?_, fun a ha hu => ?_⟩
  · exact (hsub a ha).1 (h.apart a i (hsub a ha).2 hi hu)
  · exact (hsub a ha).1 (h.apart i a hi (hsub a ha).2 hu).symm

theorem statusAt_le : statusAt n A i ≤ n - row i := status_le

theorem statusAt_of_taken (hi : A i = true) : statusAt n A i = n - row i := status_of_taken hi

theorem statusAt_parent (hi : i ≠ 0) (hrow : row i < n) (hA : A i = false) :
    statusAt n A i = above (statusAt n A (2 * i)) (statusAt n A (2 * i + 1)) := by
  rw [statusAt, statusAt, statusAt, row_left hi, row_right hi,
    show n - row i = n - (row i + 1) + 1 by omega, status_of_not_taken hA]

theorem statusAt_congr (hAB : ∀ j, Under i j → A j = B j) : statusAt n A i = statusAt n B i :=
  status_congr hAB

theorem statusAt_of_free (hi : ∀ j, Under i j → A j = false) : statusAt n A i = 0 :=
  status_of_free hi

/-- A node has status zero when nothing is taken at or below it. -/
theorem Blocks.statusAt_eq_zero_iff (h : Blocks n A) (hi : i ≠ 0) :
    statusAt n A i = 0 ↔ ∀ j, Under i j → A j = false := by
  refine ⟨fun hs j hj => ?_, statusAt_of_free⟩
  by_contra hne
  have hjA : A j = true := by simpa using hne
  obtain ⟨hj0, hjn⟩ := h.inside j hjA
  have hrow := (row_lt_iff hj0).mpr hjn
  exact hne (free_of_status hs (by have := hj.row_le hi; omega) (hj.eq_div hi))

/-- A free node keeps the status of every node above it down. -/
theorem Blocks.statusAt_le_of_free (h : Blocks n A) (hi : i ≠ 0) (hu : Under i j)
    (hj : Free n A j) : statusAt n A i ≤ row j - row i := by
  have hrow := (row_lt_iff hj.inside.1).mpr hj.inside.2
  have hle := hu.row_le hi
  refine status_le_of_free (by omega) (hu.eq_div hi) (fun m hm => ?_) ?_
  · exact absurd ⟨m, rfl⟩ (hj.above _ hm)
  · rw [show n - row i - (row j - row i) = n - row j by omega]
    refine (h.statusAt_eq_zero_iff hj.inside.1).mpr fun a ha => ?_
    by_contra hne
    exact hj.below a (by simpa using hne) ha

/-- A taken node stands above the leaf, or is it. -/
def Covered (A : ℕ → Bool) (l : ℕ) : Prop := ∃ a, A a = true ∧ Under a l

theorem exists_leaf (hi : i ≠ 0) (hrow : row i < n) : ∃ l, l ≠ 0 ∧ row l + 1 = n ∧ Under i l := by
  have hpos := Nat.two_pow_pos (n - 1 - row i)
  have hdiv : i * 2 ^ (n - 1 - row i) / 2 ^ (n - 1 - row i) = i := Nat.mul_div_cancel _ hpos
  refine ⟨i * 2 ^ (n - 1 - row i), Nat.mul_ne_zero hi hpos.ne', ?_, ⟨_, hdiv⟩⟩
  rw [row_div (by rw [hdiv]; exact hi), hdiv]
  omega

/-- A node is free if no leaf below it is covered. -/
theorem Blocks.free_iff (h : Blocks n A) (hi : i ≠ 0) (hin : i < 2 ^ n) :
    Free n A i ↔ ∀ l, l ≠ 0 → row l + 1 = n → Under i l → ¬ Covered A l := by
  have hrow := (row_lt_iff hi).mpr hin
  constructor
  · rintro hf l _ _ hu ⟨a, ha, hal⟩
    rcases hal.comparable hu with hai | hia
    · exact hf.above a ha hai
    · exact hf.below a ha hia
  · refine fun hl => ⟨⟨hi, hin⟩, fun a ha hu => ?_, fun a ha hu => ?_⟩
    · obtain ⟨l, hl0, hln, hil⟩ := exists_leaf hi hrow
      exact hl l hl0 hln hil ⟨a, ha, hu.trans hil⟩
    · obtain ⟨ha0, han⟩ := h.inside a ha
      obtain ⟨l, hl0, hln, hal⟩ := exists_leaf ha0 ((row_lt_iff ha0).mpr han)
      exact hl l hl0 hln (hu.trans hal) ⟨a, ha, hal⟩

theorem covered_take {p l : ℕ} :
    Covered (Function.update A p true) l ↔ Covered A l ∨ Under p l := by
  constructor
  · rintro ⟨a, ha, hu⟩
    by_cases hap : a = p
    · exact .inr (hap ▸ hu)
    · exact .inl ⟨a, by rwa [Function.update_of_ne hap] at ha, hu⟩
  · rintro (⟨a, ha, hu⟩ | hu)
    · by_cases hap : a = p
      · exact ⟨p, by rw [Function.update_self], hap ▸ hu⟩
      · exact ⟨a, by rwa [Function.update_of_ne hap], hu⟩
    · exact ⟨p, by rw [Function.update_self], hu⟩

/-- A leaf is covered by one node only. -/
theorem Blocks.eq_of_covers {a b l : ℕ} (h : Blocks n A) (ha : A a = true) (hb : A b = true)
    (hal : Under a l) (hbl : Under b l) : a = b := by
  rcases hal.comparable hbl with hu | hu
  · exact h.apart a b ha hb hu
  · exact (h.apart b a hb ha hu).symm

section change
variable {p : ℕ}

/-- What is not above the changed node keeps its status. -/
theorem statusAt_of_not_above (hAB : ∀ a, a ≠ p → A a = B a) (hj : ¬ Under j p) :
    statusAt n A j = statusAt n B j :=
  statusAt_congr fun a ha => hAB a fun hap => hj (hap ▸ ha)

/-- Nor does anything change above a node that keeps its status. -/
theorem statusAt_of_same (hAB : ∀ a, a ≠ p → A a = B a)
    (hA : ∀ a, Under a p → a ≠ p → A a = false) (hB : ∀ a, Under a p → a ≠ p → B a = false)
    (hu : Under i p) (hi : i ≠ 0) (hn : row i < n) (hs : statusAt n A i = statusAt n B i)
    (hj : Under j i) (hj0 : j ≠ 0) : statusAt n A j = statusAt n B j := by
  obtain ⟨k, hk⟩ := hj
  induction k generalizing i with
  | zero =>
    obtain rfl : i = j := by simpa using hk
    exact hs
  | succ k ih =>
    rw [pow_succ', ← Nat.div_div_eq_div_mul] at hk
    have hq : i / 2 ≠ 0 := by
      rintro hq
      rw [hq, Nat.zero_div] at hk
      exact hj0 hk.symm
    have hup : Under (i / 2) p := (under_half i).trans hu
    have hne : i / 2 ≠ p := by
      rintro rfl
      have := hu.row_le hi
      rw [row_half (by omega)] at this
      omega
    have hrow := row_half (i := i) (by omega)
    refine ih hup hq (by omega) ?_ hk
    rw [statusAt_parent hq (by omega) (hA _ hup hne), statusAt_parent hq (by omega) (hB _ hup hne)]
    -- the other child is not above the changed node
    have hother : ∀ c, c ≠ i → row c = row i → c ≠ 0 → statusAt n A c = statusAt n B c :=
      fun c hc hr hc0 => statusAt_of_not_above hAB fun hcp => not_under_both hc0 hi hr hc hcp hu
    rcases Nat.mod_two_eq_zero_or_one i with hm | hm
    · have hi2 : 2 * (i / 2) = i := by omega
      rw [hi2, hs, hother (i + 1) (by omega) (by rw [← hi2, row_right hq, row_left hq]) (by omega)]
    · have hi2 : 2 * (i / 2) + 1 = i := by omega
      rw [hi2, hs, hother (2 * (i / 2)) (by omega)
        (by rw [← hi2, row_right hq, show (2 * (i / 2) + 1) / 2 = i / 2 by omega, row_left hq])
        (by omega)]

end change

end Copy2.Lib.BinaryTree
