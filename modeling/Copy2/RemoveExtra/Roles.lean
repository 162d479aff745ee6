import Copy2.RemoveExtra.Tasks

/-! # Which task an entry gets

The trees alone decide it: what `processDir` reaches and what it gives away for removal. -/
namespace Copy2.RemoveExtra
open Crawl

namespace Tree
variable {T : Tree} {present : Finset Path} {x : String} {p : Path} {t : UInt8}

theorem tail_mem (h : x :: p ∈ T.entries) : p = [] ∨ p ∈ T.entries ∧ T.type p = DT_DIR :=
  or_iff_not_imp_left.mpr (T.parent x p h)

theorem mem_readSet (hp : present ⊆ T.entries) :
    (x, t) ∈ T.readSet present p ↔ x :: p ∈ present ∧ T.type (x :: p) = t := by
  rw [readSet, Finset.mem_filter, readdir, Finset.mem_union, Finset.mem_image]
  constructor
  · rintro ⟨hd | ⟨q, hq, he⟩, hdot⟩
    · rcases Finset.mem_insert.mp hd with hd | hd
      · obtain ⟨rfl, -⟩ := Prod.mk.inj hd
        simp [isDot] at hdot
      · obtain ⟨rfl, -⟩ := Prod.mk.inj (Finset.mem_singleton.mp hd)
        simp [isDot] at hdot
    · obtain ⟨hmem, hne, rfl⟩ := Finset.mem_filter.mp hq
      obtain ⟨y, q, rfl⟩ := List.exists_cons_of_ne_nil hne
      obtain ⟨rfl, rfl⟩ := Prod.mk.inj he
      exact ⟨hmem, rfl⟩
  · rintro ⟨hmem, rfl⟩
    exact ⟨.inr ⟨x :: p, Finset.mem_filter.mpr ⟨hmem, by simp, rfl⟩, rfl⟩,
      T.notDot x p (hp hmem)⟩

end Tree

namespace Roots
variable {R : Roots} {x : String} {p q : Path} {c : Call}

def removalOf (R : Roots) (q : Path) : Call :=
  if R.dst.type q = DT_DIR then .recursiveRemove else .unlink

def Common (R : Roots) (q : Path) : Prop :=
  q ∈ R.src.entries ∧ R.src.type q = R.dst.type q

instance : Decidable (R.Common q) := inferInstanceAs (Decidable (_ ∧ _))

def role (R : Roots) : Path → Option Call
  | [] => some .processDir
  | x :: p =>
    match R.role p with
    | some .processDir =>
      if R.Common (x :: p) then
        if R.dst.type (x :: p) = DT_DIR then some .processDir else none
      else some (R.removalOf (x :: p))
    | some .recursiveRemove => some (R.removalOf (x :: p))
    | _ => none

theorem removalOf_ne : R.removalOf q ≠ .processDir := by
  rw [removalOf]
  split <;> simp

/-- A task other than that of the roots was made by one that has a task group. -/
theorem role_parent (h : R.role (x :: p) = some c) :
    R.role p = some .processDir ∨ R.role p = some .recursiveRemove := by
  rw [role] at h
  split at h
  · exact .inl ‹_›
  · exact .inr ‹_›
  · cases h

theorem type_of_role (h : R.role q = some c) (hq : q ≠ []) :
    R.dst.type q = DT_DIR ↔ c ≠ .unlink := by
  obtain ⟨x, p, rfl⟩ := List.exists_cons_of_ne_nil hq
  rw [role] at h
  split at h
  · split at h
    · split at h
      · obtain rfl := Option.some.inj h
        simpa
      · cases h
    · obtain rfl := Option.some.inj h
      rw [removalOf]
      split <;> simp [*]
  · obtain rfl := Option.some.inj h
    rw [removalOf]
    split <;> simp [*]
  · cases h

/-- A directory that `processDir` reaches is in the source too. -/
theorem common_of_role (h : R.role q = some .processDir) (hq : q ≠ []) : R.Common q := by
  obtain ⟨x, p, rfl⟩ := List.exists_cons_of_ne_nil hq
  rw [role] at h
  split at h
  · split at h
    · assumption
    · exact absurd (Option.some.inj h) removalOf_ne
  · exact absurd (Option.some.inj h) removalOf_ne
  · cases h

/-- The tasks that `processDir` makes. -/
theorem mem_processDir_todo {s : State} (hp : R.role p = some .processDir)
    (hpres : s.present ⊆ R.dst.entries) :
    (c, x) ∈ (R.toProcessDirs s p).image (Call.processDir, ·) ∪ (R.result s p).image removal ↔
      x :: p ∈ s.present ∧ R.role (x :: p) = some c := by
  have hsrc : ∀ t, (x, t) ∈ R.srcSet p ↔ x :: p ∈ R.src.entries ∧ R.src.type (x :: p) = t :=
    fun t => Tree.mem_readSet (Finset.Subset.refl _)
  have hdst : ∀ t, (x, t) ∈ R.dstSet s p ↔ x :: p ∈ s.present ∧ R.dst.type (x :: p) = t :=
    fun t => Tree.mem_readSet hpres
  have hdirs : ∀ y, y ∈ R.toProcessDirs s p ↔
      (y, DT_DIR) ∈ R.dstSet s p ∧ (y, DT_DIR) ∈ R.srcSet p := fun y => by
    simp [toProcessDirs, srcDirs]
  have hproc : (c, x) ∈ (R.toProcessDirs s p).image (Call.processDir, ·) ↔ x :: p ∈ s.present ∧
      R.Common (x :: p) ∧ R.dst.type (x :: p) = DT_DIR ∧ c = .processDir := by
    rw [Finset.mem_image]
    constructor
    · rintro ⟨y, hy, he⟩
      obtain ⟨rfl, rfl⟩ := Prod.mk.inj he
      obtain ⟨hd, hs⟩ := (hdirs _).mp hy
      obtain ⟨hx, ht⟩ := (hdst _).mp hd
      obtain ⟨hx', ht'⟩ := (hsrc _).mp hs
      exact ⟨hx, ⟨hx', ht'.trans ht.symm⟩, ht, rfl⟩
    · rintro ⟨hx, ⟨hx', ht'⟩, ht, rfl⟩
      exact ⟨x, (hdirs x).mpr ⟨(hdst _).mpr ⟨hx, ht⟩, (hsrc _).mpr ⟨hx', ht'.trans ht⟩⟩, rfl⟩
  have hresult : (c, x) ∈ (R.result s p).image removal ↔
      x :: p ∈ s.present ∧ ¬ R.Common (x :: p) ∧ c = R.removalOf (x :: p) := by
    simp only [result, Finset.mem_image, Finset.mem_sdiff, Prod.exists, removal, Prod.mk.injEq]
    constructor
    · rintro ⟨y, t, ⟨hd, hs⟩, rfl, rfl⟩
      obtain ⟨hx, rfl⟩ := (hdst _).mp hd
      exact ⟨hx, fun hc => hs ((hsrc _).mpr hc), rfl⟩
    · rintro ⟨hx, hc, rfl⟩
      exact ⟨x, _, ⟨(hdst _).mpr ⟨hx, rfl⟩, fun hs => hc ((hsrc _).mp hs)⟩, rfl, rfl⟩
  rw [Finset.mem_union, hproc, hresult, role, hp]
  by_cases hc : R.Common (x :: p)
  · by_cases ht : R.dst.type (x :: p) = DT_DIR <;> simp [hc, ht, eq_comm]
  · simp [hc, eq_comm]

/-- The tasks that `recursiveRemove` makes. -/
theorem mem_recursiveRemove_todo {s : State} (hp : R.role p = some .recursiveRemove)
    (hpres : s.present ⊆ R.dst.entries) :
    (c, x) ∈ (R.dstSet s p).image removal ↔
      x :: p ∈ s.present ∧ R.role (x :: p) = some c := by
  have hdst : ∀ t, (x, t) ∈ R.dstSet s p ↔ x :: p ∈ s.present ∧ R.dst.type (x :: p) = t :=
    fun t => Tree.mem_readSet hpres
  rw [role, hp]
  simp only [Finset.mem_image, Prod.exists, removal, Prod.mk.injEq, Option.some.injEq]
  constructor
  · rintro ⟨y, t, hd, rfl, rfl⟩
    obtain ⟨hx, rfl⟩ := (hdst _).mp hd
    exact ⟨hx, rfl⟩
  · rintro ⟨hx, rfl⟩
    exact ⟨x, _, (hdst _).mpr ⟨hx, rfl⟩, rfl, rfl⟩

theorem keeps_cons (h : x :: p ∈ R.dst.entries) :
    R.Keeps (x :: p) ↔ R.Common (x :: p) ∧ (p = [] ∨ R.Keeps p) := by
  have hp := Tree.tail_mem h
  constructor
  · rintro ⟨hc, ha⟩
    refine ⟨hc, or_iff_not_imp_left.mpr fun hne => ?_⟩
    obtain ⟨hsrc, ht⟩ := ha p (List.suffix_cons x p) (by simp) hne
    refine ⟨⟨hsrc, ht.trans (hp.resolve_left hne).2.symm⟩, fun a hap hne' => ?_⟩
    refine ha a (hap.trans (List.suffix_cons x p)) fun he => ?_
    have hlen := hap.length_le
    rw [he, List.length_cons] at hlen
    omega
  · rintro ⟨hc, hk⟩
    refine ⟨hc, fun a ha hne hnil => ?_⟩
    have hap : a <:+ p := (List.suffix_cons_iff.mp ha).resolve_left hne
    rcases hk with rfl | ⟨⟨hsrc, ht⟩, hk⟩
    · exact absurd (List.suffix_nil.mp hap) hnil
    · by_cases he : a = p
      · subst he
        exact ⟨hsrc, ht.trans (hp.resolve_left hnil).2⟩
      · exact hk a hap he hnil

/-- The task of a directory is not left out. -/
theorem type_of_role_none (h : q ∈ R.dst.entries) (hr : R.role q = none) :
    R.dst.type q ≠ DT_DIR := by
  induction q with
  | nil => cases hr
  | cons x p ih =>
    have hp := Tree.tail_mem h
    have hne : ∀ c, R.role p = some c → R.dst.type p = DT_DIR → p ≠ [] → c ≠ .unlink :=
      fun c hc ht hnil => (type_of_role hc hnil).mp ht
    rw [role] at hr
    cases hrp : R.role p with
    | none =>
      rcases hp with rfl | ⟨hp, ht⟩
      · cases hrp
      · exact absurd ht (ih hp hrp)
    | some c =>
      rw [hrp] at hr
      cases c with
      | processDir =>
        by_cases hc : R.Common (x :: p)
        · simpa [hc] using hr
        · simp [hc] at hr
      | recursiveRemove => simp at hr
      | unlink =>
        rcases hp with rfl | ⟨hp, ht⟩
        · simp [role] at hrp
        · exact absurd rfl (hne _ hrp ht fun he => R.dst.nil_notMem (he ▸ hp))

/-- An entry stays if and only if no removal is its task. -/
theorem keeps_iff (h : q ∈ R.dst.entries) :
    R.Keeps q ↔ R.role q = none ∨ R.role q = some .processDir := by
  induction q with
  | nil => exact absurd h R.dst.nil_notMem
  | cons x p ih =>
    have hstay : R.role p = some .processDir → (R.Common (x :: p) ↔
        R.role (x :: p) = none ∨ R.role (x :: p) = some .processDir) := fun hp => by
      rw [role, hp]
      by_cases hc : R.Common (x :: p)
      · by_cases ht : R.dst.type (x :: p) = DT_DIR <;> simp [hc, ht]
      · simp [hc, removalOf_ne]
    rw [keeps_cons h]
    rcases Tree.tail_mem h with rfl | ⟨hp, ht⟩
    · rw [← hstay rfl]
      simp
    · have hne : p ≠ [] := fun he => R.dst.nil_notMem (he ▸ hp)
      rw [ih hp]
      cases hr : R.role p with
      | none => exact absurd ht (type_of_role_none hp hr)
      | some c =>
        cases c with
        | processDir => simp [hstay hr, hne]
        | recursiveRemove => simp [role, hr, hne, removalOf_ne]
        | unlink => exact absurd rfl ((type_of_role hr hne).mp ht)

end Roots
end Copy2.RemoveExtra
