import Copy2.RemoveExtra.Roles

/-! # What is left after pace-removeextra -/
namespace Copy2.RemoveExtra
open Crawl Lib

variable {R : Roots} {s t : State} {x : String} {p q : Path} {c c' : Call}

namespace Task

/-- What the task of a directory says of that of its entry `x`, a call of `c`. -/
def Below (x : String) (c : Call) : Task → Task → Prop
  | .absent, v | .created, v => v = .absent
  | .grouped todo, v => (c, x) ∈ todo ↔ v = .absent
  | .ended, v => v = .ended

variable {u v w : Task}

/-- The task of the entry goes on. -/
theorem Below.goesOn (h : Below x c u v) (hmade : v ≠ .absent) (hrun : v ≠ .ended)
    (hw : w ≠ .absent) : Below x c u w := by
  cases u with
  | absent | created => exact absurd h hmade
  | grouped todo => exact iff_of_false (fun hm => hmade (h.mp hm)) hw
  | ended => exact absurd h hrun

end Task

@[simp] theorem setTask_present (c : Call) (p : Path) (u : Task) :
    (s.setTask c p u).present = s.present := rfl

theorem setTask_task (c : Call) (p : Path) (u : Task) (c' : Call) (q : Path) :
    (s.setTask c p u).task c' q = if c' = c ∧ q = p then u else s.task c' q := rfl

structure Inv (R : Roots) (s : State) : Prop where
  made : ∀ c q, s.task c q ≠ .absent → R.role q = some c ∧ (q = [] ∨ q ∈ R.dst.entries)
  below : ∀ x p c c', x :: p ∈ R.dst.entries → R.role p = some c → R.role (x :: p) = some c' →
    Task.Below x c' (s.task c p) (s.task c' (x :: p))
  todo : ∀ c p todo, s.task c p = .grouped todo → ∀ d ∈ todo,
    d.2 :: p ∈ R.dst.entries ∧ R.role (d.2 :: p) = some d.1
  group : ∀ p todo, s.task .unlink p ≠ .grouped todo
  present : ∀ q, q ∈ s.present ↔ q ∈ R.dst.entries ∧
    ∀ c, R.role q = some c → c ≠ .processDir → s.task c q ≠ .ended
  root : s.task .processDir [] ≠ .absent

namespace Inv

theorem init : Inv R R.initial where
  made c q h := by
    by_cases hq : c = .processDir ∧ q = []
    · exact ⟨by rw [hq.1, hq.2, Roots.role], .inl hq.2⟩
    · simp [Roots.initial, hq] at h
  below x p c c' hx hp hq := by
    by_cases hr : c = .processDir ∧ p = [] <;> simp [Roots.initial, hr, Task.Below]
  todo c p todo h := by
    by_cases hq : c = .processDir ∧ p = [] <;> simp [Roots.initial, hq] at h
  group p todo h := by simp [Roots.initial] at h
  present q := by
    refine (and_iff_left fun c _ _ h => ?_).symm
    by_cases hq : c = .processDir ∧ q = [] <;> simp [Roots.initial, hq] at h
  root := by simp [Roots.initial]

variable (h : Inv R s)
include h

theorem present_subset : s.present ⊆ R.dst.entries := fun q hq => ((h.present q).mp hq).1

/-- Nothing removes an entry before its task is over. -/
theorem mem_present (hrun : s.task c p ≠ .ended) (hmade : s.task c p ≠ .absent) (hp : p ≠ []) :
    p ∈ s.present := by
  obtain ⟨hr, hin⟩ := h.made c p hmade
  refine (h.present p).mpr ⟨hin.resolve_left hp, fun c' hc' _ => ?_⟩
  obtain rfl := Option.some.inj (hr.symm.trans hc')
  exact hrun

/-- Entries below a task that has made none have no task. -/
theorem child_absent (hcreated : s.task c p = .created) (hx : x :: p ∈ R.dst.entries)
    (hc' : R.role (x :: p) = some c') : s.task c' (x :: p) = .absent := by
  have hb := h.below x p c c' hx (h.made c p (by simp [hcreated])).1 hc'
  rwa [hcreated] at hb

/-- The task starts its group. -/
theorem grouped {todo : Finset (Call × String)} (hcreated : s.task c p = .created)
    (hc : c ≠ .unlink)
    (htodo : ∀ c' x, (c', x) ∈ todo ↔ x :: p ∈ s.present ∧ R.role (x :: p) = some c') :
    Inv R (s.setTask c p (.grouped todo)) := by
  have hmade := h.made c p (by simp [hcreated])
  refine ⟨fun c' q hq => ?_, fun y q c₁ c₂ hy h₁ h₂ => ?_, fun c' q todo' hq d hd => ?_,
    fun q todo' hq => ?_, fun q => ?_, ?_⟩
  · by_cases he : c' = c ∧ q = p
    · exact he.1 ▸ he.2 ▸ hmade
    · exact h.made c' q (by rwa [setTask_task, if_neg he] at hq)
  · have hb := h.below y q c₁ c₂ hy h₁ h₂
    rw [setTask_task, setTask_task]
    by_cases he : c₁ = c ∧ q = p
    · obtain ⟨rfl, rfl⟩ := he
      have habs := h.child_absent hcreated hy h₂
      rw [if_pos ⟨rfl, rfl⟩, if_neg (by simp), habs]
      refine iff_of_true ((htodo c₂ y).mpr ⟨(h.present _).mpr ⟨hy, fun c₃ h₃ _ => ?_⟩, h₂⟩) rfl
      obtain rfl := Option.some.inj (h₂.symm.trans h₃)
      simp [habs]
    · rw [if_neg he]
      split
      · next he' =>
        obtain ⟨rfl, rfl⟩ := he'
        exact hb.goesOn (by simp [hcreated]) (by simp [hcreated]) (by simp)
      · exact hb
  · rw [setTask_task] at hq
    split at hq
    · next he =>
      obtain rfl := Task.grouped.inj hq
      obtain ⟨hx, hr⟩ := (htodo d.1 d.2).mp hd
      exact he.2 ▸ ⟨h.present_subset hx, hr⟩
    · exact h.todo c' q todo' hq d hd
  · rw [setTask_task, if_neg fun he => hc he.1.symm] at hq
    exact h.group q todo' hq
  · rw [setTask_present, h.present]
    refine and_congr_right fun _ => forall_congr' fun c' => ?_
    rw [setTask_task]
    by_cases he : c' = c ∧ q = p
    · simp [he.1, he.2, hcreated]
    · rw [if_neg he]
  · rw [setTask_task]
    split
    · simp
    · exact h.root

/-- A task that is still to be made has not been made. -/
theorem todo_absent {todo : Finset (Call × String)} (hg : s.task c p = .grouped todo)
    (hd : (c', x) ∈ todo) : s.task c' (x :: p) = .absent := by
  obtain ⟨hx, hr⟩ := h.todo c p todo hg _ hd
  have hb := h.below x p c c' hx (h.made c p (by simp [hg])).1 hr
  rw [hg] at hb
  exact hb.mp hd

/-- The task makes one of its tasks. -/
theorem spawned {todo : Finset (Call × String)} (hg : s.task c p = .grouped todo)
    (hd : (c', x) ∈ todo) :
    Inv R ((s.setTask c p (.grouped (todo.erase (c', x)))).setTask c' (x :: p) .created) := by
  obtain ⟨hr, hin⟩ := h.made c p (by simp [hg])
  obtain ⟨hx, hr'⟩ := h.todo c p todo hg _ hd
  have habs := h.todo_absent hg hd
  refine ⟨fun c₁ q hq => ?_, fun y q c₁ c₂ hy h₁ h₂ => ?_, fun c₁ q todo' hq d hd' => ?_,
    fun q todo' hq => ?_, fun q => ?_, ?_⟩
  · rw [setTask_task, setTask_task] at hq
    split at hq
    · next he => exact he.1 ▸ he.2 ▸ ⟨hr', .inr hx⟩
    · split at hq
      · next he => exact he.1 ▸ he.2 ▸ ⟨hr, hin⟩
      · exact h.made c₁ q hq
  · have hb := h.below y q c₁ c₂ hy h₁ h₂
    by_cases hpar : q = p
    · subst hpar
      obtain rfl := Option.some.inj (hr.symm.trans h₁)
      rw [setTask_task, if_neg (by simp), setTask_task, if_pos ⟨rfl, rfl⟩, setTask_task,
        setTask_task, if_neg (show ¬ (c₂ = c ∧ y :: q = q) by simp)]
      by_cases hyx : y = x
      · subst hyx
        obtain rfl := Option.some.inj (hr'.symm.trans h₂)
        rw [if_pos ⟨rfl, rfl⟩]
        simp [Task.Below]
      · rw [if_neg (by simp [hyx])]
        rw [hg] at hb
        simpa [Task.Below, hyx] using hb
    · have hnot : ¬ (c₁ = c ∧ q = p) := fun he => hpar he.2
      rw [setTask_task, setTask_task, if_neg hnot, setTask_task,
        if_neg (show ¬ (c₂ = c' ∧ y :: q = x :: p) from fun he => hpar (List.cons.inj he.2).2),
        setTask_task]
      by_cases hnew : c₁ = c' ∧ q = x :: p
      · obtain ⟨rfl, rfl⟩ := hnew
        have hfar : y :: x :: p ≠ p := fun he => by
          have hlen := congrArg List.length he
          rw [List.length_cons, List.length_cons] at hlen
          omega
        rw [habs] at hb
        rwa [if_pos ⟨rfl, rfl⟩, if_neg fun he => hfar he.2]
      · rw [if_neg hnew]
        split
        · next he =>
          obtain ⟨rfl, rfl⟩ := he
          exact hb.goesOn (by simp [hg]) (by simp [hg]) (by simp)
        · exact hb
  · rw [setTask_task, setTask_task] at hq
    split at hq
    · cases hq
    · split at hq
      · next he =>
        obtain rfl := Task.grouped.inj hq
        exact he.2 ▸ h.todo c p todo hg d (Finset.mem_of_mem_erase hd')
      · exact h.todo c₁ q todo' hq d hd'
  · rw [setTask_task, setTask_task] at hq
    split at hq
    · cases hq
    · split at hq
      · next he => exact h.group p todo (he.1 ▸ hg)
      · exact h.group q todo' hq
  · rw [setTask_present, setTask_present, h.present]
    refine and_congr_right fun _ => forall_congr' fun c₁ => ?_
    rw [setTask_task, setTask_task]
    by_cases he : c₁ = c' ∧ q = x :: p
    · simp [he.1, he.2, habs]
    · rw [if_neg he]
      by_cases he' : c₁ = c ∧ q = p
      · simp [he'.1, he'.2, hg]
      · rw [if_neg he']
  · rw [setTask_task, setTask_task]
    split
    · simp
    · split
      · simp
      · exact h.root

/-- The task is over, and a removal has removed its entry. -/
theorem ended (hmade : s.task c p ≠ .absent) (hrun : s.task c p ≠ .ended)
    (hgroup : ∀ x c', x :: p ∈ R.dst.entries → R.role (x :: p) = some c' →
      s.task c' (x :: p) = .ended)
    (hpres : t.present = if c = .processDir then s.present else s.present.erase p)
    (htask : t.task = (s.setTask c p .ended).task) : Inv R t := by
  obtain ⟨hr, hin⟩ := h.made c p hmade
  have ht : ∀ c' q, t.task c' q = if c' = c ∧ q = p then .ended else s.task c' q :=
    fun c' q => by rw [htask, setTask_task]
  refine ⟨fun c' q hq => ?_, fun y q c₁ c₂ hy h₁ h₂ => ?_, fun c' q todo hq d hd => ?_,
    fun q todo hq => ?_, fun q => ?_, ?_⟩
  · by_cases he : c' = c ∧ q = p
    · exact he.1 ▸ he.2 ▸ ⟨hr, hin⟩
    · exact h.made c' q (by rwa [ht, if_neg he] at hq)
  · have hb := h.below y q c₁ c₂ hy h₁ h₂
    rw [ht, ht]
    by_cases he : c₁ = c ∧ q = p
    · obtain ⟨rfl, rfl⟩ := he
      rw [if_pos ⟨rfl, rfl⟩, if_neg (by simp)]
      exact hgroup y c₂ hy h₂
    · rw [if_neg he]
      split
      · next he' =>
        obtain ⟨rfl, rfl⟩ := he'
        exact hb.goesOn hmade hrun (by simp)
      · exact hb
  · rw [ht] at hq
    split at hq
    · cases hq
    · exact h.todo c' q todo hq d hd
  · rw [ht] at hq
    split at hq
    · cases hq
    · exact h.group q todo hq
  · have hsame : q ≠ p → (q ∈ s.present ↔ q ∈ R.dst.entries ∧
        ∀ c, R.role q = some c → c ≠ .processDir → t.task c q ≠ .ended) := fun hne => by
      rw [h.present]
      refine and_congr_right fun _ => forall_congr' fun c' => ?_
      rw [ht, if_neg fun he => hne he.2]
    rw [hpres]
    by_cases hq : q = p
    · subst hq
      split
      · next hc =>
        subst hc
        rw [h.present]
        refine and_congr_right fun _ => forall_congr' fun c' => ?_
        by_cases hc' : c' = .processDir
        · simp [hc']
        · rw [ht, if_neg fun he => hc' he.1]
      · next hc =>
        refine iff_of_false (Finset.notMem_erase _ _) fun hn => hn.2 c hr hc ?_
        rw [ht, if_pos ⟨rfl, rfl⟩]
    · split
      · exact hsame hq
      · rw [Finset.mem_erase, and_iff_right hq]
        exact hsame hq
  · rw [ht]
    split
    · simp
    · exact h.root

/-- Both directories of a call of `processDir` are there. -/
theorem opens_processDir (hcreated : s.task .processDir p = .created) :
    R.src.opens R.src.entries p ∧ R.dst.opens s.present p := by
  have hrun : s.task .processDir p ≠ .ended := by simp [hcreated]
  have hmade : s.task .processDir p ≠ .absent := by simp [hcreated]
  obtain ⟨hr, -⟩ := h.made _ p hmade
  by_cases hp : p = []
  · exact ⟨.inl hp, .inl hp⟩
  · have ht : R.dst.type p = DT_DIR := (Roots.type_of_role hr hp).mpr Call.noConfusion
    obtain ⟨hsrc, hs⟩ := Roots.common_of_role hr hp
    exact ⟨.inr ⟨hsrc, hs.trans ht⟩, .inr ⟨h.mem_present hrun hmade hp, ht⟩⟩

theorem ne_nil (hmade : s.task c p ≠ .absent) (hc : c ≠ .processDir) : p ≠ [] := by
  rintro rfl
  exact hc (Option.some.inj ((h.made c [] hmade).1.symm.trans rfl))

theorem start (hcreated : s.task c p = .created) : Inv R (R.start s p c) := by
  obtain ⟨hr, hin⟩ := h.made c p (by simp [hcreated])
  have hrun : s.task c p ≠ .ended := by simp [hcreated]
  have hmade : s.task c p ≠ .absent := by simp [hcreated]
  cases c with
  | processDir =>
    rw [Roots.start, if_pos (h.opens_processDir hcreated)]
    exact h.grouped hcreated (by simp) fun c' x => Roots.mem_processDir_todo hr h.present_subset
  | recursiveRemove =>
    have hp := h.ne_nil hmade (by simp)
    have hopens : R.dst.opens s.present p :=
      .inr ⟨h.mem_present hrun hmade hp, (Roots.type_of_role hr hp).mpr (by simp)⟩
    rw [Roots.start, if_pos hopens]
    exact h.grouped hcreated (by simp) fun c' x => Roots.mem_recursiveRemove_todo hr h.present_subset
  | unlink =>
    have hp := h.ne_nil hmade (by simp)
    have ht : R.dst.type p ≠ DT_DIR := fun ht => (Roots.type_of_role hr hp).mp ht rfl
    have hleaf : ∀ q ∈ R.dst.entries, q ≠ [] → q.tail ≠ p := by
      rintro q hq hne rfl
      obtain ⟨x, q, rfl⟩ := List.exists_cons_of_ne_nil hne
      exact ht (R.dst.parent x q hq hp).2
    refine h.ended hmade hrun (fun x c' hx _ => absurd rfl (hleaf _ hx (by simp))) ?_ ?_ <;>
      rw [Roots.start, Roots.unlinkat, if_pos ⟨h.mem_present hrun hmade hp, by simpa using ht,
        fun q hq => hleaf q (h.present_subset hq)⟩]
    · rfl
    · rfl

/-- The directory that a removal is left with is empty. -/
theorem finish (hg : s.task c p = .grouped ∅) (hover : R.groupOver s p) :
    Inv R (R.finish s p c) := by
  obtain ⟨hr, hin⟩ := h.made c p (by simp [hg])
  have hrun : s.task c p ≠ .ended := by simp [hg]
  have hmade : s.task c p ≠ .absent := by simp [hg]
  have hgroup : ∀ x c', x :: p ∈ R.dst.entries → R.role (x :: p) = some c' →
      s.task c' (x :: p) = .ended := fun x c' hx hc' => by
    have hb := h.below x p c c' hx hr hc'
    rw [hg] at hb
    exact (hover _ hx rfl c').resolve_left fun he => Finset.notMem_empty _ (hb.mpr he)
  cases c with
  | processDir => exact h.ended hmade hrun hgroup rfl rfl
  | recursiveRemove =>
    have hp := h.ne_nil hmade (by simp)
    have hempty : ∀ q ∈ s.present, q ≠ [] → q.tail ≠ p := by
      rintro q hq hne rfl
      obtain ⟨x, q, rfl⟩ := List.exists_cons_of_ne_nil hne
      obtain ⟨hx, hkept⟩ := (h.present _).mp hq
      rw [List.tail_cons] at hr
      have hrole : R.role (x :: q) = some (R.removalOf (x :: q)) := by rw [Roots.role, hr]
      exact hkept _ hrole Roots.removalOf_ne (hgroup x _ hx hrole)
    refine h.ended hmade hrun hgroup ?_ ?_ <;>
      rw [Roots.finish, Roots.unlinkat, if_pos ⟨h.mem_present hrun hmade hp,
        by simpa using (Roots.type_of_role hr hp).mpr (by simp), hempty⟩]
    · rfl
    · rfl
  | unlink => exact absurd hg (h.group p ∅)

theorem next {a : Act} (ha : R.next s a = some t) : Inv R t := by
  cases a with
  | start c p =>
    obtain ⟨hcreated, ha⟩ := Option.ite_none_right_eq_some.mp ha
    obtain rfl := Option.some.inj ha
    exact h.start hcreated
  | spawn c p c' name =>
    simp only [Roots.next] at ha
    split at ha
    · next hg =>
      obtain ⟨hd, ha⟩ := Option.ite_none_right_eq_some.mp ha
      obtain rfl := Option.some.inj ha
      exact h.spawned hg hd
    · cases ha
  | finish c p =>
    obtain ⟨⟨hg, hover⟩, ha⟩ := Option.ite_none_right_eq_some.mp ha
    obtain rfl := Option.some.inj ha
    exact h.finish hg hover

/-- When the task of the roots is over, so are all that were ever to be made. -/
theorem all_ended (hend : s.task .processDir [] = .ended) (hq : q ∈ R.dst.entries)
    (hr : R.role q = some c) : s.task c q = .ended := by
  induction q generalizing c with
  | nil => exact absurd hq R.dst.nil_notMem
  | cons x p ih =>
    obtain ⟨c', hp⟩ : ∃ c', R.role p = some c' := by
      rcases Roots.role_parent hr with hp | hp <;> exact ⟨_, hp⟩
    have hparent : s.task c' p = .ended := by
      rcases Tree.tail_mem hq with rfl | ⟨hmem, -⟩
      · obtain rfl := Option.some.inj hp
        exact hend
      · exact ih hmem hp
    have hb := h.below x p c' c hq hp hr
    rwa [hparent] at hb

theorem keeps_mem (hq : q ∈ R.dst.entries) (hk : R.Keeps q) : q ∈ s.present := by
  refine (h.present q).mpr ⟨hq, fun c hc hne => ?_⟩
  rcases (Roots.keeps_iff hq).mp hk with hr | hr
  · cases hr.symm.trans hc
  · exact absurd (Option.some.inj (hr.symm.trans hc)).symm hne

theorem present_iff (hend : s.task .processDir [] = .ended) :
    q ∈ s.present ↔ q ∈ R.dst.entries ∧ R.Keeps q := by
  refine ⟨fun hq => ?_, fun hq => h.keeps_mem hq.1 hq.2⟩
  obtain ⟨hmem, hkept⟩ := (h.present q).mp hq
  refine ⟨hmem, (Roots.keeps_iff hmem).mpr ?_⟩
  cases hr : R.role q with
  | none => exact .inl rfl
  | some c =>
    by_cases hc : c = .processDir
    · exact .inr (hc ▸ rfl)
    · exact absurd (h.all_ended hend hmem hr) (hkept c hr hc)

end Inv

def Roots.places (R : Roots) : Finset (Call × Path) := Finset.univ ×ˢ insert [] R.dst.entries

theorem Inv.mem_places (h : Inv R s) (hmade : s.task c p ≠ .absent) : (c, p) ∈ R.places :=
  Finset.mem_product.mpr ⟨Finset.mem_univ c, Finset.mem_insert.mpr (h.made c p hmade).2⟩

/-- Of the tasks under way, one with the longest path can go on. -/
theorem Inv.progress (h : Inv R s) (hend : s.task .processDir [] ≠ .ended) :
    ∃ a t, R.next s a = some t := by
  let live := R.places.filter fun x => s.task x.1 x.2 ≠ .absent ∧ s.task x.1 x.2 ≠ .ended
  have hroot : (Call.processDir, []) ∈ live :=
    Finset.mem_filter.mpr ⟨h.mem_places h.root, h.root, hend⟩
  obtain ⟨⟨c, p⟩, hx, hmax⟩ := live.exists_max_image (fun x => x.2.length) ⟨_, hroot⟩
  obtain ⟨-, hmade, hrun⟩ := Finset.mem_filter.mp hx
  cases hs : s.task c p with
  | absent => exact absurd hs hmade
  | ended => exact absurd hs hrun
  | created => exact ⟨.start c p, _, if_pos hs⟩
  | grouped todo =>
    rcases todo.eq_empty_or_nonempty with rfl | ⟨⟨c', name⟩, hd⟩
    · refine ⟨.finish c p, _, if_pos ⟨hs, fun q hq hqp c' => ?_⟩⟩
      by_contra hlive
      obtain ⟨hmade', hrun'⟩ := not_or.mp hlive
      have hle : q.length ≤ p.length :=
        hmax (c', q) (Finset.mem_filter.mpr ⟨h.mem_places hmade', hmade', hrun'⟩)
      have hlen := List.length_pos_iff.mpr fun he : q = [] => R.dst.nil_notMem (he ▸ hq)
      rw [← hqp, List.length_tail] at hle
      omega
    · exact ⟨.spawn c p c' name, (s.setTask c p (.grouped (todo.erase (c', name)))).setTask c'
        (name :: p) .created, by simp only [Roots.next, hs, if_pos hd]⟩

def Task.rank : Task → ℕ
  | .absent => 0
  | .created => 1
  | .grouped _ => 2
  | .ended => 3

def Roots.progress (R : Roots) (s : State) : ℕ := ∑ x ∈ R.places, (s.task x.1 x.2).rank

theorem Roots.progress_le : R.progress s ≤ 3 * R.places.card := by
  rw [mul_comm, ← smul_eq_mul]
  refine Finset.sum_le_card_nsmul _ _ _ fun x _ => ?_
  cases s.task x.1 x.2 <;> simp [Task.rank]

@[simp] theorem unlinkat_task (flag : Bool) : (R.unlinkat s p flag).task = s.task := by
  rw [Roots.unlinkat]
  split <;> rfl

/-- One task comes further, and no other falls back. -/
theorem Roots.progress_lt (hmem : (c, p) ∈ R.places)
    (hle : ∀ c' q, (s.task c' q).rank ≤ (t.task c' q).rank)
    (hlt : (s.task c p).rank < (t.task c p).rank) : R.progress s < R.progress t :=
  Finset.sum_lt_sum (fun x _ => hle x.1 x.2) ⟨(c, p), hmem, hlt⟩

theorem rank_setTask {u : Task} (hlt : (s.task c p).rank < u.rank)
    (ht : t.task = (s.setTask c p u).task) : (s.task c p).rank < (t.task c p).rank ∧
      ∀ c' q, (s.task c' q).rank ≤ (t.task c' q).rank := by
  rw [ht]
  refine ⟨by rwa [setTask_task, if_pos ⟨rfl, rfl⟩], fun c' q => ?_⟩
  rw [setTask_task]
  split
  · next he => exact he.1 ▸ he.2 ▸ hlt.le
  · exact le_rfl

/-- Every step is progress, so a run cannot go on for ever. -/
theorem Inv.progress_lt (h : Inv R s) {a : Act} (ha : R.next s a = some t) :
    R.progress s < R.progress t := by
  cases a with
  | start c p =>
    obtain ⟨hcreated, ha⟩ := Option.ite_none_right_eq_some.mp ha
    obtain rfl := Option.some.inj ha
    have hto : ∃ u, (s.task c p).rank < u.rank ∧ (R.start s p c).task = (s.setTask c p u).task := by
      rw [hcreated]
      cases c <;> rw [Roots.start]
      · split <;> exact ⟨_, by simp [Task.rank], rfl⟩
      · split <;> exact ⟨_, by simp [Task.rank], rfl⟩
      · exact ⟨.ended, by decide, by simp [State.setTask]⟩
    obtain ⟨u, hlt, ht⟩ := hto
    obtain ⟨hlt, hle⟩ := rank_setTask hlt ht
    exact Roots.progress_lt (h.mem_places (by simp [hcreated])) hle hlt
  | spawn c p c' name =>
    simp only [Roots.next] at ha
    split at ha
    · next todo hg =>
      obtain ⟨hd, ha⟩ := Option.ite_none_right_eq_some.mp ha
      obtain rfl := Option.some.inj ha
      have hx := (h.todo c p _ hg _ hd).1
      have habs : s.task c' (name :: p) = .absent := h.todo_absent hg hd
      have hsame : ∀ c₁ q, ((s.setTask c p (.grouped (todo.erase (c', name)))).task c₁ q).rank =
          (s.task c₁ q).rank := fun c₁ q => by
        rw [setTask_task]
        split
        · next he => rw [he.1, he.2, hg]; rfl
        · rfl
      have hnew : ((s.setTask c p (.grouped (todo.erase (c', name)))).task c' (name :: p)).rank <
          Task.created.rank := by
        rw [hsame, habs]
        decide
      obtain ⟨hlt, hle⟩ := rank_setTask hnew rfl
      simp only [hsame] at hlt hle
      exact Roots.progress_lt (Finset.mem_product.mpr ⟨Finset.mem_univ c',
        Finset.mem_insert_of_mem hx⟩) hle hlt
    · cases ha
  | finish c p =>
    obtain ⟨⟨hg, -⟩, ha⟩ := Option.ite_none_right_eq_some.mp ha
    obtain rfl := Option.some.inj ha
    have hto : (R.finish s p c).task = (s.setTask c p .ended).task := by
      cases c <;> simp [Roots.finish, State.setTask]
    obtain ⟨hlt, hle⟩ := rank_setTask (by rw [hg]; decide) hto
    exact Roots.progress_lt (h.mem_places (by simp [hg])) hle hlt

theorem inv_of_reach (h : R.system.Reach (fun _ _ => True) s) : Inv R s :=
  h.invariant (fun _ hi => hi ▸ Inv.init) fun _ _ _ hs _ hn => hs.next hn

/-- The call on the roots comes to its end. -/
theorem exists_ended (h : Inv R s) :
    ∃ t, R.system.Run (fun _ _ => True) s t ∧ t.task .processDir [] = .ended := by
  induction hn : 3 * R.places.card - R.progress s using Nat.strong_induction_on generalizing s with
  | _ n ih =>
    by_cases hend : s.task .processDir [] = .ended
    · exact ⟨s, .nil s, hend⟩
    · obtain ⟨a, u, hu⟩ := h.progress hend
      have hlt := h.progress_lt hu
      have hle := Roots.progress_le (R := R) (s := u)
      obtain ⟨t, hrun, ht⟩ := ih _ (by omega) (h.next hu) rfl
      exact ⟨t, (TransitionSystem.Run.single trivial hu).trans hrun, ht⟩

/-- What is to stay is there all the time; at the end there is nothing else, and every run can
be brought to its end. -/
theorem prunes_exactly (R : Roots) {s : State} (h : R.system.Reach (fun _ _ => True) s) :
    (∀ q ∈ R.dst.entries, R.Keeps q → q ∈ s.present) ∧
      (s.task .processDir [] = .ended →
        ∀ q, q ∈ s.present ↔ q ∈ R.dst.entries ∧ R.Keeps q) ∧
      ∃ t, R.system.Run (fun _ _ => True) s t ∧ t.task .processDir [] = .ended :=
  have hinv := inv_of_reach h
  ⟨fun _ hq hk => hinv.keeps_mem hq hk, fun hend _ => hinv.present_iff hend, exists_ended hinv⟩

def sampleSrc : Finset Path := {["d"], ["f", "d"], ["l", "d"]}

def sampleDst : Finset Path := {["d"], ["f", "d"], ["l", "d"], ["e"], ["g", "e"]}

def sampleSrcType (p : Path) : UInt8 :=
  if p = ["d"] then DT_DIR else if p = ["l", "d"] then 10 else 8

def sampleDstType (p : Path) : UInt8 := if p = ["d"] ∨ p = ["e"] then DT_DIR else 8

/-- Two trees with one directory in common. One file in it is in both, and one name is a file
here and a symbolic link there. -/
def sampleRoots : Roots where
  src := {
    entries := sampleSrc
    type := sampleSrcType
    nil_notMem := by decide
    parent := fun x p hx => (show ∀ q ∈ sampleSrc, q.tail ≠ [] →
      q.tail ∈ sampleSrc ∧ sampleSrcType q.tail = DT_DIR by decide +kernel) (x :: p) hx
    notDot := fun x p hx =>
      (show ∀ q ∈ sampleSrc, isDot (q.headD "") = false by decide +kernel) (x :: p) hx }
  dst := {
    entries := sampleDst
    type := sampleDstType
    nil_notMem := by decide
    parent := fun x p hx => (show ∀ q ∈ sampleDst, q.tail ≠ [] →
      q.tail ∈ sampleDst ∧ sampleDstType q.tail = DT_DIR by decide +kernel) (x :: p) hx
    notDot := fun x p hx =>
      (show ∀ q ∈ sampleDst, isDot (q.headD "") = false by decide +kernel) (x :: p) hx }

def sampleActs : List Act :=
  [.start .processDir [], .spawn .processDir [] .recursiveRemove "e",
    .spawn .processDir [] .processDir "d", .start .recursiveRemove ["e"],
    .start .processDir ["d"], .spawn .processDir ["d"] .unlink "l",
    .spawn .recursiveRemove ["e"] .unlink "g", .start .unlink ["l", "d"],
    .start .unlink ["g", "e"], .finish .recursiveRemove ["e"], .finish .processDir ["d"],
    .finish .processDir []]

theorem prunes_exactly_sample : ∃ s, sampleRoots.system.Reach (fun _ _ => True) s ∧
    s.task .processDir [] = .ended ∧
    ∀ q, q ∈ s.present ↔ q ∈ sampleDst ∧ sampleRoots.Keeps q := by
  obtain ⟨s, hs⟩ := Option.isSome_iff_exists.mp (show (sampleRoots.system.exec
    (fun _ _ => true) sampleRoots.initial sampleActs).isSome = true by decide +kernel)
  have hdone : (sampleRoots.system.exec (fun _ _ => true) sampleRoots.initial sampleActs).map
      (fun s => s.task .processDir []) = some .ended := by decide +kernel
  rw [hs] at hdone
  have hend := Option.some.inj hdone
  have hreach : sampleRoots.system.Reach (fun _ _ => True) s :=
    (TransitionSystem.Reach.init rfl).run (.of_exec _ (fun _ _ _ _ => trivial) hs)
  exact ⟨s, hreach, hend, (prunes_exactly sampleRoots hreach).2.1 hend⟩

end Copy2.RemoveExtra
