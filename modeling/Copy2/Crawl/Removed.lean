import Copy2.Crawl.Removal

/-! # What a recursive removal removes

A directory is removed after its entries, each entry once, and nothing else, as long as the
pointer of a call still points at the buffer when the call goes on after its tasks. -/
namespace Copy2.Crawl.Removal
open Lib

set_option linter.unusedSectionVars false

variable {Thread : Type} [DecidableEq Thread] [Fintype Thread]
variable {R : Target} {s t : State Thread} {p q : Path} {th : Thread} {a remote : Ptr}

section parts
variable {flag : Bool}

@[simp] theorem copy_present : (s.copy th p a).present = s.present := by
  rw [State.copy]; split <;> rfl

@[simp] theorem copy_task : (s.copy th p a).task = s.task := by
  rw [State.copy]; split <;> rfl

@[simp] theorem copy_calls : (s.copy th p a).calls = s.calls := by
  rw [State.copy]; split <;> rfl

@[simp] theorem copy_filesRemoved : (s.copy th p a).filesRemoved = s.filesRemoved := by
  rw [State.copy]; split <;> rfl

@[simp] theorem copy_unlinked : (s.copy th p a).unlinked = s.unlinked := by
  rw [State.copy]; split <;> rfl

/-- The buffer holds the path. -/
@[simp] theorem copy_mem_buf : (s.copy th p a).mem ((s.copy th p a).buf th) = p := by
  rw [State.copy]; split <;> simp

@[simp] theorem unlinkat_task : (R.unlinkat s flag p).task = s.task := by
  rw [Target.unlinkat]; split <;> rfl

@[simp] theorem unlinkat_calls : (R.unlinkat s flag p).calls = s.calls := by
  rw [Target.unlinkat]; split <;> rfl

@[simp] theorem unlinkat_buf : (R.unlinkat s flag p).buf = s.buf := by
  rw [Target.unlinkat]; split <;> rfl

@[simp] theorem unlinkat_bufSize : (R.unlinkat s flag p).bufSize = s.bufSize := by
  rw [Target.unlinkat]; split <;> rfl

theorem unlinkat_of_unlinks (h : R.unlinks s flag p) : R.unlinkat s flag p = { s with
    present := s.present.erase p
    filesRemoved := s.filesRemoved + 1
    unlinked := (p, true) :: s.unlinked } := if_pos h

theorem unlinkat_of_not (h : ¬ R.unlinks s flag p) :
    R.unlinkat s flag p = { s with unlinked := (p, false) :: s.unlinked } := if_neg h

end parts

def Below : Task Thread → Task Thread → Prop
  | .absent, v | .created, v => v = .absent
  | .waiting .., v => v ≠ .absent
  | .ended, v => v = .ended

/-- The entries that have been removed, the latest first. -/
def removals (s : State Thread) : List Path := (s.unlinked.filter Prod.snd).map Prod.fst

def Target.Inside (R : Target) (q : Path) : Prop := R.root <:+ q ∧ (q ∈ R.entries ∨ q = R.root)

structure Clean (R : Target) (s : State Thread) : Prop where
  made : ∀ q, s.task q ≠ .absent → R.Inside q
  root : s.task R.root ≠ .absent
  waiting : ∀ q th r, s.task q = .waiting th r → q ∈ R.entries ∧ R.isDir q = true
  below : ∀ q ∈ R.entries, R.root <:+ q → q ≠ R.root → Below (s.task q.tail) (s.task q)
  present : ∀ q, q ∈ s.present ↔ q ∈ R.entries ∧ s.task q ≠ .ended
  count : s.filesRemoved + s.present.card = R.entries.card
  own : ∀ c ∈ s.unlinked, R.Inside c.1
  removed : ∀ q, q ∈ removals s ↔ q ∈ R.entries ∧ s.task q = .ended
  once : (removals s).Nodup
  order : (removals s).Pairwise fun late early => late.tail ≠ early
  calls : ∀ q, q ∈ s.calls ↔ ∃ th r, s.task q = .waiting th r
  callsNodup : s.calls.Nodup
  callsOrder : s.calls.Pairwise fun late early => early.tail ≠ late

theorem Clean.init {buf : Thread → Ptr} {mem : Ptr → Path} : Clean R {
    present := R.entries, task := Function.update (fun _ => .absent) R.root .created, buf, mem } where
  made q hq := by
    by_cases hr : q = R.root
    · exact hr ▸ ⟨List.suffix_rfl, .inr rfl⟩
    · simp [hr] at hq
  root := by simp
  waiting q th r h := by
    by_cases hr : q = R.root <;> simp [hr] at h
  below q hq hroot hne := by
    by_cases hr : q.tail = R.root <;> simp [hne, hr, Below]
  present q := by
    by_cases hr : q = R.root <;> simp [hr]
  count := by simp
  own := by simp
  removed q := by
    by_cases hr : q = R.root <;> simp [removals, hr]
  once := by simp [removals]
  order := by simp [removals]
  calls q := by
    by_cases hr : q = R.root <;> simp [hr]
  callsNodup := List.nodup_nil
  callsOrder := List.Pairwise.nil

theorem Target.Inside.ne_nil (h : R.Inside q) : q ≠ [] := by
  rintro rfl
  exact R.root_ne (List.suffix_nil.mp h.1)

/-- An entry of a directory inside is inside, and is not the start. -/
theorem Target.Inside.child (h : R.Inside p) (hq : q ∈ R.entries) (hqp : q.tail = p) :
    R.root <:+ q ∧ q ≠ R.root := by
  cases q with
  | nil => exact absurd hq R.nil_notMem
  | cons x q =>
    obtain rfl : q = p := hqp
    refine ⟨h.1.trans (List.suffix_cons x q), fun he => ?_⟩
    have hle := h.1.length_le
    rw [← he, List.length_cons] at hle
    omega

theorem Target.Inside.parent (h : R.Inside q) (hne : q ≠ R.root) :
    q ∈ R.entries ∧ R.Inside q.tail ∧ q.tail ∈ R.entries := by
  have hq := h.2.resolve_right hne
  cases q with
  | nil => exact absurd rfl h.ne_nil
  | cons x q =>
    have hsuf : R.root <:+ q := (List.suffix_cons_iff.mp h.1).resolve_left (Ne.symm hne)
    have hnil : q ≠ [] := fun he => R.root_ne (List.suffix_nil.mp (he ▸ hsuf))
    have hmem := (R.closed x q hq hnil).1
    exact ⟨hq, ⟨hsuf, .inl hmem⟩, hmem⟩

theorem Target.no_children (hd : R.isDir p = false) (hp : p ≠ []) :
    ∀ q ∈ R.entries, q.tail ≠ p := by
  rintro (_ | ⟨x, q⟩) hq rfl
  · exact hp rfl
  · rw [List.tail_cons] at hd hp
    simp [(R.closed x q hq hp).2] at hd

/-- A parent that has not been opened has no task below it. -/
theorem Clean.unopened (hc : Clean R s) (hp : R.Inside p) (hu : s.task p = .created)
    (hq : q ∈ R.entries) (hqp : q.tail = p) : s.task q = .absent := by
  obtain ⟨hsuf, hne⟩ := hp.child hq hqp
  have := hc.below q hq hsuf hne
  rwa [hqp, hu] at this

structure Removes (s t : State Thread) (p : Path) : Prop where
  present : t.present = s.present.erase p
  task : t.task = Function.update s.task p .ended
  calls : t.calls = s.calls.erase p
  filesRemoved : t.filesRemoved = s.filesRemoved + 1
  unlinked : t.unlinked = (p, true) :: s.unlinked

theorem Clean.removes (hc : Clean R s) (hp : p ∈ R.entries) (hmade : s.task p ≠ .absent)
    (hrun : s.task p ≠ .ended) (hgroup : ∀ q ∈ R.entries, q.tail = p → s.task q = .ended)
    (h : Removes s t p) : Clean R t := by
  have hin := hc.made p hmade
  have htask : ∀ q, t.task q = if q = p then .ended else s.task q := fun q => by
    rw [h.task, Function.update_apply]
  have hrem : removals t = p :: removals s := by simp [removals, h.unlinked]
  have hpres : p ∈ s.present := (hc.present p).mpr ⟨hp, hrun⟩
  have hnot : p ∉ removals s := fun hm => hrun ((hc.removed p).mp hm).2
  have hself : p.tail ≠ p := fun he => by
    have := congrArg List.length he
    have := List.length_pos_iff.mpr hin.ne_nil
    rw [List.length_tail] at *
    omega
  refine ⟨fun q hq => ?_, ?_, fun q th r hw => ?_, fun q hq hsuf hne => ?_, fun q => ?_, ?_,
    fun c hc' => ?_, fun q => ?_, ?_, ?_, fun q => ?_, ?_, ?_⟩
  · by_cases hqp : q = p
    · exact hqp ▸ hin
    · exact hc.made q (by simpa [htask, hqp] using hq)
  · by_cases hr : R.root = p
    · simp [htask, hr]
    · simpa [htask, hr] using hc.root
  · by_cases hqp : q = p
    · simp [htask, hqp] at hw
    · exact hc.waiting q th r (by simpa [htask, hqp] using hw)
  · have hb := hc.below q hq hsuf hne
    rw [htask, htask]
    by_cases hqp : q = p
    · subst hqp
      rw [if_neg hself, if_pos rfl]
      revert hb hmade
      cases s.task q.tail <;> simp [Below]
    · rw [if_neg hqp]
      by_cases hpar : q.tail = p
      · rw [if_pos hpar]
        exact hgroup q hq hpar
      · rw [if_neg hpar]
        exact hb
  · rw [h.present, Finset.mem_erase, hc.present, htask]
    by_cases hqp : q = p <;> simp [hqp]
  · have := hc.count
    rw [h.filesRemoved, h.present, Finset.card_erase_of_mem hpres]
    have := Finset.card_pos.mpr ⟨p, hpres⟩
    omega
  · rw [h.unlinked] at hc'
    rcases List.mem_cons.mp hc' with rfl | hc'
    · exact hin
    · exact hc.own c hc'
  · rw [hrem, List.mem_cons, hc.removed, htask]
    by_cases hqp : q = p <;> simp [hqp, hp]
  · rw [hrem]
    exact List.nodup_cons.mpr ⟨hnot, hc.once⟩
  · rw [hrem]
    refine List.pairwise_cons.mpr ⟨fun q hq he => ?_, hc.order⟩
    -- the directory of the entry would have been removed before it
    obtain ⟨hq, hover⟩ := (hc.removed q).mp hq
    have hqin := hc.made q (by simp [hover])
    obtain ⟨hsuf, hne⟩ := hqin.child hp he
    have := hc.below p hp hsuf hne
    rw [he, hover] at this
    exact hrun this
  · rw [h.calls, hc.callsNodup.mem_erase_iff, hc.calls, htask]
    by_cases hqp : q = p <;> simp [hqp]
  · rw [h.calls]
    exact hc.callsNodup.erase p
  · rw [h.calls]
    exact hc.callsOrder.sublist List.erase_sublist

/-- The directory has been opened; `flag` calls of `unlinkat` on it have failed before. -/
structure Opens (s t : State Thread) (th : Thread) (remote : Ptr) (p : Path) : Prop where
  present : t.present = s.present
  task : t.task = (s.openDir th remote p).task
  calls : t.calls = p :: s.calls
  filesRemoved : t.filesRemoved = s.filesRemoved
  unlinked : t.unlinked = s.unlinked ∨ t.unlinked = (p, false) :: s.unlinked

theorem Clean.opens (hc : Clean R s) (hp : p ∈ R.entries) (hd : R.isDir p = true)
    (hcreated : s.task p = .created) (h : Opens s t th remote p) : Clean R t := by
  have hin := hc.made p (by simp [hcreated])
  have hchild : ∀ q, q ≠ p → q ∈ s.present ∧ q.tail = p → q ∈ R.entries ∧ s.task q = .absent :=
    fun q _ ⟨hq, hqp⟩ => by
      have hq := ((hc.present q).mp hq).1
      exact ⟨hq, hc.unopened hin hcreated hq hqp⟩
  have htask : ∀ q, t.task q = if q = p then .waiting th remote else
      if q ∈ s.present ∧ q.tail = p then .created else s.task q := fun q => by rw [h.task]; rfl
  have hrem : removals t = removals s := by
    rcases h.unlinked with hu | hu <;> simp [removals, hu]
  have hover : ∀ q, t.task q = .ended ↔ s.task q = .ended := fun q => by
    rw [htask]
    by_cases hqp : q = p
    · simp [hqp, hcreated]
    · rw [if_neg hqp]
      split
      · rename_i hq
        simp [(hchild q hqp hq).2]
      · rfl
  have hself : p.tail ≠ p := fun he => by
    have := congrArg List.length he
    have := List.length_pos_iff.mpr hin.ne_nil
    rw [List.length_tail] at *
    omega
  refine ⟨fun q hq => ?_, ?_, fun q th' r hw => ?_, fun q hq hsuf hne => ?_, fun q => ?_, ?_,
    fun c hc' => ?_, fun q => ?_, ?_, ?_, fun q => ?_, ?_, ?_⟩
  · by_cases hqp : q = p
    · exact hqp ▸ hin
    · rw [htask, if_neg hqp] at hq
      split at hq
      · rename_i hch
        obtain ⟨hq, -⟩ := hchild q hqp hch
        exact ⟨(hin.child hq hch.2).1, .inl hq⟩
      · exact hc.made q hq
  · rw [htask]
    split
    · simp
    · split
      · simp
      · exact hc.root
  · by_cases hqp : q = p
    · exact hqp ▸ ⟨hp, hd⟩
    · rw [htask, if_neg hqp] at hw
      split at hw
      · cases hw
      · exact hc.waiting q th' r hw
  · have hb := hc.below q hq hsuf hne
    by_cases hpar : q.tail = p
    · have hqp : q ≠ p := fun he => hself (he ▸ hpar)
      have habs := hc.unopened hin hcreated hq hpar
      have hpres : q ∈ s.present := (hc.present q).mpr ⟨hq, by simp [habs]⟩
      rw [htask q.tail, if_pos hpar, htask q, if_neg hqp, if_pos ⟨hpres, hpar⟩]
      simp [Below]
    · rw [htask q.tail, if_neg hpar]
      by_cases hqp : q = p
      · subst hqp
        have hpt : ¬ (q.tail ∈ s.present ∧ q.tail.tail = q) := fun he => by
          have := congrArg List.length he.2
          have := List.length_pos_iff.mpr hin.ne_nil
          rw [List.length_tail, List.length_tail] at *
          omega
        rw [if_neg hpt, htask q, if_pos rfl]
        rw [hcreated] at hb
        revert hb
        cases s.task q.tail <;> simp [Below]
      · have hsame : t.task q = s.task q := by rw [htask, if_neg hqp, if_neg fun he => hpar he.2]
        rw [hsame]
        split
        · -- the entry lies below a child that had no task yet
          rename_i hch
          obtain ⟨-, habs⟩ := hchild q.tail hpar hch
          rwa [habs] at hb
        · exact hb
  · rw [h.present, hc.present, Ne, Ne, hover]
  · rw [h.filesRemoved, h.present]
    exact hc.count
  · have : c = (p, false) ∨ c ∈ s.unlinked := by
      rcases h.unlinked with hu | hu
      · exact .inr (hu ▸ hc')
      · exact List.mem_cons.mp (hu ▸ hc')
    rcases this with rfl | hc'
    · exact hin
    · exact hc.own c hc'
  · rw [hrem, hc.removed, hover]
  · rw [hrem]
    exact hc.once
  · rw [hrem]
    exact hc.order
  · rw [h.calls, List.mem_cons, hc.calls, htask]
    by_cases hqp : q = p
    · simp [hqp]
    · rw [if_neg hqp]
      split
      · rename_i hch
        simp [hqp, (hchild q hqp hch).2]
      · simp [hqp]
  · rw [h.calls]
    refine List.nodup_cons.mpr ⟨fun hm => ?_, hc.callsNodup⟩
    obtain ⟨th', r, hw⟩ := (hc.calls p).mp hm
    simp [hcreated] at hw
  · rw [h.calls]
    refine List.pairwise_cons.mpr ⟨fun q hq he => ?_, hc.callsOrder⟩
    obtain ⟨th', r, hw⟩ := (hc.calls q).mp hq
    have := hc.unopened hin hcreated (hc.waiting q th' r hw).1 he
    simp [hw] at this

theorem Target.root_mem (hq : q ∈ R.entries) (hsuf : R.root <:+ q) : R.root ∈ R.entries := by
  induction q with
  | nil => exact absurd hq R.nil_notMem
  | cons x q ih =>
    by_cases hr : x :: q = R.root
    · exact hr ▸ hq
    · have hin : R.Inside (x :: q) := ⟨hsuf, .inl hq⟩
      exact ih (hin.parent hr).2.2 (hin.parent hr).2.1.1

/-- The start is not there. -/
theorem Clean.misses (hc : Clean R s) (hr : R.root ∉ R.entries) (hpres : t.present = s.present)
    (htask : t.task = Function.update s.task R.root .ended) (hcalls : t.calls = s.calls)
    (hn : t.filesRemoved = s.filesRemoved)
    (hu : t.unlinked = (R.root, false) :: s.unlinked) : Clean R t := by
  have hne : ∀ q ∈ R.entries, q ≠ R.root := fun q hq he => hr (he ▸ hq)
  have hrem : removals t = removals s := by simp [removals, hu]
  have hsame : ∀ q, q ≠ R.root → t.task q = s.task q := fun q hq => by
    rw [htask, Function.update_of_ne hq]
  have hroot : t.task R.root = .ended := by rw [htask, Function.update_self]
  refine ⟨fun q hq => ?_, by simp [hroot], fun q th r hw => ?_,
    fun q hq hsuf _ => absurd (R.root_mem hq hsuf) hr, fun q => ?_, ?_, fun c hc' => ?_,
    fun q => ?_, by rw [hrem]; exact hc.once, by rw [hrem]; exact hc.order, fun q => ?_,
    by rw [hcalls]; exact hc.callsNodup, by rw [hcalls]; exact hc.callsOrder⟩
  · by_cases hqr : q = R.root
    · exact hqr ▸ ⟨List.suffix_rfl, .inr rfl⟩
    · exact hc.made q (by rwa [hsame q hqr] at hq)
  · by_cases hqr : q = R.root
    · simp [hqr, hroot] at hw
    · exact hc.waiting q th r (by rwa [hsame q hqr] at hw)
  · rw [hpres, hc.present]
    refine and_congr_right fun hq => ?_
    rw [hsame q (hne q hq)]
  · rw [hn, hpres]
    exact hc.count
  · rw [hu] at hc'
    rcases List.mem_cons.mp hc' with rfl | hc'
    · exact ⟨List.suffix_rfl, .inr rfl⟩
    · exact hc.own c hc'
  · rw [hrem, hc.removed]
    refine and_congr_right fun hq => ?_
    rw [hsame q (hne q hq)]
  · rw [hcalls, hc.calls]
    by_cases hqr : q = R.root
    · have : ∀ th r, s.task R.root ≠ .waiting th r := fun th r hw => hr (hc.waiting _ th r hw).1
      simp [hqr, hroot, this]
    · rw [hsame q hqr]

theorem Clean.mem_present (hc : Clean R s) (hp : p ∈ R.entries) (hcreated : s.task p = .created) :
    p ∈ s.present := (hc.present p).mpr ⟨hp, by simp [hcreated]⟩

theorem Clean.notMem_calls (hc : Clean R s) (hcreated : s.task p = .created) : p ∉ s.calls :=
  fun hm => by
    obtain ⟨th, r, hw⟩ := (hc.calls p).mp hm
    simp [hcreated] at hw

/-- What is no directory has been unlinked at once. -/
theorem Clean.unlinked (hc : Clean R s) (hp : p ∈ R.entries) (hcreated : s.task p = .created)
    (hpres : t.present = s.present.erase p) (htask : t.task = Function.update s.task p .ended)
    (hgroup : ∀ q ∈ s.present, q.tail ≠ p) (hcalls : t.calls = s.calls)
    (hn : t.filesRemoved = s.filesRemoved + 1) (hu : t.unlinked = (p, true) :: s.unlinked) :
    Clean R t := by
  refine hc.removes hp (by simp [hcreated]) (by simp [hcreated]) (fun q hq hqp => ?_)
    ⟨hpres, htask, by rw [hcalls, List.erase_of_not_mem (hc.notMem_calls hcreated)], hn, hu⟩
  have habs := hc.unopened (hc.made p (by simp [hcreated])) hcreated hq hqp
  exact absurd hqp (hgroup q ((hc.present q).mpr ⟨hq, by simp [habs]⟩))

theorem Clean.start (hc : Clean R s) (hcreated : s.task p = .created) :
    Clean R (R.start s p th a) := by
  have hin := hc.made p (by simp [hcreated])
  rw [Target.start]
  split
  · rename_i hrec
    simp only [copy_mem_buf]
    split
    · rename_i hroot
      by_cases hun : R.unlinks (s.copy th p a) false p
      · rw [if_pos (.inl hun), unlinkat_of_unlinks hun]
        have hpres : p ∈ s.present := by simpa using hun.1
        exact hc.unlinked ((hc.present p).mp hpres).1 hcreated (by simp [State.setTask])
          (by simp [State.setTask]) (by simpa using hun.2.2) (by simp [State.setTask])
          (by simp [State.setTask]) (by simp [State.setTask])
      · rw [unlinkat_of_not hun]
        by_cases hpres : p ∈ s.present
        · have hp := ((hc.present p).mp hpres).1
          have hd : R.isDir p = true := by
            by_contra hd
            simp only [Bool.not_eq_true] at hd
            refine hun ⟨by simpa using hpres, hd, fun q hq => ?_⟩
            rw [copy_present] at hq
            exact R.no_children hd hin.ne_nil q ((hc.present q).mp hq).1
          rw [if_neg (by simp [hun, hpres])]
          exact hc.opens hp hd hcreated (show Opens s _ th ((s.copy th p a).buf th) p from
            ⟨by simp [State.openDir], by simp [State.openDir], by simp [State.openDir],
              by simp [State.openDir], .inr (by simp [State.openDir])⟩)
        · have hp : R.root ∉ R.entries := fun hp =>
            hpres (hc.mem_present (hroot ▸ hp) hcreated)
          subst hroot
          rw [if_pos (.inr (by simpa using hpres))]
          exact hc.misses hp (by simp [State.setTask]) (by simp [State.setTask])
            (by simp [State.setTask]) (by simp [State.setTask]) (by simp [State.setTask])
    · rename_i hroot
      have hp := hin.2.resolve_right hroot
      rw [if_pos (by simpa using hc.mem_present hp hcreated)]
      exact hc.opens hp (hrec.resolve_left hroot) hcreated
        (show Opens s _ th ((s.copy th p a).buf th) p from
          ⟨by simp [State.openDir], by simp [State.openDir], by simp [State.openDir],
            by simp [State.openDir], .inl (by simp [State.openDir])⟩)
  · rename_i hrec
    obtain ⟨hroot, hd⟩ := not_or.mp hrec
    have hp := hin.2.resolve_right hroot
    have hd : R.isDir p = false := by simpa using hd
    have hgroup : ∀ q ∈ s.present, q.tail ≠ p := fun q hq =>
      R.no_children hd hin.ne_nil q ((hc.present q).mp hq).1
    rw [unlinkat_of_unlinks ⟨hc.mem_present hp hcreated, hd, hgroup⟩]
    exact hc.unlinked hp hcreated rfl rfl hgroup rfl rfl rfl

theorem Clean.finish (hc : Clean R s) (hw : s.task p = .waiting th remote)
    (hgroup : R.groupOver s p) (hkept : (s.copy th p a).buf th = remote) :
    Clean R (R.finish s p th remote a) := by
  obtain ⟨hp, hd⟩ := hc.waiting p th remote hw
  have hin := hc.made p (by simp [hw])
  have hover : ∀ q ∈ R.entries, q.tail = p → s.task q = .ended := fun q hq hqp => by
    obtain ⟨hsuf, hne⟩ := hin.child hq hqp
    have hb := hc.below q hq hsuf hne
    rw [hqp, hw] at hb
    exact (hgroup q hq hqp).resolve_right hb
  have hmem : (s.copy th p a).mem remote = p := hkept ▸ copy_mem_buf
  have hun : R.unlinks (s.copy th p a) true p := by
    refine ⟨by simpa using (hc.present p).mpr ⟨hp, by simp [hw]⟩, hd, fun q hq hqp => ?_⟩
    obtain ⟨hq, hrun⟩ := (hc.present q).mp (by simpa using hq)
    exact hrun (hover q hq hqp)
  refine hc.removes hp (by simp [hw]) (by simp [hw]) hover ?_
  rw [Target.finish, hmem]
  simp only [unlinkat_of_unlinks hun]
  exact ⟨by simp [State.setTask], by simp [State.setTask], by simp, by simp [State.setTask],
    by simp [State.setTask]⟩

/-- Where the buffer of the thread lies when the call has copied its path once more, its pointer
points. -/
def KeepsPointer (s : State Thread) : Act Thread → Prop
  | .finish p a => ∀ th remote, s.task p = .waiting th remote →
    (if size p < s.bufSize th then s.buf th else a) = remote
  | _ => True

theorem copy_buf : (s.copy th p a).buf th = if size p < s.bufSize th then s.buf th else a := by
  rw [State.copy]
  split
  · rfl
  · simp

theorem Clean.next {act : Act Thread} (hc : Clean R s) (hg : KeepsPointer s act)
    (h : R.next s act = some t) : Clean R t := by
  cases act with
  | start p th a =>
    obtain ⟨⟨hcreated, -⟩, h⟩ := Option.ite_none_right_eq_some.mp h
    obtain rfl := Option.some.inj h
    exact hc.start hcreated
  | finish p a =>
    simp only [Target.next] at h
    split at h
    · rename_i th remote hw
      obtain ⟨⟨-, hgroup, -⟩, h⟩ := Option.ite_none_right_eq_some.mp h
      obtain rfl := Option.some.inj h
      exact hc.finish hw hgroup (copy_buf.trans (hg th remote hw))
    · cases h
  | write a x =>
    obtain ⟨-, h⟩ := Option.ite_none_right_eq_some.mp h
    obtain rfl := Option.some.inj h
    exact ⟨hc.made, hc.root, hc.waiting, hc.below, hc.present, hc.count, hc.own, hc.removed,
      hc.once, hc.order, hc.calls, hc.callsNodup, hc.callsOrder⟩

theorem Clean.reach (h : R.system.Reach KeepsPointer s) : Clean R s := by
  refine h.invariant ?_ fun s a t hc hg hn => hc.next hg hn
  rintro s ⟨buf, mem, -, rfl⟩
  exact .init

def weight : Task Thread → ℕ
  | .absent => 3
  | .created => 2
  | .waiting .. => 1
  | .ended => 0

def Target.remaining (R : Target) (s : State Thread) : ℕ :=
  ∑ q ∈ insert R.root R.entries, weight (s.task q)

theorem remaining_lt (hp : p ∈ R.entries ∨ p = R.root)
    (hle : ∀ q ≠ p, weight (t.task q) ≤ weight (s.task q))
    (hlt : weight (t.task p) < weight (s.task p)) : R.remaining t < R.remaining s := by
  refine Finset.sum_lt_sum (fun q _ => ?_) ⟨p, by simpa [or_comm] using hp, hlt⟩
  by_cases hq : q = p
  · exact hq ▸ hlt.le
  · exact hle q hq

theorem remaining_of_ended (hp : p ∈ R.entries ∨ p = R.root) (hrun : s.task p ≠ .ended)
    (ht : t.task = Function.update s.task p .ended) : R.remaining t < R.remaining s := by
  refine remaining_lt hp (fun q hq => by rw [ht, Function.update_of_ne hq]) ?_
  rw [ht, Function.update_self]
  revert hrun
  cases s.task p <;> simp [weight]

theorem Clean.remaining_of_openDir (hc : Clean R s) (hcreated : s.task p = .created)
    (ht : t.task = (s.openDir th remote p).task) : R.remaining t < R.remaining s := by
  have hin := hc.made p (by simp [hcreated])
  refine remaining_lt (p := p) hin.2 (fun q hq => ?_) ?_
  · simp only [ht, State.openDir, if_neg hq]
    split
    · rename_i hch
      rw [hc.unopened hin hcreated ((hc.present q).mp hch.1).1 hch.2]
      simp [weight]
    · exact le_rfl
  · simp [ht, State.openDir, hcreated, weight]

theorem Clean.remaining_of_start (hc : Clean R s) (hcreated : s.task p = .created) :
    R.remaining (R.start s p th a) < R.remaining s := by
  have hp := (hc.made p (by simp [hcreated])).2
  have hrun : s.task p ≠ .ended := by simp [hcreated]
  have hopen : ∀ {u : State Thread}, u.task = ((s.copy th p a).openDir th
      ((s.copy th p a).buf th) p).task → R.remaining u < R.remaining s := fun hu =>
    hc.remaining_of_openDir hcreated (show _ = (s.openDir th ((s.copy th p a).buf th) p).task from
      hu.trans (by simp [State.openDir]))
  rw [Target.start]
  split
  · simp only [copy_mem_buf]
    split
    · split
      · exact remaining_of_ended hp hrun (by simp [State.setTask])
      · refine hopen ?_
        rw [Target.unlinkat]
        split <;> simp_all [State.openDir]
    · split
      · exact hopen rfl
      · exact remaining_of_ended hp hrun (by simp [State.setTask])
  · exact remaining_of_ended hp hrun (by simp [State.setTask])

/-- Some task can be taken, or some call can go on. -/
theorem Clean.progress [Nonempty Thread] (hc : Clean R s) (hrun : s.task R.root ≠ .ended) :
    ∃ act t, R.next s act = some t ∧ R.remaining t < R.remaining s := by
  obtain ⟨a, ha⟩ := Infinite.exists_notMem_finset (Finset.univ.image s.buf)
  have hfree : ∀ th, s.free th a := fun th th' _ he =>
    ha (Finset.mem_image.mpr ⟨th', Finset.mem_univ _, he⟩)
  by_cases hcreated : ∃ p, s.task p = .created
  · obtain ⟨p, hp⟩ := hcreated
    obtain ⟨th⟩ := (inferInstance : Nonempty Thread)
    exact ⟨.start p th a, R.start s p th a, if_pos ⟨hp, hfree th⟩, hc.remaining_of_start hp⟩
  · -- the latest call waits for nobody
    have hroot : R.root ∈ s.calls := by
      refine (hc.calls _).mpr ?_
      cases htask : s.task R.root with
      | absent => exact absurd htask hc.root
      | created => exact absurd ⟨_, htask⟩ hcreated
      | waiting th r => exact ⟨th, r, rfl⟩
      | ended => exact absurd htask hrun
    obtain ⟨p, rest, hcalls⟩ := List.exists_cons_of_ne_nil (List.ne_nil_of_mem hroot)
    obtain ⟨th, r, hw⟩ := (hc.calls p).mp (by simp [hcalls])
    have hgroup : R.groupOver s p := fun q hq hqp => by
      cases htask : s.task q with
      | absent => exact .inr rfl
      | created => exact absurd ⟨_, htask⟩ hcreated
      | ended => exact .inl rfl
      | waiting th' r' =>
        have hmem : q ∈ s.calls := (hc.calls q).mpr ⟨th', r', htask⟩
        have horder := hc.callsOrder
        rw [hcalls] at hmem horder
        rcases List.mem_cons.mp hmem with rfl | hmem
        · have := congrArg List.length hqp
          have := List.length_pos_iff.mpr (hc.made q (by simp [htask])).ne_nil
          rw [List.length_tail] at *
          omega
        · exact absurd hqp ((List.pairwise_cons.mp horder).1 q hmem)
    have hfind : s.calls.find? (s.runs th) = some p := by
      rw [hcalls, List.find?_cons_of_pos (by simp [State.runs, hw])]
    refine ⟨.finish p a, R.finish s p th r a, ?_, ?_⟩
    · simp only [Target.next, hw]
      exact if_pos ⟨hfind, hgroup, hfree th⟩
    · exact remaining_of_ended (.inl (hc.waiting p th r hw).1) (by simp [hw])
        (by simp [Target.finish, State.setTask])

/-- All below the start is gone, each entry once and after its own entries, and nothing else. -/
structure RemovedExactly (R : Target) (s : State Thread) : Prop where
  present : ∀ q, q ∈ s.present ↔ q ∈ R.entries ∧ ¬ R.root <:+ q
  every : ∀ q ∈ R.entries, R.root <:+ q → (q, true) ∈ s.unlinked
  once : (removals s).Nodup
  order : (removals s).Pairwise fun late early => late.tail ≠ early
  count : s.filesRemoved = (R.entries.filter (R.root <:+ ·)).card

/-- No call of `unlinkat` names anything else; it goes on until all is removed. -/
structure SubtreeRemoved (R : Target) (s : State Thread) : Prop where
  inside : ∀ c ∈ s.unlinked, R.Inside c.1
  goesOn : s.task R.root ≠ .ended → ∃ act t, R.next s act = some t ∧ R.remaining t < R.remaining s
  exact : s.task R.root = .ended → RemovedExactly R s

theorem Clean.ended (hc : Clean R s) (hend : s.task R.root = .ended) (hq : q ∈ R.entries)
    (hsuf : R.root <:+ q) : s.task q = .ended := by
  induction q with
  | nil => exact absurd hq R.nil_notMem
  | cons x q ih =>
    by_cases hr : x :: q = R.root
    · exact hr ▸ hend
    · have hpar := Target.Inside.parent (R := R) ⟨hsuf, .inl hq⟩ hr
      have hb := hc.below _ hq hsuf hr
      rw [List.tail_cons, ih hpar.2.2 hpar.2.1.1] at hb
      exact hb

theorem Clean.removedExactly (hc : Clean R s) (hend : s.task R.root = .ended) :
    RemovedExactly R s := by
  have hpres : ∀ q, q ∈ s.present ↔ q ∈ R.entries ∧ ¬ R.root <:+ q := fun q => by
    rw [hc.present]
    refine and_congr_right fun hq => not_congr ⟨fun h => ?_, hc.ended hend hq⟩
    exact (hc.made q (by simp [h])).1
  refine ⟨hpres, fun q hq hsuf => ?_, hc.once, hc.order, ?_⟩
  · have hm := (hc.removed q).mpr ⟨hq, hc.ended hend hq hsuf⟩
    obtain ⟨c, hc', rfl⟩ := List.mem_map.mp hm
    obtain ⟨hc', htrue⟩ := List.mem_filter.mp hc'
    rwa [← htrue] at *
  · have hset : s.present = R.entries.filter (¬ R.root <:+ ·) := by
      ext q
      simp [hpres]
    have hcount := hc.count
    have hsplit : (R.entries.filter (R.root <:+ ·)).card + (R.entries.filter (¬ R.root <:+ ·)).card =
      R.entries.card := Finset.card_filter_add_card_filter_not _
    rw [hset] at hcount
    omega

/-- In every run in which no call goes on with a pointer to a buffer that its thread has given
back, the subtree is removed exactly. -/
theorem subtree_removed [Nonempty Thread] (R : Target) (h : R.system.Reach KeepsPointer s) :
    SubtreeRemoved R s :=
  ⟨(Clean.reach h).own, (Clean.reach h).progress, (Clean.reach h).removedExactly⟩

structure Roomy (s : State Thread) : Prop where
  bufSize : ∀ th, s.bufSize th = PATH_MAX
  pointer : ∀ q th r, s.task q = .waiting th r → s.buf th = r

theorem Roomy.copy (hr : Roomy s) (hp : size p < PATH_MAX) (th : Thread) (a : Ptr) :
    (s.copy th p a).buf = s.buf ∧ (s.copy th p a).bufSize = s.bufSize := by
  rw [State.copy, if_pos (by rw [hr.bufSize]; exact hp)]
  exact ⟨rfl, rfl⟩

theorem Roomy.ended (hr : Roomy s) (hbuf : t.buf = s.buf) (hsize : t.bufSize = s.bufSize)
    (ht : t.task = Function.update s.task p .ended) : Roomy t := by
  refine ⟨fun th => by rw [hsize, hr.bufSize], fun q th r hw => ?_⟩
  by_cases hq : q = p
  · simp [ht, hq] at hw
  · rw [ht, Function.update_of_ne hq] at hw
    rw [hbuf]
    exact hr.pointer q th r hw

theorem Roomy.opened (hr : Roomy s) (th : Thread) (hbuf : t.buf = s.buf) (hsize : t.bufSize = s.bufSize)
    (ht : t.task = (s.openDir th (s.buf th) p).task) : Roomy t := by
  refine ⟨fun th => by rw [hsize, hr.bufSize], fun q th' r hw => ?_⟩
  rw [hbuf]
  simp only [ht, State.openDir] at hw
  split at hw
  · cases hw
    rfl
  · split at hw
    · cases hw
    · exact hr.pointer q th' r hw

theorem Roomy.start (hr : Roomy s) (hp : size p < PATH_MAX) : Roomy (R.start s p th a) := by
  obtain ⟨hbuf, hsize⟩ := hr.copy hp th a
  rw [Target.start]
  split
  · simp only [copy_mem_buf]
    split
    · split
      · exact hr.ended (p := p) (by simp [State.setTask, hbuf]) (by simp [State.setTask, hsize])
          (by simp [State.setTask])
      · refine hr.opened (p := p) th (by simp [State.openDir, hbuf])
          (by simp [State.openDir, hsize]) ?_
        rw [hbuf, Target.unlinkat]
        split <;> simp_all [State.openDir]
    · split
      · exact hr.opened (p := p) th hbuf hsize (by simp [State.openDir, hbuf])
      · exact hr.ended (p := p) hbuf hsize (by simp [State.setTask])
  · exact hr.ended (p := p) (by simp [State.setTask]) (by simp [State.setTask])
      (by simp [State.setTask])

theorem Roomy.finish (hr : Roomy s) (hp : size p < PATH_MAX) :
    Roomy (R.finish s p th remote a) := by
  obtain ⟨hbuf, hsize⟩ := hr.copy hp th a
  exact hr.ended (p := p) (by simp [Target.finish, State.setTask, hbuf])
    (by simp [Target.finish, State.setTask, hsize]) (by simp [Target.finish, State.setTask])

theorem Roomy.next {act : Act Thread} (hr : Roomy s) (hc : Clean R s)
    (hshort : ∀ q, R.Inside q → size q < PATH_MAX) (h : R.next s act = some t) :
    Roomy t ∧ KeepsPointer s act := by
  cases act with
  | start p th a =>
    obtain ⟨⟨hcreated, -⟩, h⟩ := Option.ite_none_right_eq_some.mp h
    obtain rfl := Option.some.inj h
    exact ⟨hr.start (hshort p (hc.made p (by simp [hcreated]))), trivial⟩
  | finish p a =>
    simp only [Target.next] at h
    split at h
    · rename_i th remote hw
      have hp := hshort p (hc.made p (by simp [hw]))
      obtain ⟨-, h⟩ := Option.ite_none_right_eq_some.mp h
      obtain rfl := Option.some.inj h
      refine ⟨hr.finish hp, fun th' r hw' => ?_⟩
      rw [if_pos (by rw [hr.bufSize]; exact hp)]
      exact hr.pointer p th' r hw'
    · cases h
  | write a x =>
    obtain ⟨-, h⟩ := Option.ite_none_right_eq_some.mp h
    obtain rfl := Option.some.inj h
    exact ⟨⟨hr.bufSize, hr.pointer⟩, trivial⟩

/-- Where every path below the start is shorter than a buffer, no run is an exception. -/
theorem keepsPointer_of_short (hshort : ∀ q, R.Inside q → size q < PATH_MAX)
    (h : R.system.Reach (fun _ _ => True) s) : Clean R s ∧ Roomy s := by
  refine h.invariant (I := fun s => Clean R s ∧ Roomy s) ?_ fun s a t ⟨hc, hr⟩ _ hn => ?_
  · rintro s ⟨buf, mem, -, rfl⟩
    refine ⟨.init, fun _ => rfl, fun q th r hw => ?_⟩
    by_cases hq : q = R.root <;> simp [hq] at hw
  · obtain ⟨hr', hk⟩ := hr.next hc hshort hn
    exact ⟨hc.next hk hn, hr'⟩

theorem subtree_removed_of_short [Nonempty Thread] (R : Target)
    (hshort : ∀ q, R.Inside q → size q < PATH_MAX) (h : R.system.Reach (fun _ _ => True) s) :
    SubtreeRemoved R s :=
  have hc := (keepsPointer_of_short hshort h).1
  ⟨hc.own, hc.progress, hc.removedExactly⟩

def sampleTarget : Target where
  entries := {[[97]], [[47, 98], [97]], [[47, 99], [97]]}
  isDir p := p != [[47, 98], [97]]
  root := [[97]]
  root_ne := by simp
  closed x p h hp := by
    simp only [Finset.mem_insert, Finset.mem_singleton, List.cons.injEq] at h
    rcases h with ⟨-, rfl⟩ | ⟨-, rfl⟩ | ⟨-, rfl⟩
    · exact absurd rfl hp
    · exact ⟨by simp, by decide⟩
    · exact ⟨by simp, by decide⟩
  nil_notMem := by simp

def sampleRun : List (Act (Fin 2)) :=
  [.start [[97]] 0 2, .start [[47, 99], [97]] 0 2, .start [[47, 98], [97]] 1 2,
    .finish [[47, 99], [97]] 2, .finish [[97]] 2]

def sampleStart (R : Target) : State (Fin 2) where
  present := R.entries
  task := Function.update (fun _ => .absent) R.root .created
  buf := Fin.val
  mem _ := []

def keepsPointer (s : State (Fin 2)) : Act (Fin 2) → Bool
  | .finish p a => match s.task p with
    | .waiting th remote => (if size p < s.bufSize th then s.buf th else a) == remote
    | _ => true
  | _ => true

theorem keepsPointer_sound {s : State (Fin 2)} {act : Act (Fin 2)} (h : keepsPointer s act = true) :
    KeepsPointer s act := by
  cases act with
  | finish p a =>
    intro th remote hw
    simpa [keepsPointer, hw] using h
  | _ => trivial

theorem subtree_removed_sample : ∃ s : State (Fin 2), s.task [[97]] = .ended ∧
    s.filesRemoved = 3 ∧ SubtreeRemoved sampleTarget s := by
  obtain ⟨s, hs⟩ := Option.isSome_iff_exists.mp (show (sampleTarget.system.exec
    keepsPointer (sampleStart sampleTarget) sampleRun).isSome = true by decide +kernel)
  have hend : (sampleTarget.system.exec keepsPointer (sampleStart sampleTarget) sampleRun).map
      (fun s => (s.task [[97]], s.filesRemoved)) = some (.ended, 3) := by decide +kernel
  have hreach : sampleTarget.system.Reach KeepsPointer s :=
    ⟨sampleStart sampleTarget, ⟨Fin.val, fun _ => [], Fin.val_injective, rfl⟩,
      .of_exec _ (fun _ _ _ h => keepsPointer_sound h) hs⟩
  rw [hs] at hend
  simp only [Option.map_some, Option.some.injEq, Prod.mk.injEq] at hend
  exact ⟨s, hend.1, hend.2, subtree_removed sampleTarget hreach⟩

/-- Directories with long names, each in the one before. -/
def longPath : ℕ → Path
  | 0 => []
  | n + 1 => (47 :: List.replicate 250 97) :: longPath n

def longTarget : Target where
  entries := (Finset.range 17).image fun n => longPath (n + 1)
  isDir _ := true
  root := longPath 16
  root_ne := List.cons_ne_nil _ _
  closed x p h hp := by
    refine ⟨?_, rfl⟩
    obtain ⟨n, hn, he⟩ := Finset.mem_image.mp h
    obtain ⟨-, rfl⟩ := List.cons.inj he
    cases n with
    | zero => exact absurd rfl hp
    | succ n => exact Finset.mem_image.mpr ⟨n, by simp at hn ⊢; omega, rfl⟩
  nil_notMem h := by
    obtain ⟨n, -, he⟩ := Finset.mem_image.mp h
    cases he

/-- The thread of the outer call runs the inner one, which allocates the buffer anew. -/
def longRun : List (Act (Fin 2)) :=
  [.start (longPath 16) 0 2, .start (longPath 17) 0 2, .finish (longPath 17) 2,
    .finish (longPath 16) 2]

theorem parent_left : ¬ ∀ s : State (Fin 2), longTarget.system.Reach (fun _ _ => True) s →
    SubtreeRemoved longTarget s := by
  intro hall
  obtain ⟨s, hs⟩ := Option.isSome_iff_exists.mp (show (longTarget.system.exec
    (fun _ _ => true) (sampleStart longTarget) longRun).isSome = true by decide +kernel)
  have hend : (longTarget.system.exec (fun _ _ => true) (sampleStart longTarget) longRun).map
      (fun s => (s.task (longPath 16), s.filesRemoved)) = some (.ended, 1) := by decide +kernel
  have htwo : (longTarget.entries.filter (longTarget.root <:+ ·)).card = 2 := by decide +kernel
  rw [hs] at hend
  simp only [Option.map_some, Option.some.injEq, Prod.mk.injEq] at hend
  have hreach : longTarget.system.Reach (fun _ _ => True) s :=
    ⟨sampleStart longTarget, ⟨Fin.val, fun _ => [], Fin.val_injective, rfl⟩,
      .of_exec _ (fun _ _ _ _ => trivial) hs⟩
  have hcount := ((hall s hreach).exact hend.1).count
  rw [htwo, hend.2] at hcount
  cases hcount

end Copy2.Crawl.Removal
