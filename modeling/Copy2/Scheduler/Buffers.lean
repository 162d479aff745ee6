import Copy2.Scheduler.Bookkeeping
import Copy2.Scheduler.ProvenanceSteps

/-! # The staging buffers of a fleet

Every loop body of a pass keeps the books of the shared allocator: who holds which
buffer, which slots are in use, and how much memory is accounted for. Nothing is assumed
of the jobs, of the results of requests, or of the answers of the allocator. -/
namespace Copy2.Scheduler
open FileJob Lib

variable {nFile nBlock n : ℕ}

/-- What the buffer of a slot counts for in the total: the block size of its file. -/
def CopyScheduler.charge (d : CopyScheduler nFile nBlock) (s : Slot nFile nBlock) : ℤ :=
  if (d.data s).isSome then (d.fileCopyJobs s.1).blockSize else 0

def Fleet.charge (w : Fleet n nFile nBlock) (x : Fin n × Slot nFile nBlock) : ℤ :=
  (w.scheds x.1).charge x.2

structure Conserved (w : Fleet n nFile nBlock) : Prop where
  own : OwnsAll w.data w.shared.allocated
  clean : w.shared.freedTwice = false
  total : w.shared.totalMemAllocated = ∑ x, w.charge x
  inUse : ∀ k s, ((w.scheds k).blockCopyJobs s).inUse = (w.data (k, s)).isSome
  active : ∀ k s, (w.data (k, s)).isSome = true → (w.job k s.1).active = true
  parent : ∀ k s f, ((w.scheds k).blockCopyJobs s).parent = some f → f = s.1

theorem store_freedTwice {sh : SharedState} {data : Option Ptr} {lo hi : ℕ} {v : ℕ → UInt8} :
    (sh.store data lo hi v).freedTwice = sh.freedTwice := by cases data <;> rfl

theorem store_total {sh : SharedState} {data : Option Ptr} {lo hi : ℕ} {v : ℕ → UInt8} :
    (sh.store data lo hi v).totalMemAllocated = sh.totalMemAllocated := by cases data <;> rfl

/-- Starting a block in a slot without a buffer, seen by the allocator: nothing was
handed out, or a buffer that nobody held and that now counts for the block size. -/
theorem State.schedule_total (st : State nFile nBlock) (f : Fin nFile) {s : Slot nFile nBlock}
    (hdata : (st.sched.blockCopyJobs s).data = none) (malloc : Option (Ptr × (ℕ → UInt8))) :
    (∃ sh, st.schedulerScheduleBlockCopyJob f s malloc false = ⟨st.sched.setBlock s {}, sh⟩ ∧
      sh.allocated = st.shared.allocated ∧ sh.freedTwice = st.shared.freedTwice ∧
      sh.totalMemAllocated = st.shared.totalMemAllocated) ∨
    ∃ p sh, st.schedulerScheduleBlockCopyJob f s malloc false =
        ⟨st.sched.issue f s (st.startBlock f s (some p)), sh⟩ ∧
      st.shared.allocated p = false ∧
      sh.allocated = Function.update st.shared.allocated p true ∧
      sh.freedTwice = st.shared.freedTwice ∧ sh.totalMemAllocated =
        st.shared.totalMemAllocated + (st.sched.fileCopyJobs f).blockSize := by
  rw [schedulerScheduleBlockCopyJob]
  split
  · exact .inl ⟨st.shared, by simp [clear_eq, freed, hdata, CopyScheduler.nextBlock], rfl, rfl, rfl⟩
  · rw [if_neg (by simp)]
    dsimp only
    cases hm : st.shared.buddyMalloc malloc with
    | none =>
      refine .inl ⟨{ st.shared with
        allocationAttempts := st.shared.allocationAttempts + 1
        allocationFailures := st.shared.allocationFailures + 1 }, ?_, rfl, rfl, rfl⟩
      simp [clear_eq, freed, hdata, CopyScheduler.nextBlock]
    | some c => exact .inr ⟨c.1, _, rfl, SharedState.buddyMalloc_some hm, rfl, rfl, rfl⟩

theorem transfer_freedTwice {sh : SharedState} {cb : Iocb} {res : ℤ} :
    (State.transfer sh cb res).freedTwice = sh.freedTwice := by
  rw [State.transfer]
  cases cb.opcode with
  | pread => exact store_freedTwice
  | pwrite => rfl

theorem transfer_total {sh : SharedState} {cb : Iocb} {res : ℤ} :
    (State.transfer sh cb res).totalMemAllocated = sh.totalMemAllocated := by
  rw [State.transfer]
  cases cb.opcode with
  | pread => exact store_total
  | pwrite => rfl

/-- One turn of the loop of `schedulerClearFileCopyJob`. -/
def State.clearSlot (f : Fin nFile) (st : State nFile nBlock) (j : Fin nBlock) :
    State nFile nBlock :=
  if (st.sched.blockCopyJobs (f, j)).inUse then st.schedulerClearBlockCopyJob f (f, j) false
  else st

theorem State.schedulerClearFileCopyJob_eq (st : State nFile nBlock) (f : Fin nFile) :
    let st' := (List.finRange nBlock).foldl (clearSlot f) st
    st.schedulerClearFileCopyJob f =
      { st' with sched := (st'.sched.setFile f {}).setHistory f {} } := rfl

/-- The loop leaves no slot of the file job in use. -/
theorem State.clearSlots_free {f : Fin nFile} (st : State nFile nBlock) {l : List (Fin nBlock)}
    (hl : ∀ j, j ∈ l) (j : Fin nBlock) :
    ((l.foldl (clearSlot f) st).sched.blockCopyJobs (f, j)).inUse = false := by
  have hkeep : ∀ (l : List (Fin nBlock)) (st : State nFile nBlock),
      (st.sched.blockCopyJobs (f, j)).inUse = false →
      ((l.foldl (clearSlot f) st).sched.blockCopyJobs (f, j)).inUse = false := by
    intro l
    induction l with
    | nil => exact fun st h => h
    | cons i l ih =>
      intro st h
      refine ih _ ?_
      rw [clearSlot]
      split
      · rw [clear_eq]
        by_cases hi : j = i
        · simp [hi]
        · simpa [hi] using h
      · exact h
  obtain ⟨before, after, rfl⟩ := List.append_of_mem (hl j)
  rw [List.foldl_append, List.foldl_cons]
  refine hkeep after _ ?_
  rw [clearSlot]
  split
  · rw [clear_eq]
    simp
  · rename_i hfree
    simpa using hfree

namespace Conserved
variable {w : Fleet n nFile nBlock} {k : Fin n} {st st' : State nFile nBlock}
  {s : Slot nFile nBlock} {cfg : Config}

theorem initial (hw : ∀ k, w.scheds k = {}) (hfree : ∀ p, w.shared.allocated p = false)
    (htotal : w.shared.totalMemAllocated = 0) (hclean : w.shared.freedTwice = false) :
    Conserved w where
  own := .of_none (fun x => by simp [Fleet.data, CopyScheduler.data, hw]) hfree
  clean := hclean
  total := by simp [htotal, Fleet.charge, CopyScheduler.charge, CopyScheduler.data, hw]
  inUse k s := by simp [Fleet.data, CopyScheduler.data, hw]
  active k s hs := by simp [Fleet.data, CopyScheduler.data, hw] at hs
  parent k s f hf := by simp [hw] at hf

/-- A step of one scheduler, seen from the others. -/
theorem put (hown : OwnsAll (w.put k st').data st'.shared.allocated)
    (hclean : st'.shared.freedTwice = false)
    (htotal : st'.shared.totalMemAllocated = ∑ x, (w.put k st').charge x)
    (h : Conserved w)
    (hinUse : ∀ t, (st'.sched.blockCopyJobs t).inUse = (st'.sched.data t).isSome)
    (hactive : ∀ t, (st'.sched.data t).isSome = true → (st'.sched.fileCopyJobs t.1).active = true)
    (hparent : ∀ t f, (st'.sched.blockCopyJobs t).parent = some f → f = t.1) :
    Conserved (w.put k st') where
  own := hown
  clean := hclean
  total := htotal
  inUse k' t := by
    by_cases hk : k' = k
    · subst hk
      simpa [Fleet.put, Fleet.data] using hinUse t
    · simpa [Fleet.put, Fleet.data, hk] using h.inUse k' t
  active k' t ht := by
    by_cases hk : k' = k
    · subst hk
      simp only [Fleet.put, Fleet.data, Fleet.job, Function.update_self] at ht ⊢
      exact hactive t ht
    · simp only [Fleet.put, Fleet.data, Fleet.job, Function.update_of_ne hk] at ht ⊢
      exact h.active k' t ht
  parent k' t f hf := by
    by_cases hk : k' = k
    · subst hk
      simp only [Fleet.put, Function.update_self] at hf
      exact hparent t f hf
    · simp only [Fleet.put, Function.update_of_ne hk] at hf
      exact h.parent k' t f hf

/-- A step that works on one slot, and changes nothing of the files but their counters. -/
theorem put_slot (h : Conserved w) (st' : State nFile nBlock)
    (hother : ∀ t ≠ s, st'.sched.blockCopyJobs t = (w.scheds k).blockCopyJobs t)
    (hfixed : ∀ f, st'.sched.fixed f = (w.scheds k).fixed f)
    (hown : OwnsAll (Function.update w.data (k, s) (st'.sched.data s)) st'.shared.allocated)
    (hclean : st'.shared.freedTwice = false)
    (htotal : st'.shared.totalMemAllocated + w.charge (k, s) =
      w.shared.totalMemAllocated + st'.sched.charge s)
    (hinUse : (st'.sched.blockCopyJobs s).inUse = (st'.sched.data s).isSome)
    (hactive : (st'.sched.data s).isSome = true → (w.job k s.1).active = true)
    (hparent : ∀ f, (st'.sched.blockCopyJobs s).parent = some f → f = s.1) :
    Conserved (w.put k st') := by
  have hdata : ∀ t ≠ s, st'.sched.data t = (w.scheds k).data t := fun t ht => by
    rw [CopyScheduler.data, CopyScheduler.data, hother t ht]
  have hsize : ∀ f, (st'.sched.fileCopyJobs f).blockSize = (w.job k f).blockSize :=
    fun f => (congrArg FileCopyJob.blockSize (hfixed f) :)
  have hact : ∀ f, (st'.sched.fileCopyJobs f).active = (w.job k f).active :=
    fun f => (congrArg FileCopyJob.active (hfixed f) :)
  have hcharge : ∀ x ≠ (k, s), (w.put k st').charge x = w.charge x := by
    rintro ⟨k', t⟩ hx
    by_cases hk : k' = k
    · subst hk
      have ht : t ≠ s := fun he => hx (by rw [he])
      simp only [Fleet.charge, Fleet.put, Function.update_self, CopyScheduler.charge, hdata t ht,
        hsize]
      rfl
    · simp [Fleet.charge, Fleet.put, hk]
  refine h.put (Clean.data_put hdata ▸ hown) hclean ?_ (fun t => ?_) (fun t ht => ?_) fun t f hf => ?_
  · have hsum := sum_add_of_one (k, s) hcharge
    have hself : (w.put k st').charge (k, s) = st'.sched.charge s := by
      simp [Fleet.charge, Fleet.put]
    have hbefore := h.total
    omega
  · by_cases hts : t = s
    · subst hts
      exact hinUse
    · rw [hother t hts, hdata t hts]
      exact h.inUse k t
  · rw [hact]
    by_cases hts : t = s
    · subst hts
      exact hactive ht
    · rw [hdata t hts] at ht
      exact h.active k t ht
  · by_cases hts : t = s
    · subst hts
      exact hparent f hf
    · rw [hother t hts] at hf
      exact h.parent k t f hf

/-- A slot that keeps its buffer moves to another stage. -/
theorem stage (h : Conserved w) (hother : ∀ t ≠ s,
      st'.sched.blockCopyJobs t = (w.scheds k).blockCopyJobs t)
    (hfixed : ∀ f, st'.sched.fixed f = (w.scheds k).fixed f)
    (hdata : st'.sched.data s = w.data (k, s))
    (hinUse : (st'.sched.blockCopyJobs s).inUse = ((w.scheds k).blockCopyJobs s).inUse)
    (hparent : ∀ f, (st'.sched.blockCopyJobs s).parent = some f → f = s.1)
    (halloc : st'.shared.allocated = w.shared.allocated)
    (hfreed : st'.shared.freedTwice = w.shared.freedTwice)
    (htotal : st'.shared.totalMemAllocated = w.shared.totalMemAllocated) :
    Conserved (w.put k st') := by
  have hsize : (st'.sched.fileCopyJobs s.1).blockSize = (w.job k s.1).blockSize :=
    (congrArg FileCopyJob.blockSize (hfixed s.1) :)
  refine h.put_slot st' hother hfixed ?_ (hfreed.trans h.clean) ?_ ?_ (fun hs => ?_) hparent
  · rw [hdata, Function.update_eq_self, halloc]
    exact h.own
  · rw [htotal, CopyScheduler.charge, hdata, hsize]
    rfl
  · rw [hinUse, hdata, h.inUse]
  · rw [hdata] at hs
    exact h.active k s hs

/-- The slot is cleared and its buffer, if it has one, is given back. -/
theorem clear (h : Conserved w)
    (hblocks : st'.sched.blockCopyJobs = Function.update (w.scheds k).blockCopyJobs s {})
    (hfixed : ∀ f, st'.sched.fixed f = (w.scheds k).fixed f)
    (halloc : st'.shared.allocated = match w.data (k, s) with
      | none => w.shared.allocated
      | some p => Function.update w.shared.allocated p false)
    (hfreed : st'.shared.freedTwice = match w.data (k, s) with
      | none => w.shared.freedTwice
      | some p => w.shared.freedTwice || !w.shared.allocated p)
    (htotal : st'.shared.totalMemAllocated = w.shared.totalMemAllocated - w.charge (k, s)) :
    Conserved (w.put k st') := by
  have hself : st'.sched.blockCopyJobs s = {} := by rw [hblocks, Function.update_self]
  have hnone : st'.sched.data s = none := by rw [CopyScheduler.data, hself]
  have hcharge : st'.sched.charge s = 0 := by simp [CopyScheduler.charge, hnone]
  refine h.put_slot (s := s) st' (fun t ht => ?_) hfixed ?_ ?_ (by omega) ?_ (fun hs => ?_)
    fun f hf => ?_
  · rw [hblocks, Function.update_of_ne ht]
  · rw [hnone]
    cases hd : w.data (k, s) with
    | none =>
      simp only [hd] at halloc
      rw [halloc, ← hd, Function.update_eq_self]
      exact h.own
    | some p =>
      simp only [hd] at halloc
      rw [halloc]
      exact h.own.free hd
  · -- the slot is the one that has the buffer, so the buffer is allocated
    cases hd : w.data (k, s) with
    | none =>
      simp only [hd] at hfreed
      exact hfreed.trans h.clean
    | some p =>
      simp only [hd, h.clean, h.own.owns.allocated (k, s) p hd] at hfreed
      exact hfreed
  · rw [hself, hnone]
    rfl
  · simp [hnone] at hs
  · simp [hself] at hf

/-- A slot with the buffer it has got takes up a block. -/
theorem issue (h : Conserved w) {sh : SharedState} {data : Option Ptr}
    (hdata : data.isSome = true)
    (hblocks : ∀ t ≠ s, st.sched.blockCopyJobs t = (w.scheds k).blockCopyJobs t)
    (hfixed : ∀ f, st.sched.fixed f = (w.scheds k).fixed f)
    (hactive : (w.job k s.1).active = true)
    (hown : OwnsAll (Function.update w.data (k, s) data) sh.allocated)
    (hfreed : sh.freedTwice = w.shared.freedTwice)
    (htotal : sh.totalMemAllocated + w.charge (k, s) =
      w.shared.totalMemAllocated + (w.job k s.1).blockSize) :
    Conserved (w.put k ⟨st.sched.issue s.1 s (st.startBlock s.1 s data), sh⟩) := by
  have hself : (st.sched.issue s.1 s (st.startBlock s.1 s data)).blockCopyJobs s =
      st.issuedBlock s.1 s data := by rw [State.issue_blockCopyJobs, Function.update_self]
  have hnew : (st.sched.issue s.1 s (st.startBlock s.1 s data)).data s = data := by
    rw [CopyScheduler.data, hself, State.issuedBlock_data]
  have hfixed' : ∀ f, (st.sched.issue s.1 s (st.startBlock s.1 s data)).fixed f =
      (w.scheds k).fixed f := fun f => (CopyScheduler.fixed_issue ..).trans (hfixed f)
  have hsize : ((st.sched.issue s.1 s (st.startBlock s.1 s data)).fileCopyJobs s.1).blockSize =
      (w.job k s.1).blockSize := (congrArg FileCopyJob.blockSize (hfixed' s.1) :)
  refine h.put_slot ⟨_, sh⟩ (fun t ht => ?_) hfixed' ?_ (hfreed.trans h.clean) ?_ ?_
    (fun _ => hactive) fun f hf => ?_
  · rw [State.issue_blockCopyJobs, Function.update_of_ne ht, hblocks t ht]
  · rw [hnew]
    exact hown
  · rw [htotal, CopyScheduler.charge, hnew, if_pos hdata, hsize]
  · rw [hself, hnew, hdata, State.issuedBlock_inUse]
  · rw [hself] at hf
    exact (Option.some.inj hf).symm

/-- What the allocator accounts for after the buffer of a slot has been given back. -/
theorem freed_total {st : State nFile nBlock} {s : Slot nFile nBlock} :
    (st.freed s.1 s).totalMemAllocated = st.shared.totalMemAllocated - st.sched.charge s := by
  rw [State.freed, CopyScheduler.charge, CopyScheduler.data]
  cases (st.sched.blockCopyJobs s).data <;> simp

theorem freed_freedTwice {st : State nFile nBlock} (f : Fin nFile) {s : Slot nFile nBlock} :
    (st.freed f s).freedTwice = match st.sched.data s with
      | none => st.shared.freedTwice
      | some p => st.shared.freedTwice || !st.shared.allocated p := by
  rw [State.freed, CopyScheduler.data]
  cases (st.sched.blockCopyJobs s).data <;> rfl

theorem requestFailed (h : Conserved w) :
    Conserved (w.put k ((w.view k).requestFailed s.1 s)) := by
  rw [State.requestFailed, State.clear_eq]
  refine h.clear rfl (fun f => CopyScheduler.fixed_setFile (d := w.scheds k) rfl)
    (Clean.freed_allocated _) (freed_freedTwice _) ?_
  rw [freed_total, CopyScheduler.charge, CopyScheduler.setFile_fileCopyJobs,
    Function.update_self]
  rfl

/-- A slot that keeps its buffer takes up the next block, or gives the buffer back when
there is none. -/
theorem reschedule (h : Conserved w) {b : BlockCopyJob nFile}
    (hblocks : st.sched.blockCopyJobs = Function.update (w.scheds k).blockCopyJobs s b)
    (hfixed : ∀ f, st.sched.fixed f = (w.scheds k).fixed f)
    (hshared : st.shared = w.shared) (hdata : b.data = w.data (k, s))
    (hsome : b.data.isSome = true) :
    Conserved (w.put k (st.schedulerScheduleBlockCopyJob s.1 s none true)) := by
  have hb : st.sched.data s = w.data (k, s) := by
    rw [CopyScheduler.data, hblocks, Function.update_self, hdata]
  have hsize : (st.sched.fileCopyJobs s.1).blockSize = (w.job k s.1).blockSize :=
    (congrArg FileCopyJob.blockSize (hfixed s.1) :)
  have hcharge : st.sched.charge s = w.charge (k, s) := by
    rw [CopyScheduler.charge, hb, hsize]
    rfl
  rw [State.schedule_preallocated]
  split
  · refine h.clear (s := s) ?_ hfixed ?_ ?_ ?_
    · rw [CopyScheduler.setBlock_blockCopyJobs, hblocks, Function.update_idem]
    · have hfreed : (st.freed s.1 s).allocated = _ := Clean.freed_allocated s.1
      rw [hshared, hb] at hfreed
      exact hfreed
    · have hfreed : (st.freed s.1 s).freedTwice = _ := freed_freedTwice s.1
      rw [hshared, hb] at hfreed
      exact hfreed
    · rw [freed_total, hcharge, hshared]
  · refine h.issue ?_ (fun t ht => ?_) hfixed (h.active k s (hdata ▸ hsome)) ?_ (by rw [hshared]) ?_
    · rwa [hblocks, Function.update_self]
    · rw [hblocks, Function.update_of_ne ht]
    · rw [hblocks, Function.update_self, hdata, Function.update_eq_self, hshared]
      exact h.own
    · rw [hshared, ← hcharge, CopyScheduler.charge, hb, ← hdata, if_pos hsome, hsize]

theorem blockFinished (h : Conserved w) (huse : (w.data (k, s)).isSome = true) :
    Conserved (w.put k ((w.view k).blockFinished cfg s.1 s)) := by
  rw [State.blockFinished, State.clear_nofree_eq]
  exact h.reschedule rfl (fun f => CopyScheduler.fixed_setFile (d := w.scheds k) rfl) rfl rfl huse

theorem readFinished (h : Conserved w) : Conserved (w.put k ((w.view k).readFinished cfg s)) := by
  rw [State.readFinished]
  dsimp only
  split
  · refine h.stage (s := s) (fun t ht => Function.update_of_ne ht ..) (fun f => rfl) ?_ ?_
      (fun f hf => h.parent k s f ?_) rfl rfl rfl
    · simp [CopyScheduler.data, Fleet.data, Fleet.view]
    · simp [Fleet.view]
    · simpa [Fleet.view] using hf
  · refine h.stage (s := s) (fun t ht => Function.update_of_ne ht ..) (fun f => rfl) ?_ ?_
      (fun f hf => h.parent k s f ?_) SharedState.store_allocated store_freedTwice store_total
    · simp [CopyScheduler.data, Fleet.data, Fleet.view]
    · simp [Fleet.view]
    · simpa [Fleet.view] using hf

theorem writeFinished (h : Conserved w) :
    Conserved (w.put k ((w.view k).writeFinished cfg s)) := by
  rw [State.writeFinished]
  dsimp only
  split
  · refine h.stage (s := s) (fun t ht => Function.update_of_ne ht ..) (fun f => rfl) ?_ ?_
      (fun f hf => h.parent k s f ?_) SharedState.store_allocated store_freedTwice store_total
    · simp [CopyScheduler.data, Fleet.data, Fleet.view]
    · simp [Fleet.view]
    · simpa [Fleet.view] using hf
  · refine h.stage (s := s) (fun t ht => Function.update_of_ne ht ..) (fun f => rfl) ?_ ?_
      (fun f hf => h.parent k s f ?_) rfl rfl rfl
    · simp [CopyScheduler.data, Fleet.data, Fleet.view]
    · simp [Fleet.view]
    · simpa [Fleet.view] using hf

theorem updateSlot (h : Conserved w) (huse : ((w.scheds k).blockCopyJobs s).inUse = true) :
    Conserved (w.put k ((w.view k).schedulerUpdateBlockCopyJob cfg s.1 s)) := by
  have hsome : (w.data (k, s)).isSome = true := by rw [← h.inUse, huse]
  rw [State.schedulerUpdateBlockCopyJob]
  split
  · cases ((w.view k).sched.blockCopyJobs s).type with
    | read => exact h.readFinished
    | write => exact h.writeFinished
    | readDst => exact h.blockFinished hsome
    | finish => exact h.blockFinished hsome
  · split
    · exact h.requestFailed
    · rwa [Fleet.put_view_self]

/-- A free slot gets a buffer and takes up the next block, unless there is none of either. -/
theorem schedule (h : Conserved w) (hactive : (w.job k s.1).active = true)
    (hfree : ((w.scheds k).blockCopyJobs s).inUse = false) (malloc : Option (Ptr × (ℕ → UInt8))) :
    Conserved (w.put k ((w.view k).schedulerScheduleBlockCopyJob s.1 s malloc false)) := by
  have hnone : w.data (k, s) = none := by
    have hidle := h.inUse k s
    rw [hfree] at hidle
    simpa using hidle.symm
  have hcharge : w.charge (k, s) = 0 := by
    have hd : (w.scheds k).data s = none := hnone
    simp [Fleet.charge, CopyScheduler.charge, hd]
  rcases State.schedule_total (w.view k) s.1 hnone malloc with
    ⟨sh, heq, halloc, hfreed, htotal⟩ | ⟨p, sh, heq, hp, halloc, hfreed, htotal⟩ <;> rw [heq]
  · refine h.clear rfl (fun f => rfl) ?_ ?_ ?_
    · simp only [hnone]
      exact halloc
    · simp only [hnone]
      exact hfreed
    · rw [hcharge, sub_zero]
      exact htotal
  · refine h.issue rfl (fun t _ => rfl) (fun f => rfl) hactive ?_ hfreed ?_
    · rw [halloc]
      exact h.own.alloc hnone hp
    · rw [htotal, hcharge, add_zero]
      rfl

/-- A step that touches no slot: requests move, and entries without slots change. -/
theorem put_quiet (h : Conserved w) (hblocks : st'.sched.blockCopyJobs = (w.scheds k).blockCopyJobs)
    (hjobs : ∀ t, (w.data (k, t)).isSome = true → st'.sched.fileCopyJobs t.1 = w.job k t.1)
    (halloc : st'.shared.allocated = w.shared.allocated)
    (hfreed : st'.shared.freedTwice = w.shared.freedTwice)
    (htotal : st'.shared.totalMemAllocated = w.shared.totalMemAllocated) :
    Conserved (w.put k st') := by
  have hsched : st'.sched.data = (w.scheds k).data := by
    funext t
    rw [CopyScheduler.data, CopyScheduler.data, hblocks]
  have hdata : (w.put k st').data = w.data := by
    funext x
    by_cases hx : x.1 = k
    · simp [Fleet.data, Fleet.put, hx, hsched]
    · simp [Fleet.data, Fleet.put, hx]
  have hcharge : (w.put k st').charge = w.charge := by
    funext x
    obtain ⟨k', t⟩ := x
    by_cases hk : k' = k
    · subst hk
      simp only [Fleet.charge, Fleet.put, Function.update_self, CopyScheduler.charge, hsched]
      split
      · rename_i ht
        rw [hjobs t ht]
        rfl
      · rfl
    · simp [Fleet.charge, Fleet.put, hk]
  refine h.put ?_ (hfreed.trans h.clean) ?_ (fun t => ?_) (fun t ht => ?_) fun t f hf => ?_
  · rw [hdata, halloc]
    exact h.own
  · rw [hcharge, htotal]
    exact h.total
  · rw [hblocks, hsched]
    exact h.inUse k t
  · rw [hsched] at ht
    rw [hjobs t ht]
    exact h.active k t ht
  · rw [hblocks] at hf
    exact h.parent k t f hf

theorem clearSlot (h : Conserved (w.put k st)) {f : Fin nFile} (j : Fin nBlock) :
    Conserved (w.put k (st.clearSlot f j)) := by
  rw [State.clearSlot]
  split
  · rw [State.clear_eq, ← Fleet.put_put w k st]
    have hsched : (w.put k st).scheds k = st.sched := by simp [Fleet.put]
    have hshared : (w.put k st).shared = st.shared := rfl
    refine h.clear (s := (f, j)) ?_ (fun g => ?_) ?_ ?_ ?_
    · rw [hsched]
      rfl
    · rw [hsched]
      rfl
    · rw [Fleet.data, hsched, hshared]
      exact Clean.freed_allocated f
    · rw [Fleet.data, hsched, hshared]
      exact freed_freedTwice f
    · rw [Fleet.charge, hsched, hshared]
      exact freed_total (s := (f, j))
  · exact h

theorem clearSlots (h : Conserved (w.put k st)) {f : Fin nFile} (l : List (Fin nBlock)) :
    Conserved (w.put k (l.foldl (State.clearSlot f) st)) := by
  induction l generalizing st with
  | nil => exact h
  | cons j l ih => exact ih (h.clearSlot j)

/-- The slots of a file job are cleared, and then its entry, which no slot needs any more. -/
theorem clearFile (h : Conserved (w.put k st)) (f : Fin nFile) :
    Conserved (w.put k (st.schedulerClearFileCopyJob f)) := by
  have hcleared := h.clearSlots (f := f) (List.finRange nBlock)
  have hfree := State.clearSlots_free (f := f) st (List.mem_finRange ·)
  rw [State.schedulerClearFileCopyJob_eq]
  rw [← Fleet.put_put w k ((List.finRange nBlock).foldl (State.clearSlot f) st)]
  have hsched : (w.put k ((List.finRange nBlock).foldl (State.clearSlot f) st)).scheds k =
      ((List.finRange nBlock).foldl (State.clearSlot f) st).sched := by simp [Fleet.put]
  refine hcleared.put_quiet ?_ (fun t ht => ?_) rfl rfl rfl
  · rw [hsched]
    rfl
  · have hne : t.1 ≠ f := by
      rintro rfl
      rw [← hcleared.inUse, hsched, hfree t.2] at ht
      cases ht
    rw [Fleet.job, hsched]
    simp [hne]

theorem completeOrSchedule (h : Conserved w) {f : Fin nFile} (hactive : (w.job k f).active = true)
    (malloc : Option (Ptr × (ℕ → UInt8))) :
    Conserved (w.put k ((w.view k).completeOrSchedule f malloc)) := by
  by_cases hdone : ((w.view k).sched.fileCopyJobs f).blockCount ≤
      ((w.view k).sched.fileCopyJobs f).nBlockJobsFinished
  · rw [State.completeOrSchedule, if_pos hdone]
    have henqueued : Conserved (w.put k ((w.view k).enqueued f)) :=
      h.put_quiet rfl (fun t _ => rfl) rfl rfl rfl
    exact henqueued.clearFile f
  · rcases State.completeOrSchedule_cases malloc hdone with heq | ⟨j, hfree, heq⟩
    · rwa [heq, Fleet.put_view_self]
    · rw [heq]
      exact h.schedule (s := (f, j)) hactive hfree malloc

theorem acceptJob (h : Conserved w) {f : Fin nFile} (hactive : (w.job k f).active = false)
    (newJob : FileCopyJob) : Conserved (w.put k ((w.view k).acceptJob f newJob)) := by
  refine h.put_quiet rfl (fun t ht => ?_) rfl rfl rfl
  have hne : t.1 ≠ f := by
    rintro rfl
    rw [h.active k t ht] at hactive
    cases hactive
  simp [State.acceptJob, Fleet.view, Fleet.job, hne]

theorem failRequest (h : Conserved (w.put k st)) (s : Slot nFile nBlock) :
    Conserved (w.put k (st.failRequest s)) := by
  have hsched : (w.put k st).scheds k = st.sched := by simp [Fleet.put]
  have hshared : (w.put k st).shared = st.shared := rfl
  cases hparent : (st.sched.blockCopyJobs s).parent with
  | none =>
    rw [State.failRequest, hparent]
    exact h
  | some f =>
    obtain rfl : f = s.1 := h.parent k s f (hsched ▸ hparent)
    have hfixed : ∀ g, (st.failRequest s).sched.fixed g = ((w.put k st).scheds k).fixed g :=
      fun g => by rw [hsched, failRequest_fixed]
    rw [← Fleet.put_put w k st]
    rw [State.failRequest, hparent] at hfixed ⊢
    dsimp only at hfixed ⊢
    rw [State.clear_eq] at hfixed ⊢
    refine h.clear (s := s) ?_ hfixed ?_ ?_ ?_
    · rw [hsched]
      rfl
    · rw [Fleet.data, hsched, hshared]
      exact Clean.freed_allocated s.1
    · rw [Fleet.data, hsched, hshared]
      exact freed_freedTwice s.1
    · rw [Fleet.charge, hsched, hshared]
      exact freed_total

theorem failBatch (h : Conserved (w.put k st)) (l : List (Slot nFile nBlock)) :
    Conserved (w.put k (l.foldl State.failRequest st)) := by
  induction l generalizing st with
  | nil => exact h
  | cons s l ih => exact ih (h.failRequest s)

theorem submit (h : Conserved w) (submitted : ℤ) :
    Conserved (w.put k ((w.view k).schedIOSubmitBatch submitted).2) := by
  have hself : Conserved (w.put k (w.view k)) := by rwa [Fleet.put_view_self]
  rw [State.schedIOSubmitBatch]
  dsimp only
  split
  · exact hself
  · split
    · have hfailed := hself.failBatch (w.view k).sched.cbBatch
      rw [← Fleet.put_put w k ((w.view k).sched.cbBatch.foldl State.failRequest (w.view k))]
      refine hfailed.put_quiet ?_ (fun t _ => ?_) rfl rfl rfl <;> simp [Fleet.put, Fleet.job]
    · exact h.put_quiet rfl (fun t _ => rfl) rfl rfl rfl

theorem ioComplete (h : Conserved w) {res : ℤ} (hc : (w.view k).ioComplete s res = some st') :
    Conserved (w.put k st') := by
  obtain ⟨cb, -, hsh, hst⟩ := State.ioComplete_cases hc
  refine h.stage (s := s) (fun t ht => ?_) (fun f => ?_) ?_ ?_ (fun f hf => h.parent k s f ?_) ?_ ?_
    ?_
  · rw [hst]
    exact Function.update_of_ne ht ..
  · rw [hst]
    rfl
  · simp [hst, CopyScheduler.data, Fleet.data, Fleet.view]
  · simp [hst, Fleet.view]
  · simpa [hst, Fleet.view] using hf
  · rw [hsh]
    exact transfer_allocated
  · rw [hsh]
    exact transfer_freedTwice
  · rw [hsh]
    exact transfer_total

theorem apply (h : Conserved w) {op : Op nFile nBlock} (hs : (w.view k).apply cfg op = some st') :
    Conserved (w.put k st') := by
  cases op with
  | updateSlot s =>
    obtain ⟨hcond, hs⟩ := Option.ite_none_right_eq_some.mp hs
    obtain rfl := Option.some.inj hs
    exact h.updateSlot (by simp_all [Fleet.view])
  | updateFile f malloc =>
    obtain ⟨hactive, hs⟩ := Option.ite_none_right_eq_some.mp hs
    obtain rfl := Option.some.inj hs
    exact h.completeOrSchedule hactive malloc
  | accept f newJob =>
    obtain ⟨hactive, hs⟩ := Option.ite_none_left_eq_some.mp hs
    obtain rfl := Option.some.inj hs
    exact h.acceptJob (by simpa [Fleet.job, Fleet.view] using hactive) newJob
  | submit submitted =>
    obtain rfl := Option.some.inj hs
    exact h.submit submitted
  | complete s res => exact h.ioComplete hs
  | environment files =>
    obtain rfl := Option.some.inj hs
    exact h.put_quiet rfl (fun t _ => rfl) rfl rfl rfl
  | finish i =>
    obtain ⟨-, hs⟩ := Option.ite_none_right_eq_some.mp hs
    obtain rfl := Option.some.inj hs
    exact h.put_quiet rfl (fun t _ => rfl) rfl rfl rfl

theorem reachable {C : Fleet n nFile nBlock → Fin n × Op nFile nBlock → Prop}
    (h : (system cfg n nFile nBlock).Reach C w) : Conserved w := by
  refine h.invariant (fun w hw => .initial hw.1 hw.2.1 hw.2.2.1 hw.2.2.2.2)
    fun w a w' hw _ hn => ?_
  obtain ⟨st', hs, rfl⟩ := Option.map_eq_some_iff.mp hn
  exact hw.apply hs

theorem total_nonneg (h : Conserved w) : 0 ≤ w.shared.totalMemAllocated := by
  rw [h.total]
  refine Finset.sum_nonneg fun x _ => ?_
  rw [Fleet.charge, CopyScheduler.charge]
  split <;> simp

theorem total_idle (h : Conserved w) (hidle : ∀ k f, (w.job k f).active = false) :
    w.shared.totalMemAllocated = 0 := by
  rw [h.total]
  refine Finset.sum_eq_zero fun x _ => ?_
  rw [Fleet.charge, CopyScheduler.charge, if_neg]
  intro hx
  have hactive := h.active x.1 x.2 hx
  rw [hidle] at hactive
  cases hactive

end Conserved

/-- In every reachable state a buffer is allocated exactly if one slot has it, the slots in
use are those with a buffer, no buffer has been given back that was not allocated, and the total
is what the buffers count for. -/
theorem buffers_conserved {cfg : Config} {w : Fleet n nFile nBlock}
    (h : (system cfg n nFile nBlock).Reach (fun _ _ => True) w) :
    (∀ p, w.shared.allocated p = true ↔ ∃! x, w.data x = some p) ∧
    (∀ k s, ((w.scheds k).blockCopyJobs s).inUse = (w.data (k, s)).isSome) ∧
    w.shared.freedTwice = false ∧
    w.shared.totalMemAllocated = ∑ x, w.charge x ∧ 0 ≤ w.shared.totalMemAllocated ∧
    ((∀ k f, (w.job k f).active = false) → w.shared.totalMemAllocated = 0) := by
  have hc := Conserved.reachable h
  exact ⟨fun p => hc.own.allocated_iff, hc.inUse, hc.clean, hc.total, hc.total_nonneg, hc.total_idle⟩

/-- One of the two reads failed and gave its buffer back. -/
theorem buffers_conserved_sample :
    (∀ p, sampleFleet.shared.allocated p = true ↔ ∃! x, sampleFleet.data x = some p) ∧
    (∀ k s, ((sampleFleet.scheds k).blockCopyJobs s).inUse =
      (sampleFleet.data (k, s)).isSome) ∧
    sampleFleet.shared.freedTwice = false ∧
    sampleFleet.shared.totalMemAllocated = ∑ x, sampleFleet.charge x ∧
    0 ≤ sampleFleet.shared.totalMemAllocated ∧
    ((∀ k f, (sampleFleet.job k f).active = false) → sampleFleet.shared.totalMemAllocated = 0) :=
  buffers_conserved (sampleFleet_reach.mono fun _ _ _ => trivial)

end Copy2.Scheduler
