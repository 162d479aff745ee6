import Copy2.FileJob.Blocks
import Copy2.Scheduler.LedgerSteps

/-! # Job numbers and offsets

A block is scheduled under the number of blocks scheduled and finished before. This number is
stored in an `int` and multiplied back into an offset; a file of more than `2 ^ 31` blocks
comes to a number that does not fit, whose block is cleared every time. -/
namespace Copy2.Scheduler
open FileJob Lib

variable {nFile nBlock : ℕ}

structure OnBlock (job : FileCopyJob) (b : BlockCopyJob nFile) (n : ℕ) : Prop where
  inUse : b.inUse = true
  jobno : b.jobno = n
  offset : b.offset = job.blockSize * n
  offset_lt : b.offset < job.stx.stx_size
  nbytes_pos : 1 ≤ b.nbytes
  nbytes_le : b.nbytes ≤ job.blockSize

/-- The slot has a buffer, or the allocator gives it one. -/
def GetsBuffer (st : State nFile nBlock) (malloc : Option (Ptr × (ℕ → UInt8))) (pre : Bool) : Prop :=
  pre = true ∨ (st.shared.buddyMalloc malloc).isSome = true

section Block
variable {st : State nFile nBlock} {f : Fin nFile} {s : Slot nFile nBlock}
  {malloc : Option (Ptr × (ℕ → UInt8))} {pre : Bool}

theorem nextBlock_offset_eq : (st.sched.nextBlock f s).offset =
    FileJob.blockOffset (st.sched.fileCopyJobs f).blockSize (st.sched.total f) := by
  rw [CopyScheduler.nextBlock, FileJob.blockOffset, CopyScheduler.total, Nat.add_comm]

theorem nextBlock_jobno_eq : (st.sched.nextBlock f s).jobno = toInt (st.sched.total f) := by
  rw [CopyScheduler.nextBlock, CopyScheduler.total, Nat.add_comm]

theorem issuedBlock_jobno {data : Option Ptr} :
    (st.issuedBlock f s data).jobno = (st.sched.nextBlock f s).jobno := by
  rw [State.issuedBlock, State.startBlock]

theorem issuedBlock_offset {data : Option Ptr} :
    (st.issuedBlock f s data).offset = (st.sched.nextBlock f s).offset := by
  rw [State.issuedBlock, State.startBlock]

theorem issuedBlock_nbytes {data : Option Ptr} : (st.issuedBlock f s data).nbytes =
    min (st.sched.fileCopyJobs f).blockSize
      ((st.sched.fileCopyJobs f).stx.stx_size - (st.sched.nextBlock f s).offset) := by
  rw [State.issuedBlock, State.startBlock]

/-- The blocks that the scheduler issues are those that `Started` describes. -/
theorem started_iff (h : Ledger st.sched) (hactive : (st.sched.fileCopyJobs s.1).active = true)
    (hpos : 0 < (st.sched.fileCopyJobs s.1).blockSize) :
    (st.sched.nextBlock s.1 s).offset < (st.sched.fileCopyJobs s.1).stx.stx_size ↔
      Started (st.sched.fileCopyJobs s.1).stx.stx_size (st.sched.fileCopyJobs s.1).blockSize
        (st.sched.total s.1) := by
  refine ⟨fun hlt => ?_, fun hs => ?_⟩
  · obtain ⟨hcount, hint⟩ := h.total_lt hactive hpos hlt
    exact .of_lt hpos (Statx.size_lt _) hint hcount
  · rw [nextBlock_offset_eq]
    exact hs.2 _ le_rfl

/-- With a buffer at hand, a block that starts in the file is issued. -/
theorem schedule_issued (hbuf : GetsBuffer st malloc pre)
    (hoff : (st.sched.nextBlock f s).offset < (st.sched.fileCopyJobs f).stx.stx_size) :
    ∃ data, (st.schedulerScheduleBlockCopyJob f s malloc pre).sched =
      st.sched.issue f s (st.startBlock f s data) := by
  rw [State.schedulerScheduleBlockCopyJob, if_neg (Nat.not_le.mpr hoff)]
  cases pre with
  | true => exact ⟨(st.sched.blockCopyJobs s).data, by simp [State.startBlock, CopyScheduler.nextBlock]⟩
  | false =>
    obtain ⟨c, hc⟩ := Option.isSome_iff_exists.mp (hbuf.resolve_left Bool.false_ne_true)
    refine ⟨some c.1, ?_⟩
    rw [if_neg Bool.false_ne_true]
    simp only [hc]
    rfl

/-- A block is scheduled as the one it stands for exactly if an `int` holds its number. -/
theorem onBlock_iff (hbuf : GetsBuffer st malloc pre)
    (hpos : 0 < (st.sched.fileCopyJobs f).blockSize)
    (hn : st.sched.total f < (st.sched.fileCopyJobs f).blockCount) :
    OnBlock (st.sched.fileCopyJobs f)
      ((st.schedulerScheduleBlockCopyJob f s malloc pre).sched.blockCopyJobs s) (st.sched.total f) ↔
        st.sched.total f < 2 ^ 31 := by
  have hfile : (st.sched.fileCopyJobs f).blockSize * st.sched.total f <
      (st.sched.fileCopyJobs f).stx.stx_size := (lt_blockCount_iff hpos).mp hn
  have hsize := (st.sched.fileCopyJobs f).stx.size_lt
  constructor
  · intro h
    have hrange : toInt (st.sched.total f) < 2 ^ 31 := Int.bmod_lt (by norm_num)
    rcases State.schedule_sched st f s malloc pre with hs | ⟨-, data, hs⟩
    · have hfree := h.inUse
      rw [hs, CopyScheduler.setBlock_blockCopyJobs, Function.update_self] at hfree
      cases hfree
    · have hjob := h.jobno
      rw [hs, State.issue_blockCopyJobs, Function.update_self] at hjob
      rw [issuedBlock_jobno, nextBlock_jobno_eq] at hjob
      exact_mod_cast hjob ▸ hrange
  · intro h
    have hoff := FileJob.blockOffset_of_lt hfile hsize h
    have hlt : (st.sched.nextBlock f s).offset < (st.sched.fileCopyJobs f).stx.stx_size := by
      rw [nextBlock_offset_eq, hoff]
      exact hfile
    obtain ⟨data, hs⟩ := schedule_issued hbuf hlt
    rw [hs, State.issue_blockCopyJobs, Function.update_self]
    refine ⟨State.issuedBlock_inUse, ?_, ?_, ?_, ?_, ?_⟩
    · rw [issuedBlock_jobno, nextBlock_jobno_eq, toInt_natCast h]
    · rw [issuedBlock_offset, nextBlock_offset_eq, hoff]
    · rwa [issuedBlock_offset]
    · rw [issuedBlock_nbytes]
      exact le_min hpos (Nat.sub_pos_of_lt hlt)
    · rw [issuedBlock_nbytes]
      exact min_le_left ..

end Block

def scheduler (cfg : Config) : TransitionSystem (State nFile nBlock) (Op nFile nBlock) where
  init _ := True
  next st op := st.apply cfg op

/-- The entry holds the job, with one block under way and `m` finished. -/
structure Entry (job : FileCopyJob) (m : ℕ) (d : CopyScheduler nFile nBlock) (f : Fin nFile) :
    Prop where
  active : (d.fileCopyJobs f).active = true
  blockSize : (d.fileCopyJobs f).blockSize = job.blockSize
  stx : (d.fileCopyJobs f).stx = job.stx
  scheduled : (d.fileCopyJobs f).nBlockJobsScheduled = 1
  finished : (d.fileCopyJobs f).nBlockJobsFinished = m

structure Queued (job : FileCopyJob) (m : ℕ) (t : RW) (d : CopyScheduler nFile nBlock)
    (s : Slot nFile nBlock) : Prop extends Entry job m d s.1 where
  inUse : (d.blockCopyJobs s).inUse = true
  type : (d.blockCopyJobs s).type = t
  nbytes_pos : 0 < (d.blockCopyJobs s).nbytes
  nbytes_lt : (d.blockCopyJobs s).nbytes < 2 ^ 63
  request_pos : 0 < (d.blockCopyJobs s).cb.nbytes
  batch : d.cbBatch = [s]
  held : d.held = []

structure Ready (job : FileCopyJob) (m : ℕ) (t : RW) (d : CopyScheduler nFile nBlock)
    (s : Slot nFile nBlock) : Prop extends Entry job m d s.1 where
  inUse : (d.blockCopyJobs s).inUse = true
  type : (d.blockCopyJobs s).type = t
  status : (d.blockCopyJobs s).status = 0
  nbytes_pos : 0 < (d.blockCopyJobs s).nbytes
  nbytes_lt : (d.blockCopyJobs s).nbytes < 2 ^ 63
  batch : d.cbBatch = []
  held : d.held = []

section Progress
variable {g : Config} {job : FileCopyJob} {m : ℕ} {t : RW} {st : State nFile nBlock}
  {s : Slot nFile nBlock}

theorem Entry.total {d : CopyScheduler nFile nBlock} {f : Fin nFile} (h : Entry job m d f) :
    d.total f = m + 1 := by
  rw [CopyScheduler.total, h.finished, h.scheduled]

/-- The kernel takes the request and answers it in full. -/
theorem Queued.ready (h : Queued job m t st.sched s) : ∃ st' : State nFile nBlock,
    (scheduler g).Run (fun _ op => op.Feeds (· = job)) st st' ∧ Ready job m t st'.sched s := by
  obtain ⟨hentry, huse, htype, hpos, hlt, hreq, hbatch, hheld⟩ := h
  set cb := (st.sched.blockCopyJobs s).cb with hcb
  let mid : State nFile nBlock := { st with sched := { st.sched with cbBatch := [], held := [(s, cb)] } }
  have hsubmit : st.apply g (.submit 1) = some mid := by
    simp [State.apply, State.schedIOSubmitBatch, hbatch, hheld, mid, cb]
  have hstatus : aioStatus cb.nbytes cb.nbytes = 0 := aioStatus_full hreq
  let st' := (mid.ioComplete s cb.nbytes).getD mid
  have hanswer : mid.ioComplete s cb.nbytes = some st' := by
    simp [st', State.ioComplete, mid]
  obtain ⟨cb', hmem, -, hsched⟩ := State.ioComplete_cases hanswer
  have hblock : st'.sched.blockCopyJobs s =
      { st.sched.blockCopyJobs s with status := aioStatus cb.nbytes cb.nbytes } := by
    rw [hsched]
    simp [mid, hcb]
  refine ⟨st', .snoc (.single (a := .submit 1) trivial hsubmit) (a := .complete s cb.nbytes) trivial
    hanswer, ⟨?_, ?_, ?_, ?_, ?_⟩, ?_, ?_, ?_, ?_, ?_, ?_, ?_⟩
  · rw [hsched]; exact hentry.active
  · rw [hsched]; exact hentry.blockSize
  · rw [hsched]; exact hentry.stx
  · rw [hsched]; exact hentry.scheduled
  · rw [hsched]; exact hentry.finished
  · rw [hblock]; exact huse
  · rw [hblock]; exact htype
  · rw [hblock]; exact hstatus
  · rw [hblock]; exact hpos
  · rw [hblock]; exact hlt
  · rw [hsched]; rfl
  · rw [hsched]; simp [mid]

theorem Ready.update (h : Ready job m t st.sched s) :
    (scheduler g).next st (.updateSlot s) = some (match t with
      | .read => st.readFinished g s
      | .write => st.writeFinished g s
      | .readDst | .finish => st.blockFinished g s.1 s) := by
  change State.apply g st (.updateSlot s) = _
  rw [State.apply, if_pos (by rw [h.active, h.inUse]; rfl), State.schedulerUpdateBlockCopyJob,
    if_pos h.status, h.type]
  cases t <;> rfl

/-- A block that has been read is written, or was all zero and is done. -/
theorem Ready.read (h : Ready job m .read st.sched s) :
    Ready job m .finish (st.readFinished g s).sched s ∨
      Queued job m .write (st.readFinished g s).sched s := by
  have hlen : (st.sched.blockCopyJobs s).nbytes + 4095 < 2 ^ 64 := by
    have := h.nbytes_lt
    omega
  rw [State.readFinished]
  split
  · refine .inl ⟨⟨h.active, h.blockSize, h.stx, h.scheduled, h.finished⟩, ?_, ?_, ?_, ?_, ?_,
      h.batch, h.held⟩
    · simp [h.inUse]
    · simp
    · simp
    · simp [h.nbytes_pos]
    · simpa using h.nbytes_lt
  · refine .inr ⟨⟨h.active, h.blockSize, h.stx, h.scheduled, h.finished⟩, ?_, ?_, ?_, ?_, ?_,
      ?_, h.held⟩
    · simp [h.inUse]
    · simp
    · simp [h.nbytes_pos]
    · simpa using h.nbytes_lt
    · simp only [CopyScheduler.deferred_blockCopyJobs, CopyScheduler.setBlock_blockCopyJobs,
        Function.update_self]
      exact h.nbytes_pos.trans_le (le_alignUp hlen)
    · simp [h.batch]

/-- A block that has been written is read back, or is done. -/
theorem Ready.write (h : Ready job m .write st.sched s) :
    Ready job m .finish (st.writeFinished g s).sched s ∨
      Queued job m .readDst (st.writeFinished g s).sched s := by
  rw [State.writeFinished]
  split
  · refine .inr ⟨⟨h.active, h.blockSize, h.stx, h.scheduled, h.finished⟩, ?_, ?_, ?_, ?_, ?_,
      ?_, h.held⟩
    · simp [h.inUse]
    · simp
    · simp [h.nbytes_pos]
    · simpa using h.nbytes_lt
    · simp [h.nbytes_pos]
    · simp [h.batch]
  · refine .inl ⟨⟨h.active, h.blockSize, h.stx, h.scheduled, h.finished⟩, ?_, ?_, ?_, ?_, ?_,
      h.batch, h.held⟩
    · simp [h.inUse]
    · simp
    · simp
    · simp [h.nbytes_pos]
    · simpa using h.nbytes_lt

/-- A block that is issued stands in the batch with its read. -/
theorem Entry.queued {d : CopyScheduler nFile nBlock} {data : Option Ptr}
    (h : Entry job m d s.1) (hd : d = st.sched.issue s.1 s (st.startBlock s.1 s data))
    (hbatch : st.sched.cbBatch = []) (hheld : st.sched.held = [])
    (hon : OnBlock (st.sched.fileCopyJobs s.1) (d.blockCopyJobs s) (st.sched.total s.1)) :
    Queued job m .read d s := by
  have hblock : d.blockCopyJobs s = st.issuedBlock s.1 s data := by
    rw [hd, State.issue_blockCopyJobs, Function.update_self]
  rw [hblock] at hon
  refine ⟨h, ?_, ?_, ?_, ?_, ?_, ?_, ?_⟩
  · rw [hblock]; exact hon.inUse
  · rw [hblock, State.issuedBlock, State.startBlock, CopyScheduler.nextBlock]
  · rw [hblock]; exact hon.nbytes_pos
  · rw [hblock]
    have hsize := (st.sched.fileCopyJobs s.1).stx.size_lt
    refine lt_of_le_of_lt ?_ hsize
    rw [issuedBlock_nbytes]
    exact (min_le_right ..).trans (Nat.sub_le ..)
  · have hcb : (st.issuedBlock s.1 s data).cb.nbytes = (st.issuedBlock s.1 s data).nbytes := by
      rw [State.issuedBlock]
    rw [hblock, hcb]
    exact hon.nbytes_pos
  · rw [hd, CopyScheduler.issue]
    simp [hbatch]
  · rw [hd]
    exact hheld

def counted (cfg : Config) (st : State nFile nBlock) (s : Slot nFile nBlock) : State nFile nBlock :=
  let job := st.sched.fileCopyJobs s.1
  let h := st.sched.history s.1
  let bad := if st.hashMismatch cfg s then 1 else 0
  let job := { job with
    nErrors := job.nErrors + bad
    nBlockJobsScheduled := job.nBlockJobsScheduled - 1
    nBlockJobsFinished := job.nBlockJobsFinished + 1 }
  let h := { h with mismatched := h.mismatched + bad }
  let st : State nFile nBlock :=
    { st with sched := (st.sched.setFile s.1 job).setHistory s.1 h }
  st.schedulerClearBlockCopyJob s.1 s true

theorem blockFinished_eq : st.blockFinished g s.1 s =
    (counted g st s).schedulerScheduleBlockCopyJob s.1 s none true := rfl

/-- The entry between two blocks: none under way. -/
structure Between (job : FileCopyJob) (m : ℕ) (e : FileCopyJob) : Prop where
  active : e.active = true
  blockSize : e.blockSize = job.blockSize
  stx : e.stx = job.stx
  scheduled : e.nBlockJobsScheduled = 0
  finished : e.nBlockJobsFinished = m

theorem Between.blockCount {e : FileCopyJob} (h : Between job m e) :
    e.blockCount = job.blockCount := by
  rw [FileCopyJob.blockCount, FileCopyJob.blockCount, h.blockSize, h.stx]

theorem Ready.counted (h : Ready job m t st.sched s) :
    Between job (m + 1) ((counted g st s).sched.fileCopyJobs s.1) := by
  refine ⟨?_, ?_, ?_, ?_, ?_⟩ <;>
    simp [Scheduler.counted, State.clear_nofree_eq, h.active, h.blockSize, h.stx, h.scheduled,
      h.finished]

/-- An idle entry with blocks left puts its next one into the batch. -/
theorem Between.schedule (h : Between job m (st.sched.fileCopyJobs s.1)) (hpos : 0 < job.blockSize)
    (hm : m < job.blockCount) (hlt : m < 2 ^ 31) {malloc : Option (Ptr × (ℕ → UInt8))} {pre : Bool}
    (hbuf : GetsBuffer st malloc pre) (hbatch : st.sched.cbBatch = [])
    (hheld : st.sched.held = []) :
    Queued job m .read (st.schedulerScheduleBlockCopyJob s.1 s malloc pre).sched s := by
  have htotal : st.sched.total s.1 = m := by
    rw [CopyScheduler.total, h.finished, h.scheduled]
    rfl
  have hbs : 0 < (st.sched.fileCopyJobs s.1).blockSize := h.blockSize ▸ hpos
  have hcount : st.sched.total s.1 < (st.sched.fileCopyJobs s.1).blockCount := by
    rwa [htotal, h.blockCount]
  have hon := (onBlock_iff (s := s) hbuf hbs hcount).mpr (by rwa [htotal])
  have hfile := (lt_blockCount_iff hbs).mp hcount
  have hoff : (st.sched.nextBlock s.1 s).offset < (st.sched.fileCopyJobs s.1).stx.stx_size := by
    rw [nextBlock_offset_eq, FileJob.blockOffset_of_lt hfile (Statx.size_lt _) (by rwa [htotal])]
    exact hfile
  obtain ⟨data, hs⟩ := schedule_issued hbuf hoff
  rw [hs] at hon ⊢
  refine Entry.queued ⟨?_, ?_, ?_, ?_, ?_⟩ rfl hbatch hheld hon
  · simp [State.issue_fileCopyJobs, h.active]
  · simp [State.issue_fileCopyJobs, h.blockSize]
  · simp [State.issue_fileCopyJobs, h.stx]
  · simp [State.issue_fileCopyJobs, h.scheduled]
  · simp [State.issue_fileCopyJobs, h.finished]

/-- After a block the count is one higher. -/
theorem Ready.finished_blocks (h : Ready job m t st.sched s) :
    let e := (st.blockFinished g s.1 s).sched.fileCopyJobs s.1
    e.active = true ∧ e.nBlockJobsFinished = m + 1 := by
  have hb := h.counted (g := g)
  rw [blockFinished_eq]
  rcases State.schedule_sched (Scheduler.counted g st s) s.1 s none true with hs | ⟨-, data, hs⟩
  · rw [hs]
    exact ⟨hb.active, hb.finished⟩
  · rw [hs, State.issue_fileCopyJobs, Function.update_self]
    exact ⟨hb.active, hb.finished⟩

/-- From one block that is queued to the next. -/
theorem Queued.next (h : Queued job m .read st.sched s) (hpos : 0 < job.blockSize) :
    ∃ st' : State nFile nBlock, (scheduler g).Run (fun _ op => op.Feeds (· = job)) st st' ∧
      (st'.sched.fileCopyJobs s.1).active = true ∧
      (st'.sched.fileCopyJobs s.1).nBlockJobsFinished = m + 1 ∧
      (m + 1 < job.blockCount → m + 1 < 2 ^ 31 → Queued job (m + 1) .read st'.sched s) := by
  have hlast {st₁ : State nFile nBlock} {t : RW} (ht : t = .readDst ∨ t = .finish)
      (hrun : (scheduler g).Run (fun _ op => op.Feeds (· = job)) st st₁)
      (hr : Ready job m t st₁.sched s) : ∃ st' : State nFile nBlock,
      (scheduler g).Run (fun _ op => op.Feeds (· = job)) st st' ∧
      (st'.sched.fileCopyJobs s.1).active = true ∧
      (st'.sched.fileCopyJobs s.1).nBlockJobsFinished = m + 1 ∧
      (m + 1 < job.blockCount → m + 1 < 2 ^ 31 → Queued job (m + 1) .read st'.sched s) := by
    have hnext := hr.update (g := g)
    refine ⟨st₁.blockFinished g s.1 s, .snoc hrun (a := .updateSlot s) trivial ?_,
      hr.finished_blocks.1, hr.finished_blocks.2, fun hm hlt => ?_⟩
    · rcases ht with rfl | rfl <;> exact hnext
    · exact hr.counted.schedule hpos hm hlt (.inl rfl) hr.batch hr.held
  obtain ⟨st₁, hrun₁, h₁⟩ := h.ready (g := g)
  have hrun₂ : (scheduler g).Run (fun _ op => op.Feeds (· = job)) st (st₁.readFinished g s) :=
    .snoc hrun₁ (a := .updateSlot s) trivial h₁.update
  rcases h₁.read (g := g) with h₂ | h₂
  · exact hlast (.inr rfl) hrun₂ h₂
  obtain ⟨st₃, hrun₃, h₃⟩ := h₂.ready (g := g)
  have hrun₄ : (scheduler g).Run (fun _ op => op.Feeds (· = job)) st (st₃.writeFinished g s) :=
    .snoc (hrun₂.trans hrun₃) (a := .updateSlot s) trivial h₃.update
  rcases h₃.write (g := g) with h₄ | h₄
  · exact hlast (.inr rfl) hrun₄ h₄
  obtain ⟨st₅, hrun₅, h₅⟩ := h₄.ready (g := g)
  exact hlast (.inl rfl) (hrun₄.trans hrun₅) h₅

/-- Block after block, until all are finished. -/
theorem Queued.completes (h : Queued job m .read st.sched s) (hpos : 0 < job.blockSize)
    (hcount : job.blockCount ≤ 2 ^ 31) {k : ℕ} (hk : m + k + 1 = job.blockCount) :
    ∃ st' : State nFile nBlock, (scheduler g).Run (fun _ op => op.Feeds (· = job)) st st' ∧
      (st'.sched.fileCopyJobs s.1).active = true ∧
      (st'.sched.fileCopyJobs s.1).nBlockJobsFinished = job.blockCount := by
  induction k generalizing m st with
  | zero =>
    obtain ⟨st₁, hrun, hactive, hfin, -⟩ := h.next (g := g) hpos
    exact ⟨st₁, hrun, hactive, hfin.trans hk⟩
  | succ k ih =>
    obtain ⟨st₁, hrun, -, -, hnext⟩ := h.next (g := g) hpos
    obtain ⟨st₂, hrun₂, hdone⟩ := ih (hnext (by omega) (by omega)) (by omega)
    exact ⟨st₂, hrun.trans hrun₂, hdone⟩

end Progress

section Whole
variable {n : ℕ} (cfg : Config) (job : FileCopyJob)

/-- Whatever the scheduler has done before: it schedules every block of the job as the one it
stands for. -/
def AllScheduled (nFile nBlock : ℕ) : Prop :=
  ∀ (st : State nFile nBlock) (f : Fin nFile) (s : Slot nFile nBlock) malloc pre,
    (st.sched.fileCopyJobs f).blockSize = job.blockSize → (st.sched.fileCopyJobs f).stx = job.stx →
    st.sched.total f < job.blockCount → GetsBuffer st malloc pre →
    OnBlock (st.sched.fileCopyJobs f)
      ((st.schedulerScheduleBlockCopyJob f s malloc pre).sched.blockCopyJobs s) (st.sched.total f)

/-- In some run on this job its entry comes to count all blocks as finished. -/
def CanComplete (k : Fin n) (f : Fin nFile) (nBlock : ℕ) : Prop :=
  ∃ w, (system cfg n nFile nBlock).Reach (fun _ a => a.2.Feeds (· = job)) w ∧
    ((w.scheds k).fileCopyJobs f).active = true ∧
    job.blockCount ≤ ((w.scheds k).fileCopyJobs f).nBlockJobsFinished

variable {cfg job}

theorem run_lift {st st' : State nFile nBlock} {C : Op nFile nBlock → Prop}
    (w : Fleet n nFile nBlock) (k : Fin n) (h : (scheduler cfg).Run (fun _ op => C op) st st') :
    (system cfg n nFile nBlock).Run (fun _ a => C a.2) (w.put k st) (w.put k st') := by
  induction h with
  | nil => exact .nil _
  | @snoc st₁ st₂ op _ hop hnext ih =>
    refine .snoc ih (a := (k, op)) hop ?_
    have hstep : st₁.apply cfg op = some st₂ := hnext
    simp [system, hstep]

theorem allScheduled_iff {f : Fin nFile} {j : Fin nBlock} (hpos : 0 < job.blockSize) :
    AllScheduled job nFile nBlock ↔ job.blockCount ≤ 2 ^ 31 := by
  constructor
  · intro h
    refine Nat.le_of_not_lt fun hlt => ?_
    let st : State nFile nBlock := ⟨({} : CopyScheduler nFile nBlock).setFile f
      { job with nBlockJobsScheduled := 0, nBlockJobsFinished := 2 ^ 31 }, {}⟩
    have hjob : st.sched.fileCopyJobs f =
        { job with nBlockJobsScheduled := 0, nBlockJobsFinished := 2 ^ 31 } := by simp [st]
    have htotal : st.sched.total f = 2 ^ 31 := by
      rw [CopyScheduler.total, hjob]
      exact Nat.add_zero _
    have hon := h st f (f, j) none true (by rw [hjob]) (by rw [hjob]) (by rwa [htotal]) (.inl rfl)
    have hcount : (st.sched.fileCopyJobs f).blockCount = job.blockCount := by rw [hjob]; rfl
    have := (onBlock_iff (.inl rfl) (by rw [hjob]; exact hpos) (by rwa [htotal, hcount])).mp hon
    omega
  · intro h st f s malloc pre hbs hstx hn hbuf
    have hcount : (st.sched.fileCopyJobs f).blockCount = job.blockCount := by
      rw [FileCopyJob.blockCount, FileCopyJob.blockCount, hbs, hstx]
    refine (onBlock_iff hbuf (hbs ▸ hpos) (by rwa [hcount])).mpr ?_
    omega

/-- No entry counts more than `2 ^ 31` blocks. -/
theorem canComplete_iff {k : Fin n} {f : Fin nFile} {j : Fin nBlock} (hpos : 0 < job.blockSize)
    (hlt : job.blockSize < 2 ^ 64) : CanComplete cfg job k f nBlock ↔ job.blockCount ≤ 2 ^ 31 := by
  constructor
  · rintro ⟨w, hreach, hactive, hdone⟩
    refine Nat.le_of_not_lt fun hbig => ?_
    have hfile := (lt_blockCount_iff hpos).mp hbig
    have hfits : Fits job := ⟨hlt, .inr (FileJob.blockOffset_two_pow hpos hfile job.stx.size_lt)⟩
    have hledger := ledger_of_reach (fun _ a ha => ha.mono fun _ he => he ▸ hfits) hreach k
    have := (hledger.total_le f hactive).2
    rw [CopyScheduler.total] at this
    omega
  · intro h
    let start : Fleet n nFile nBlock := .start fun _ => .empty
    let st := (start.view k).acceptJob f job
    have haccept : (system cfg n nFile nBlock).Reach (fun _ a => a.2.Feeds (· = job))
        (start.put k st) := by
      have hinit : (system cfg n nFile nBlock).init start := Fleet.start_init _
      exact (TransitionSystem.Reach.init hinit).step (a := (k, .accept f job)) rfl rfl
    have hbetween : Between job 0 (st.sched.fileCopyJobs f) := by
      refine ⟨?_, ?_, ?_, ?_, ?_⟩ <;> simp [st, State.acceptJob]
    rcases Nat.eq_zero_or_pos job.blockCount with hzero | hcount
    · refine ⟨_, haccept, ?_, ?_⟩
      · simpa [Fleet.put] using hbetween.active
      · rw [hzero]
        exact Nat.zero_le _
    have hfind : ((List.finRange nBlock).find? fun j => !(st.sched.blockCopyJobs (f, j)).inUse).isSome
        = true := List.find?_isSome.mpr ⟨j, List.mem_finRange j, rfl⟩
    obtain ⟨j', hj'⟩ := Option.isSome_iff_exists.mp hfind
    let malloc : Option (Ptr × (ℕ → UInt8)) := some (0, fun _ => 0)
    let st₁ := st.schedulerScheduleBlockCopyJob f (f, j') malloc false
    have hupdate : st.apply cfg (.updateFile f malloc) = some st₁ := by
      rw [State.apply, if_pos hbetween.active, State.completeOrSchedule]
      simp only [hbetween.blockCount, hbetween.scheduled, hbetween.finished, hj']
      rw [if_neg (by omega), if_pos (by omega)]
    have hqueued : Queued job 0 .read st₁.sched (f, j') :=
      Between.schedule (s := (f, j')) hbetween hpos hcount (by norm_num) (.inr rfl) rfl rfl
    obtain ⟨st₂, hrun, hactive, hdone⟩ :=
      hqueued.completes (g := cfg) hpos h (k := job.blockCount - 1) (by omega)
    have hall := (TransitionSystem.Run.single (T := scheduler cfg) (C := fun _ op => op.Feeds (· = job))
      (a := .updateFile f malloc) trivial hupdate).trans hrun
    refine ⟨_, haccept.run (run_lift start k hall), ?_, ?_⟩
    · simpa [Fleet.put] using hactive
    · simpa [Fleet.put] using hdone.ge

/-- Every block of a file is scheduled as the one it stands for, and its job can complete,
exactly if the file has at most `2 ^ 31` blocks. -/
theorem blocks_scheduled_iff {k : Fin n} {f : Fin nFile} (j : Fin nBlock)
    (hpos : 0 < job.blockSize) (hlt : job.blockSize < 2 ^ 64) :
    (AllScheduled job nFile nBlock ∧ CanComplete cfg job k f nBlock) ↔ job.blockCount ≤ 2 ^ 31 := by
  rw [allScheduled_iff (f := f) (j := j) hpos, canComplete_iff (j := j) hpos hlt, and_self_iff]

end Whole

/-- A file of eight tebibytes and one page, in blocks of a page. -/
def bigJob : FileCopyJob := { blockSize := 4096, stx := { stx_size := 2 ^ 43 + 4096 } }

theorem bigJob_blockCount : bigJob.blockCount = 2 ^ 31 + 1 := by decide

def smallJob : FileCopyJob := { blockSize := 4096, stx := { stx_size := 6000 } }

theorem blocks_scheduled_sample : 0 < smallJob.blockSize ∧ smallJob.blockSize < 2 ^ 64 ∧
    ((AllScheduled smallJob 1 1 ∧
      CanComplete { XXH3_64bits := fun _ => 0 } smallJob (0 : Fin 1) (0 : Fin 1) 1) ↔
        smallJob.blockCount ≤ 2 ^ 31) :=
  ⟨by decide, by decide, blocks_scheduled_iff 0 (by decide) (by decide)⟩

/-- Its last block is never scheduled: the `int` wraps, the offset lies past the end of the
file, and the slot is cleared. -/
theorem big_file_stuck :
    toInt (2 ^ 31 : ℕ) = -2 ^ 31 ∧ bigJob.stx.stx_size ≤ FileJob.blockOffset bigJob.blockSize (2 ^ 31) ∧
      ¬ (AllScheduled bigJob 1 1 ∧
        CanComplete { XXH3_64bits := fun _ => 0 } bigJob (0 : Fin 1) (0 : Fin 1) 1) := by
  refine ⟨by decide, by decide, fun h => ?_⟩
  have := (allScheduled_iff (f := (0 : Fin 1)) (j := (0 : Fin 1)) (by decide)).mp h.1
  rw [bigJob_blockCount] at this
  omega

end Copy2.Scheduler
