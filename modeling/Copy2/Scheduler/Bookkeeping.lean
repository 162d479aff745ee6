import Copy2.Scheduler.LedgerSteps

/-! # Counters, slots and requests of a scheduler

The ledger and the numbers of the blocks issued so far: they are the numbers below the
sum of the two counters, each issued once, as long as they fit into an `int`. -/
namespace Copy2.Scheduler
open FileJob Lib

variable {nFile nBlock : ℕ}

/-- The block size is positive, and an `int` holds the number of every block. -/
structure Accepts (job : FileCopyJob) : Prop where
  blockSize_pos : 0 < job.blockSize
  blockSize_lt : job.blockSize < 2 ^ 64
  blockCount_lt : job.blockCount < 2 ^ 31

/-- Fewer blocks than an `int` can count fit. -/
theorem Accepts.fits {job : FileCopyJob} (h : Accepts job) : Fits job :=
  ⟨h.blockSize_lt, .inl h.blockCount_lt⟩

theorem Accepts.congr {job job' : FileCopyJob} (h : Accepts job)
    (hbs : job'.blockSize = job.blockSize) (hstx : job'.stx = job.stx) : Accepts job' := by
  refine ⟨hbs ▸ h.blockSize_pos, hbs ▸ h.blockSize_lt, ?_⟩
  rw [FileCopyJob.blockCount, hbs, hstx]
  exact h.blockCount_lt

/-- The block numbers below the sum of the counters have been issued, each once. -/
def IssuedInOrder (d : CopyScheduler nFile nBlock) : Prop :=
  ∀ f, (d.history f).issued = (List.range (d.total f)).map fun n : ℕ => (n : ℤ)

structure Bookkeeping (d : CopyScheduler nFile nBlock) : Prop where
  accepts : ∀ f, (d.fileCopyJobs f).active = true → Accepts (d.fileCopyJobs f)
  scheduled : ∀ f, (d.fileCopyJobs f).nBlockJobsScheduled = count (d.inUse f)
  total_le : ∀ f, (d.fileCopyJobs f).active = true → d.total f ≤ (d.fileCopyJobs f).blockCount
  issued : ∀ f, (d.history f).issued = (List.range (d.total f)).map fun n : ℕ => (n : ℤ)
  nodup : d.pending.Nodup
  pending : ∀ s ∈ d.pending, (d.blockCopyJobs s).inUse = true ∧
    (d.blockCopyJobs s).status = einprogress
  owner : ∀ s, (d.blockCopyJobs s).inUse = true →
    (d.blockCopyJobs s).parent = some s.1 ∧ (d.fileCopyJobs s.1).active = true
  asserts : d.assertsHold = true

namespace IssuedInOrder
variable {st : State nFile nBlock} {d : CopyScheduler nFile nBlock} {f : Fin nFile}
  {s : Slot nFile nBlock}

/-- The sum of the counters and the numbers issued stay as they are. -/
theorem set (h : IssuedInOrder d) {job : FileCopyJob} {g : JobHistory}
    (htotal : (d.setFile f job).total f = d.total f) (hg : g.issued = (d.history f).issued) :
    IssuedInOrder ((d.setFile f job).setHistory f g) := by
  intro f'
  have heq : ((d.setFile f job).setHistory f g).total f' = d.total f' := by
    by_cases hf : f' = f
    · rw [hf]
      exact htotal
    · simp [CopyScheduler.total, hf]
  rw [heq, ← h f']
  by_cases hf : f' = f
  · subst hf
    simpa using hg
  · simp [hf]

/-- The next number is issued. -/
theorem issue (h : IssuedInOrder d) {b : BlockCopyJob nFile} (hjobno : b.jobno = d.total s.1) :
    IssuedInOrder (d.issue s.1 s b) := by
  intro f
  rw [CopyScheduler.total_issue]
  by_cases hf : f = s.1
  · subst hf
    simp [CopyScheduler.issue, h s.1, hjobno, List.range_succ]
  · simpa [CopyScheduler.issue, hf] using h f

theorem schedule (h : IssuedInOrder st.sched) (hl : Ledger st.sched)
    (hactive : (st.sched.fileCopyJobs s.1).active = true)
    (hbs : 0 < (st.sched.fileCopyJobs s.1).blockSize)
    (malloc : Option (Ptr × (ℕ → UInt8))) (pre : Bool) :
    IssuedInOrder (st.schedulerScheduleBlockCopyJob s.1 s malloc pre).sched := by
  rcases st.schedule_sched s.1 s malloc pre with heq | ⟨hlt, data, heq⟩ <;> rw [heq]
  · exact h
  · refine h.issue ?_
    have hjobno := (Ledger.nextBlock_number st.sched s).1
    rw [toInt_natCast (hl.total_lt hactive hbs hlt).2] at hjobno
    simpa [State.startBlock] using hjobno

theorem updateSlot (cfg : Config) (h : IssuedInOrder st.sched) (hl : Ledger st.sched)
    (huse : (st.sched.blockCopyJobs s).inUse = true) :
    IssuedInOrder (st.schedulerUpdateBlockCopyJob cfg s.1 s).sched := by
  have hactive := (hl.owner s huse).2
  have hfinished : (st.sched.blockCopyJobs s).status = 0 →
      IssuedInOrder (st.blockFinished cfg s.1 s).sched := by
    intro hstatus
    have hs := hl.notMem_pending_of_status (s := s) (by rw [hstatus]; decide)
    rw [State.blockFinished, State.clear_nofree_eq]
    refine schedule ?_ (hl.release hs huse rfl rfl) ?_ ?_ none true
    · exact h.set (hl.total_setFile_release huse rfl s.1) rfl
    · simpa using hactive
    · simpa using hl.blockSize_pos huse
  rw [State.schedulerUpdateBlockCopyJob]
  split
  · rename_i hstatus
    cases (st.sched.blockCopyJobs s).type with
    | read =>
      dsimp only [State.readFinished]
      split <;> exact h
    | write =>
      dsimp only [State.writeFinished]
      split <;> exact h
    | readDst => exact hfinished hstatus
    | finish => exact hfinished hstatus
  · split
    · rw [State.requestFailed, State.clear_eq]
      have hset := h.set (g := st.sched.history s.1)
        (hl.total_setFile_release (e := (st.sched.fileCopyJobs s.1).nErrors) huse rfl s.1) rfl
      simpa [IssuedInOrder, CopyScheduler.total] using hset
    · exact h

/-- A job that has no blocks yet takes the place of another one. -/
theorem replaceFile (h : IssuedInOrder d) {job : FileCopyJob} (hs : job.nBlockJobsScheduled = 0)
    (hf : job.nBlockJobsFinished = 0) : IssuedInOrder ((d.setFile f job).setHistory f {}) := by
  intro g
  by_cases hgf : g = f
  · subst hgf
    simp [CopyScheduler.total, hs, hf]
  · simpa [CopyScheduler.total, hgf] using h g

theorem completeOrSchedule (h : IssuedInOrder st.sched) (hl : Ledger st.sched)
    (hactive : (st.sched.fileCopyJobs f).active = true) (malloc : Option (Ptr × (ℕ → UInt8))) :
    IssuedInOrder (st.completeOrSchedule f malloc).sched := by
  by_cases hdone : (st.sched.fileCopyJobs f).blockCount ≤ (st.sched.fileCopyJobs f).nBlockJobsFinished
  · rw [State.completeOrSchedule_done malloc hdone (hl.free_of_complete hactive hdone)]
    exact h.replaceFile rfl rfl
  · rcases State.completeOrSchedule_cases malloc hdone with heq | ⟨j, -, heq⟩ <;> rw [heq]
    · exact h
    · exact h.schedule (s := (f, j)) hl hactive (blockSize_pos_of_incomplete hdone) malloc false

theorem failBatch (l : List (Slot nFile nBlock)) {st : State nFile nBlock}
    (h : IssuedInOrder st.sched) (hl : Ledger { st.sched with cbBatch := l }) :
    IssuedInOrder (l.foldl State.failRequest st).sched := by
  induction l generalizing st with
  | nil => exact h
  | cons s l ih =>
    refine ih ?_ hl.failRequest
    have huse := (hl.pending s (by simp [CopyScheduler.pending])).1
    rw [State.failRequest, (hl.owner s huse).1]
    dsimp only
    rw [State.clear_eq]
    have hset := h.set (f := s.1) (g := { st.sched.history s.1 with
        dropped := (st.sched.history s.1).dropped + 1 })
      (hl.total_setFile_release (e := (st.sched.fileCopyJobs s.1).nErrors + 1) huse rfl s.1) rfl
    simpa [IssuedInOrder, CopyScheduler.total] using hset

theorem submit (h : IssuedInOrder st.sched) (hl : Ledger st.sched) (submitted : ℤ) :
    IssuedInOrder (st.schedIOSubmitBatch submitted).2.sched := by
  rw [State.schedIOSubmitBatch]
  dsimp only
  split
  · exact h
  · split
    · exact failBatch _ h hl
    · exact h

theorem ioComplete {st' : State nFile nBlock} (h : IssuedInOrder st.sched) {res : ℤ}
    (hc : st.ioComplete s res = some st') : IssuedInOrder st'.sched := by
  obtain ⟨cb, -, -, hst⟩ := State.ioComplete_cases hc
  rw [hst]
  intro f
  by_cases hf : f = s.1
  · subst hf
    simpa [CopyScheduler.total] using h s.1
  · simpa [hf, CopyScheduler.total] using h f

theorem apply {cfg : Config} {st' : State nFile nBlock} {op : Op nFile nBlock}
    (h : IssuedInOrder st.sched) (hl : Ledger st.sched) (hst : st.apply cfg op = some st') :
    IssuedInOrder st'.sched := by
  cases op with
  | updateSlot s =>
    simp only [State.apply, Bool.and_eq_true, Option.ite_none_right_eq_some,
      Option.some.injEq] at hst
    obtain ⟨⟨-, huse⟩, rfl⟩ := hst
    exact h.updateSlot cfg hl huse
  | updateFile f malloc =>
    simp only [State.apply, Option.ite_none_right_eq_some, Option.some.injEq] at hst
    obtain ⟨hactive, rfl⟩ := hst
    exact h.completeOrSchedule hl hactive malloc
  | accept f newJob =>
    simp only [State.apply, Option.ite_none_left_eq_some, Option.some.injEq] at hst
    obtain ⟨-, rfl⟩ := hst
    exact h.replaceFile rfl rfl
  | submit submitted =>
    obtain rfl := Option.some.inj hst
    exact h.submit hl submitted
  | complete s res => exact h.ioComplete hst
  | environment files =>
    obtain rfl := Option.some.inj hst
    exact h
  | finish i =>
    simp only [State.apply, Option.ite_none_right_eq_some, Option.some.injEq] at hst
    obtain ⟨-, rfl⟩ := hst
    exact h

end IssuedInOrder

namespace Bookkeeping
variable {d : CopyScheduler nFile nBlock} {s : Slot nFile nBlock}

theorem ledger (h : Bookkeeping d) : Ledger d where
  fits f hf := (h.accepts f hf).fits
  scheduled := h.scheduled
  total_le f hf := by
    have hle := h.total_le f hf
    exact ⟨hle, hle.trans (h.accepts f hf).blockCount_lt.le⟩
  nodup := h.nodup
  pending := h.pending
  owner := h.owner
  asserts := h.asserts

theorem of_ledger (h : Ledger d) (hissued : IssuedInOrder d)
    (haccepts : ∀ f, (d.fileCopyJobs f).active = true → Accepts (d.fileCopyJobs f)) :
    Bookkeeping d where
  accepts := haccepts
  scheduled := h.scheduled
  total_le f hf := (h.total_le f hf).1
  issued := hissued
  nodup := h.nodup
  pending := h.pending
  owner := h.owner
  asserts := h.asserts

/-- Under the invariant the next block starts where its number says. -/
theorem nextBlock_offset (h : Bookkeeping d) (hactive : (d.fileCopyJobs s.1).active = true) :
    (d.nextBlock s.1 s).offset = (d.fileCopyJobs s.1).blockSize * d.total s.1 ∧
      (d.nextBlock s.1 s).jobno = d.total s.1 := by
  have ha := h.accepts s.1 hactive
  have hle := h.total_le s.1 hactive
  have hlt : d.total s.1 < 2 ^ 31 := hle.trans_lt ha.blockCount_lt
  have hmul := mul_lt_of_le_blockCount ha.blockSize_pos ha.blockSize_lt
    (d.fileCopyJobs s.1).stx.size_lt hle
  obtain ⟨hjobno, hoff⟩ := Ledger.nextBlock_number d s
  exact ⟨hoff.trans (mulInt_toInt hlt hmul), hjobno.trans (toInt_natCast hlt)⟩

/-- A slot in use that leaves the pending requests gives its block up as finished. -/
theorem release (h : Bookkeeping d) (hs : s ∉ d.pending)
    (huse : (d.blockCopyJobs s).inUse = true) {b : BlockCopyJob nFile} (hb : b.inUse = false)
    {job : FileCopyJob} {g : JobHistory} {e : ℕ}
    (hjob : job = { d.fileCopyJobs s.1 with
      nBlockJobsScheduled := (d.fileCopyJobs s.1).nBlockJobsScheduled - 1
      nBlockJobsFinished := (d.fileCopyJobs s.1).nBlockJobsFinished + 1
      nErrors := e })
    (hhist : g.issued = (d.history s.1).issued) :
    Bookkeeping (((d.setFile s.1 job).setHistory s.1 g).setBlock s b) := by
  have hissued : IssuedInOrder d := h.issued
  refine of_ledger (h.ledger.release hs huse hb hjob)
    (hissued.set (h.ledger.total_setFile_release huse hjob s.1) hhist) fun f hf => ?_
  by_cases hfs : f = s.1
  · subst hfs
    have ha := h.accepts s.1 (h.owner s huse).2
    simpa [hjob] using ⟨ha.1, ha.2, ha.3⟩
  · simpa [hfs] using h.accepts f (by simpa [hfs] using hf)

theorem apply {cfg : Config} {st st' : State nFile nBlock} {op : Op nFile nBlock}
    (h : Bookkeeping st.sched) (hop : op.Feeds Accepts) (hst : st.apply cfg op = some st') :
    Bookkeeping st'.sched := by
  have hissued : IssuedInOrder st.sched := h.issued
  refine of_ledger (h.ledger.apply (hop.mono fun _ => Accepts.fits) hst)
    (hissued.apply h.ledger hst) fun f hf => ?_
  rcases apply_fixed hst f with hfix | ⟨-, -, -, -, hgone⟩ | ⟨newJob, rfl, -, hnew⟩
  · have hsize := congrArg FileCopyJob.blockSize hfix
    have hstx := congrArg FileCopyJob.stx hfix
    have hact := congrArg FileCopyJob.active hfix
    exact (h.accepts f (hact.symm.trans hf)).congr hsize hstx
  · simp [hgone] at hf
  · have hsize := congrArg FileCopyJob.blockSize hnew
    have hstx := congrArg FileCopyJob.stx hnew
    exact Accepts.congr hop hsize hstx

end Bookkeeping

section Fleet
variable {cfg : Config} {n : ℕ} {w : Fleet n nFile nBlock}

/-- The bookkeeping of every scheduler holds in every reachable fleet. -/
theorem bookkeeping_of_reach
    (h : (system cfg n nFile nBlock).Reach (fun _ a => a.2.Feeds Accepts) w) (k : Fin n) :
    Bookkeeping (w.scheds k) := by
  refine h.invariant (I := fun w => ∀ k, Bookkeeping (w.scheds k)) ?_ ?_ k
  · intro w hw k
    rw [hw.1 k]
    exact .of_ledger .initial (fun _ => rfl) fun f hf => by simp at hf
  · intro w a w' hw hop hnext k
    obtain ⟨st, hst, rfl⟩ := Option.map_eq_some_iff.mp hnext
    by_cases hk : k = a.1
    · subst hk
      simpa [Fleet.put] using (hw a.1).apply hop hst
    · simpa [Fleet.put, hk] using hw k

/-- A step that takes a file job out of its table finds none of its slots in use. -/
theorem free_of_cleared {w' : Fleet n nFile nBlock} {k : Fin n} {a : Fin n × Op nFile nBlock}
    (hb : ∀ k, Bookkeeping (w.scheds k)) (hnext : (system cfg n nFile nBlock).next w a = some w')
    {f : Fin nFile} (hactive : ((w.scheds k).fileCopyJobs f).active = true)
    (hcleared : ((w'.scheds k).fileCopyJobs f).active = false) (j : Fin nBlock) :
    ((w.scheds k).blockCopyJobs (f, j)).inUse = false := by
  obtain ⟨st, hst, rfl⟩ := Option.map_eq_some_iff.mp hnext
  by_cases hk : k = a.1
  · subst hk
    replace hcleared : (st.sched.fileCopyJobs f).active = false := by
      simpa [Fleet.put] using hcleared
    rcases apply_fixed hst f with hfix | ⟨-, -, -, hdone, -⟩ | ⟨-, -, hfree, -⟩
    · have hsame : (st.sched.fileCopyJobs f).active = ((w.scheds a.1).fileCopyJobs f).active :=
        by simpa [CopyScheduler.fixed, Fleet.view] using congrArg FileCopyJob.active hfix
      simp [hsame, hactive] at hcleared
    · exact (hb a.1).ledger.free_of_complete hactive hdone j
    · have hsame : ((w.scheds a.1).fileCopyJobs f).active = false := hfree
      simp [hsame] at hactive
  · have hsame : (w.put a.1 st).scheds k = w.scheds k := by simp [Fleet.put, hk]
    simp [hsame, hactive] at hcleared

/-- In every reachable state of every scheduler: the scheduled counter of a job counts its
slots in use, finished and scheduled blocks stay within the block count, exactly the
block numbers below their sum have been issued, each once, the batch and the kernel
hold disjoint sets of requests of slots in use that are in progress, each slot once,
the batch never overflows, and a step clears a job only when it has no slot in use. -/
theorem scheduler_bookkeeping
    (h : (system cfg n nFile nBlock).Reach (fun _ a => a.2.Feeds Accepts) w) (k : Fin n) :
    let d := w.scheds k
    (∀ f, (d.fileCopyJobs f).active = true →
      (d.fileCopyJobs f).nBlockJobsScheduled = count (d.inUse f) ∧
      (d.fileCopyJobs f).nBlockJobsFinished + (d.fileCopyJobs f).nBlockJobsScheduled ≤
        (d.fileCopyJobs f).blockCount ∧
      (d.history f).issued = (List.range ((d.fileCopyJobs f).nBlockJobsFinished +
        (d.fileCopyJobs f).nBlockJobsScheduled)).map (fun m : ℕ => (m : ℤ)) ∧
      (d.history f).issued.Nodup ∧
      ∀ a w', (system cfg n nFile nBlock).next w a = some w' →
        ((w'.scheds k).fileCopyJobs f).active = false →
        ∀ j, (d.blockCopyJobs (f, j)).inUse = false) ∧
    d.cbBatch.Disjoint (d.held.map Prod.fst) ∧ d.cbBatch.Nodup ∧ (d.held.map Prod.fst).Nodup ∧
    (∀ s, s ∈ d.cbBatch ∨ s ∈ d.held.map Prod.fst →
      (d.blockCopyJobs s).inUse = true ∧ (d.blockCopyJobs s).status = einprogress) ∧
    d.assertsHold = true := by
  intro d
  have hall := bookkeeping_of_reach h
  have hb : Bookkeeping d := hall k
  have hn := List.nodup_append.mp hb.nodup
  refine ⟨fun f hf => ⟨hb.scheduled f, hb.total_le f hf, hb.issued f, ?_,
    fun a w' hnext hcleared j => free_of_cleared hall hnext hf hcleared j⟩, ?_, hn.1, hn.2.1, ?_,
    hb.asserts⟩
  · rw [hb.issued f]
    exact List.nodup_range.map Nat.cast_injective
  · exact fun s hs ht => hn.2.2 s hs s ht rfl
  · exact fun s hs => hb.pending s (List.mem_append.mpr hs)

end Fleet

def sampleJob : FileCopyJob :=
  { srcFd := 3, dstFd := 4, blockSize := 4096, stx := { stx_size := 5000 } }

def sampleRun : List (Fin 1 × Op 1 2) :=
  [(0, .accept 0 sampleJob), (0, .updateFile 0 (some (1, fun _ => 7))),
    (0, .updateFile 0 (some (2, fun _ => 7))), (0, .submit 2), (0, .complete (0, 0) (-5)),
    (0, .updateSlot (0, 0))]

def sampleConfig : Config := { XXH3_64bits := fun _ => 0 }

def sampleFleet : Fleet 1 1 2 :=
  ((system sampleConfig 1 1 2).exec (fun _ _ => true) (.start fun _ => .empty) sampleRun).getD
    (.start fun _ => .empty)

theorem sampleFleet_reach :
    (system sampleConfig 1 1 2).Reach (fun _ a => a.2.Feeds Accepts) sampleFleet := by
  refine (TransitionSystem.Reach.init (Fleet.start_init fun _ => .empty)).run
    (.of_exec (fun _ _ => true) (fun a (ha : a ∈ sampleRun) _ _ => ?_) rfl)
  have haccepts : Accepts sampleJob := ⟨by decide, by decide, by decide⟩
  fin_cases ha <;> first | exact haccepts | trivial

/-- The second read is still with the kernel. -/
theorem scheduler_bookkeeping_sample :
    ((sampleFleet.scheds 0).fileCopyJobs 0).nBlockJobsScheduled =
      count ((sampleFleet.scheds 0).inUse 0) ∧ (sampleFleet.scheds 0).assertsHold = true :=
  ⟨((scheduler_bookkeeping sampleFleet_reach 0).1 0 rfl).1,
    (scheduler_bookkeeping sampleFleet_reach 0).2.2.2.2.2⟩

end Copy2.Scheduler
