import Copy2.Scheduler.Pass

/-! # What each scheduler function leaves behind

One lemma per function says what it does to the scheduler and to the shared state,
so that no invariant has to unfold the code again. -/
namespace Copy2.Scheduler
open FileJob Lib

variable {nFile nBlock : ℕ}

theorem SharedState.buddyMalloc_some {sh : SharedState} {choice : Option (Ptr × (ℕ → UInt8))}
    {c : Ptr × (ℕ → UInt8)} (h : sh.buddyMalloc choice = some c) : sh.allocated c.1 = false := by
  simpa using (Option.filter_eq_some_iff.mp h).2

namespace State
variable {st : State nFile nBlock} {f : Fin nFile} {s : Slot nFile nBlock}

/-- The shared state after the buffer of a slot has been given back. -/
def freed (st : State nFile nBlock) (f : Fin nFile) (s : Slot nFile nBlock) : SharedState :=
  match (st.sched.blockCopyJobs s).data with
  | none => st.shared
  | some p => { st.shared.buddyFree p with
      totalMemAllocated := st.shared.totalMemAllocated - (st.sched.fileCopyJobs f).blockSize }

theorem freeData_eq (st : State nFile nBlock) (f : Fin nFile) (s : Slot nFile nBlock) :
    st.freeData f s =
      ⟨st.sched.setBlock s { st.sched.blockCopyJobs s with data := none }, st.freed f s⟩ := by
  rw [freeData, freed]
  cases (st.sched.blockCopyJobs s).data <;> rfl

/-- Clearing a slot gives its buffer back. -/
theorem clear_eq (st : State nFile nBlock) (f : Fin nFile) (s : Slot nFile nBlock) :
    st.schedulerClearBlockCopyJob f s false = ⟨st.sched.setBlock s {}, st.freed f s⟩ := by
  simp [schedulerClearBlockCopyJob, freeData_eq]

/-- Clearing a slot with `nofree` keeps its buffer. -/
theorem clear_nofree_eq (st : State nFile nBlock) (f : Fin nFile) (s : Slot nFile nBlock) :
    st.schedulerClearBlockCopyJob f s true =
      ⟨st.sched.setBlock s { data := (st.sched.blockCopyJobs s).data }, st.shared⟩ := rfl

def startBlock (st : State nFile nBlock) (f : Fin nFile) (s : Slot nFile nBlock)
    (data : Option Ptr) : BlockCopyJob nFile :=
  let job := st.sched.fileCopyJobs f
  let b := st.sched.nextBlock f s
  { b with nbytes := min job.blockSize (job.stx.stx_size - b.offset), data }

/-- The block a slot takes up, with its slot in use and its read prepared. -/
def issuedBlock (st : State nFile nBlock) (f : Fin nFile) (s : Slot nFile nBlock)
    (data : Option Ptr) : BlockCopyJob nFile :=
  let b := st.startBlock f s data
  let cb : Iocb := { opcode := .pread, fd := (st.sched.fileCopyJobs f).srcFd, buf := data,
                     nbytes := b.nbytes, offset := b.offset }
  { b with inUse := true, cb }

@[simp] theorem issuedBlock_data {data : Option Ptr} : (st.issuedBlock f s data).data = data := rfl
@[simp] theorem issuedBlock_inUse {data : Option Ptr} :
    (st.issuedBlock f s data).inUse = true := rfl

theorem issue_fileCopyJobs (b : BlockCopyJob nFile) : (st.sched.issue f s b).fileCopyJobs =
    Function.update st.sched.fileCopyJobs f { st.sched.fileCopyJobs f with
      nBlockJobsScheduled := (st.sched.fileCopyJobs f).nBlockJobsScheduled + 1 } := rfl

theorem issue_blockCopyJobs (data : Option Ptr) :
    (st.sched.issue f s (st.startBlock f s data)).blockCopyJobs =
      Function.update st.sched.blockCopyJobs s (st.issuedBlock f s data) := rfl

/-- Starting a block in a slot that has its buffer. -/
theorem schedule_preallocated (st : State nFile nBlock) (f : Fin nFile)
    (s : Slot nFile nBlock) (malloc : Option (Ptr × (ℕ → UInt8))) :
    st.schedulerScheduleBlockCopyJob f s malloc true =
      if (st.sched.fileCopyJobs f).stx.stx_size ≤ (st.sched.nextBlock f s).offset then
        ⟨st.sched.setBlock s {}, st.freed f s⟩
      else ⟨st.sched.issue f s (st.startBlock f s (st.sched.blockCopyJobs s).data), st.shared⟩ := by
  rw [schedulerScheduleBlockCopyJob]
  split
  · simp [clear_eq, freed, CopyScheduler.nextBlock]
  · simp [startBlock, CopyScheduler.nextBlock]

/-- Starting a block in a slot without a buffer: the block is out of range, the
allocator refuses, or the slot is put to use with a buffer that nobody held. -/
theorem schedule_cases (hdata : (st.sched.blockCopyJobs s).data = none)
    (malloc : Option (Ptr × (ℕ → UInt8))) :
    (∃ sh, st.schedulerScheduleBlockCopyJob f s malloc false = ⟨st.sched.setBlock s {}, sh⟩ ∧
      sh.allocated = st.shared.allocated ∧ sh.memory = st.shared.memory ∧
      sh.files = st.shared.files ∧ sh.finishQueue = st.shared.finishQueue) ∨
    ((st.sched.nextBlock f s).offset < (st.sched.fileCopyJobs f).stx.stx_size ∧
      ∃ p bytes sh, st.schedulerScheduleBlockCopyJob f s malloc false =
        ⟨st.sched.issue f s (st.startBlock f s (some p)), sh⟩ ∧
      st.shared.allocated p = false ∧
      sh.allocated = Function.update st.shared.allocated p true ∧
      sh.memory = Function.update st.shared.memory p bytes ∧
      sh.files = st.shared.files ∧ sh.finishQueue = st.shared.finishQueue) := by
  rw [schedulerScheduleBlockCopyJob]
  split
  · exact .inl ⟨st.shared, by simp [clear_eq, freed, hdata, CopyScheduler.nextBlock], rfl, rfl, rfl,
      rfl⟩
  · rename_i hoff
    rw [if_neg (by simp)]
    dsimp only
    cases hm : st.shared.buddyMalloc malloc with
    | none =>
      refine .inl ⟨{ st.shared with
        allocationAttempts := st.shared.allocationAttempts + 1
        allocationFailures := st.shared.allocationFailures + 1 }, ?_, rfl, rfl, rfl, rfl⟩
      simp [clear_eq, freed, hdata, CopyScheduler.nextBlock]
    | some c =>
      obtain ⟨p, bytes⟩ := c
      exact .inr ⟨Nat.lt_of_not_le hoff, p, bytes, _, rfl, SharedState.buddyMalloc_some hm, rfl, rfl,
        rfl, rfl⟩

/-- Whatever the allocator answers, the scheduler either clears the slot or issues a block. -/
theorem schedule_sched (st : State nFile nBlock) (f : Fin nFile) (s : Slot nFile nBlock)
    (malloc : Option (Ptr × (ℕ → UInt8))) (pre : Bool) :
    (st.schedulerScheduleBlockCopyJob f s malloc pre).sched = st.sched.setBlock s {} ∨
    ((st.sched.nextBlock f s).offset < (st.sched.fileCopyJobs f).stx.stx_size ∧
      ∃ data, (st.schedulerScheduleBlockCopyJob f s malloc pre).sched =
        st.sched.issue f s (st.startBlock f s data)) := by
  rw [schedulerScheduleBlockCopyJob]
  split
  · exact .inl (by simp [clear_eq])
  · rename_i hoff
    dsimp only
    split
    · exact .inr ⟨Nat.lt_of_not_le hoff, _, rfl⟩
    · cases st.shared.buddyMalloc malloc with
      | none => exact .inl (by simp [clear_eq])
      | some c => exact .inr ⟨Nat.lt_of_not_le hoff, some c.1, rfl⟩

def enqueued (st : State nFile nBlock) (f : Fin nFile) : State nFile nBlock :=
  { st with shared := { st.shared with finishQueue := st.shared.finishQueue ++
      [({ st.sched.fileCopyJobs f with actuallyTransferred := true }, st.sched.history f)] } }

/-- Clearing a file job clears slots, and then its entry. -/
theorem clearFile_cases (st : State nFile nBlock) (f : Fin nFile) :
    ∃ st₁ : State nFile nBlock, st.schedulerClearFileCopyJob f =
        { st₁ with sched := (st₁.sched.setFile f {}).setHistory f {} } ∧
      st₁.sched.fileCopyJobs = st.sched.fileCopyJobs ∧ st₁.sched.history = st.sched.history ∧
      st₁.shared.finishQueue = st.shared.finishQueue := by
  refine ⟨_, rfl, ?_⟩
  induction List.finRange nBlock generalizing st with
  | nil => exact ⟨rfl, rfl, rfl⟩
  | cons j l ih =>
    rw [List.foldl_cons]
    obtain ⟨hjobs, hhist, hqueue⟩ := ih (if (st.sched.blockCopyJobs (f, j)).inUse then
      st.schedulerClearBlockCopyJob f (f, j) false else st)
    rw [hjobs, hhist, hqueue]
    split
    · rw [clear_eq, freed]
      cases (st.sched.blockCopyJobs (f, j)).data <;> exact ⟨rfl, rfl, rfl⟩
    · exact ⟨rfl, rfl, rfl⟩

/-- Clearing a file job none of whose slots is in use clears nothing but its entry. -/
theorem clearFile_eq (h : ∀ j, (st.sched.blockCopyJobs (f, j)).inUse = false) :
    st.schedulerClearFileCopyJob f =
      { st with sched := (st.sched.setFile f {}).setHistory f {} } := by
  have hfold : ∀ l : List (Fin nBlock), l.foldl (fun (st : State nFile nBlock) j =>
      if (st.sched.blockCopyJobs (f, j)).inUse then st.schedulerClearBlockCopyJob f (f, j) false
      else st) st = st := by
    intro l
    induction l with
    | nil => rfl
    | cons j l ih => simpa [h j] using ih
  rw [schedulerClearFileCopyJob]
  simp only [hfold]

/-- A complete file job leaves its entry, and nothing but its entry. -/
theorem completeOrSchedule_done (malloc : Option (Ptr × (ℕ → UInt8)))
    (hdone : (st.sched.fileCopyJobs f).blockCount ≤ (st.sched.fileCopyJobs f).nBlockJobsFinished)
    (hfree : ∀ j, (st.sched.blockCopyJobs (f, j)).inUse = false) :
    st.completeOrSchedule f malloc =
      ⟨(st.sched.setFile f {}).setHistory f {}, (st.enqueued f).shared⟩ := by
  rw [completeOrSchedule, if_pos hdone]
  exact (clearFile_eq hfree : (st.enqueued f).schedulerClearFileCopyJob f = _)

/-- A file job that is not complete starts a block in a free slot, or does nothing. -/
theorem completeOrSchedule_cases (malloc : Option (Ptr × (ℕ → UInt8)))
    (hdone : ¬ (st.sched.fileCopyJobs f).blockCount ≤
      (st.sched.fileCopyJobs f).nBlockJobsFinished) :
    st.completeOrSchedule f malloc = st ∨ ∃ j, (st.sched.blockCopyJobs (f, j)).inUse = false ∧
      st.completeOrSchedule f malloc = st.schedulerScheduleBlockCopyJob f (f, j) malloc false := by
  rw [completeOrSchedule, if_neg hdone]
  split
  · cases hfind : (List.finRange nBlock).find? fun j => !(st.sched.blockCopyJobs (f, j)).inUse with
    | none => exact .inl rfl
    | some j => exact .inr ⟨j, by simpa using List.find?_some hfind, rfl⟩
  · exact .inl rfl

/-- A slot whose request is in progress is left alone. -/
theorem update_busy {cfg : Config} (h : (st.sched.blockCopyJobs s).status = einprogress) :
    st.schedulerUpdateBlockCopyJob cfg f s = st := by
  rw [schedulerUpdateBlockCopyJob, if_neg (by rw [h]; decide), if_neg (by simp [h])]

/-- A completion stores a status in the slot, counts the damage, and takes the request
from the kernel. -/
theorem ioComplete_cases {st' : State nFile nBlock} {res : ℤ}
    (hc : st.ioComplete s res = some st') :
    ∃ cb, (s, cb) ∈ st.sched.held ∧ st'.shared = transfer st.shared cb res ∧
      st'.sched = (({ st.sched with held := st.sched.held.eraseP fun e => e.1 = s }.setBlock s
        { st.sched.blockCopyJobs s with
          status := aioStatus (st.sched.blockCopyJobs s).cb.nbytes res }).setHistory s.1
        { st.sched.history s.1 with
          damaged := (st.sched.history s.1).damaged + if res = cb.nbytes then 0 else 1 }) := by
  rw [ioComplete] at hc
  cases hfind : st.sched.held.find? fun e => e.1 = s with
  | none => simp [hfind] at hc
  | some e =>
    obtain ⟨t, cb⟩ := e
    have he : t = s := by simpa using List.find?_some hfind
    subst he
    rw [hfind] at hc
    obtain rfl := Option.some.inj hc
    refine ⟨cb, List.mem_of_find?_eq_some hfind, rfl, ?_⟩
    have hdamaged : (if res = cb.nbytes then (st.sched.history t.1).damaged
        else (st.sched.history t.1).damaged + 1) =
        (st.sched.history t.1).damaged + if res = cb.nbytes then 0 else 1 := by
      split <;> rfl
    rw [← hdamaged]
    cases (st.sched.blockCopyJobs t).cb.opcode <;> rfl

end State

end Copy2.Scheduler
