import Copy2.Scheduler.State

/-! # One block slot and its requests

The functions of the scheduler that touch a single slot: clearing it, starting the
next block in it, moving it through its stages, and handing its request to the
kernel and back. -/
namespace Copy2.Scheduler
open FileJob Lib

variable {nFile nBlock : ℕ}

/-- The end of `schedulerScheduleBlockCopyJob`: a slot that has a buffer is put to use. -/
def CopyScheduler.issue (d : CopyScheduler nFile nBlock) (f : Fin nFile)
    (s : Slot nFile nBlock) (b : BlockCopyJob nFile) : CopyScheduler nFile nBlock :=
  let job := d.fileCopyJobs f
  let h := d.history f
  let cb : Iocb :=
    { opcode := .pread, fd := job.srcFd, buf := b.data, nbytes := b.nbytes, offset := b.offset }
  let job := { job with nBlockJobsScheduled := job.nBlockJobsScheduled + 1 }
  let h := { h with issued := h.issued ++ [b.jobno] }
  let d := (d.setBlock s { b with inUse := true, cb }).schedIOSubmitDeferred s
  (d.setFile f job).setHistory f h

def CopyScheduler.nextBlock (d : CopyScheduler nFile nBlock) (f : Fin nFile)
    (s : Slot nFile nBlock) : BlockCopyJob nFile :=
  let job := d.fileCopyJobs f
  let jobno := toInt ((job.nBlockJobsScheduled + job.nBlockJobsFinished : ℕ) : ℤ)
  { d.blockCopyJobs s with
    jobno
    parent := some f
    cb := {}
    type := .read
    status := einprogress
    offset := mulInt job.blockSize jobno }

namespace State

def freeData (st : State nFile nBlock) (f : Fin nFile) (s : Slot nFile nBlock) :
    State nFile nBlock :=
  let b := st.sched.blockCopyJobs s
  let sched := st.sched.setBlock s { b with data := none }
  match b.data with
  | none => { st with sched }
  | some p =>
    let blockSize := (st.sched.fileCopyJobs f).blockSize
    { sched, shared := { st.shared.buddyFree p with
        totalMemAllocated := st.shared.totalMemAllocated - blockSize } }

def schedulerClearBlockCopyJob (st : State nFile nBlock) (f : Fin nFile)
    (s : Slot nFile nBlock) (nofree : Bool) : State nFile nBlock :=
  let st := if nofree then st else st.freeData f s
  { st with sched := st.sched.setBlock s { data := (st.sched.blockCopyJobs s).data } }

/-- A request of the batch that `io_submit` refused before queueing anything. -/
def failRequest (st : State nFile nBlock) (s : Slot nFile nBlock) : State nFile nBlock :=
  match (st.sched.blockCopyJobs s).parent with
  | none => st
  | some f =>
    let st := st.schedulerClearBlockCopyJob f s false
    let job := st.sched.fileCopyJobs f
    let h := st.sched.history f
    let job := { job with
      nBlockJobsScheduled := job.nBlockJobsScheduled - 1
      nBlockJobsFinished := job.nBlockJobsFinished + 1
      nErrors := job.nErrors + 1 }
    let h := { h with dropped := h.dropped + 1 }
    { st with sched := (st.sched.setFile f job).setHistory f h }

/-- `submitted` is the result of `io_submit`; the kernel never takes more requests than
it is given, and copies the request block of each one it takes. -/
def schedIOSubmitBatch (st : State nFile nBlock) (submitted : ℤ) : ℤ × State nFile nBlock :=
  let batch := st.sched.cbBatch
  if batch = [] then (0, st)
  else if submitted < 0 then
    let st := batch.foldl failRequest st
    (-1, { st with sched := { st.sched with cbBatch := [] } })
  else
    let taken := batch.take submitted.toNat
    (0, { st with sched := { st.sched with
      cbBatch := batch.drop submitted.toNat
      held := st.sched.held ++ taken.map fun s => (s, (st.sched.blockCopyJobs s).cb) } })

def schedulerScheduleBlockCopyJob (st : State nFile nBlock) (f : Fin nFile)
    (s : Slot nFile nBlock) (malloc : Option (Ptr × (ℕ → UInt8))) (dataPreallocated : Bool) :
    State nFile nBlock :=
  let job := st.sched.fileCopyJobs f
  let b := st.sched.nextBlock f s
  if job.stx.stx_size ≤ b.offset then
    let st := { st with sched := st.sched.setBlock s b }
    st.schedulerClearBlockCopyJob f s false
  else
    let b := { b with nbytes := min job.blockSize (job.stx.stx_size - b.offset) }
    if dataPreallocated then { st with sched := st.sched.issue f s b }
    else
      let sh := { st.shared with allocationAttempts := st.shared.allocationAttempts + 1 }
      match st.shared.buddyMalloc malloc with
      | none =>
        let shared := { sh with allocationFailures := sh.allocationFailures + 1 }
        let st : State nFile nBlock := { sched := st.sched.setBlock s b, shared }
        st.schedulerClearBlockCopyJob f s false
      | some (p, bytes) =>
        let shared := { sh with
          allocated := Function.update sh.allocated p true
          memory := Function.update sh.memory p bytes
          totalMemAllocated := sh.totalMemAllocated + job.blockSize }
        { sched := st.sched.issue f s { b with data := some p }, shared }

/-- A finished read: skip the write of a zero block, or pad the block and write it. -/
def readFinished (cfg : Config) (st : State nFile nBlock) (s : Slot nFile nBlock) :
    State nFile nBlock :=
  let b := st.sched.blockCopyJobs s
  let sh := { st.shared with bytesRead := st.shared.bytesRead + b.nbytes }
  if cfg.sparse && st.shared.isZero b.data b.nbytes then
    { sched := st.sched.setBlock s { b with type := .finish, status := 0 }, shared := sh }
  else
    let writeBytes := alignUp b.nbytes directIoAlign
    let sh := sh.memset b.data b.nbytes writeBytes
    let dstFd := (b.parent.map fun p => (st.sched.fileCopyJobs p).dstFd).getD 0
    let cb : Iocb :=
      { opcode := .pwrite, fd := dstFd, buf := b.data, nbytes := writeBytes, offset := b.offset }
    let srcHash := if cfg.readback then cfg.XXH3_64bits (sh.bytes b.data b.nbytes) else 0
    { sched := (st.sched.setBlock s
        { b with cb, status := einprogress, type := .write, srcHash }).schedIOSubmitDeferred s,
      shared := sh }

/-- A finished write: read the block back, or be done with it. -/
def writeFinished (cfg : Config) (st : State nFile nBlock) (s : Slot nFile nBlock) :
    State nFile nBlock :=
  let b := st.sched.blockCopyJobs s
  let sh := { st.shared with bytesWritten := st.shared.bytesWritten + b.nbytes }
  if cfg.readback then
    let dstFd := (b.parent.map fun p => (st.sched.fileCopyJobs p).dstFd).getD 0
    let cb : Iocb :=
      { opcode := .pread, fd := dstFd, buf := b.data, nbytes := b.nbytes, offset := b.offset }
    { sched := (st.sched.setBlock s
        { b with cb, status := einprogress, type := .readDst }).schedIOSubmitDeferred s,
      shared := sh.memset b.data 0 b.nbytes }
  else
    { sched := st.sched.setBlock s { b with type := .finish, status := 0 }, shared := sh }

def hashMismatch (cfg : Config) (st : State nFile nBlock) (s : Slot nFile nBlock) : Bool :=
  let b := st.sched.blockCopyJobs s
  b.type = .readDst && cfg.XXH3_64bits (st.shared.bytes b.data b.nbytes) != b.srcHash

/-- The block is done: count it, and start the next block of the file in the same slot. -/
def blockFinished (cfg : Config) (st : State nFile nBlock) (f : Fin nFile)
    (s : Slot nFile nBlock) : State nFile nBlock :=
  let job := st.sched.fileCopyJobs f
  let h := st.sched.history f
  let bad := if st.hashMismatch cfg s then 1 else 0
  let job := { job with
    nErrors := job.nErrors + bad
    nBlockJobsScheduled := job.nBlockJobsScheduled - 1
    nBlockJobsFinished := job.nBlockJobsFinished + 1 }
  let h := { h with mismatched := h.mismatched + bad }
  let st := { st with sched := (st.sched.setFile f job).setHistory f h }
  (st.schedulerClearBlockCopyJob f s true).schedulerScheduleBlockCopyJob f s none true

/-- The request of the slot failed: the block is counted as finished and the slot cleared. -/
def requestFailed (st : State nFile nBlock) (f : Fin nFile) (s : Slot nFile nBlock) :
    State nFile nBlock :=
  let job := st.sched.fileCopyJobs f
  let job := { job with
    nBlockJobsFinished := job.nBlockJobsFinished + 1
    nBlockJobsScheduled := job.nBlockJobsScheduled - 1 }
  let st := { st with sched := st.sched.setFile f job }
  st.schedulerClearBlockCopyJob f s false

def schedulerUpdateBlockCopyJob (cfg : Config) (st : State nFile nBlock) (f : Fin nFile)
    (s : Slot nFile nBlock) : State nFile nBlock :=
  let b := st.sched.blockCopyJobs s
  if b.status = 0 then
    match b.type with
    | .read => st.readFinished cfg s
    | .write => st.writeFinished cfg s
    | .readDst | .finish => st.blockFinished cfg f s
  else if b.status ≠ einprogress then st.requestFailed f s
  else st

/-- The bytes a request moved: a read fills the buffer, a write changes the file. A
request moves as many bytes as its result says, and none when it failed. -/
def transfer (sh : SharedState) (cb : Iocb) (res : ℤ) : SharedState :=
  let n := min res.toNat cb.nbytes
  match cb.opcode with
  | .pread => sh.store cb.buf 0 n fun i => (sh.files cb.fd).byte (cb.offset + i)
  | .pwrite => { sh with
      files := Function.update sh.files cb.fd ((sh.files cb.fd).pwrite cb.offset n (sh.load cb.buf)) }

/-- An event of `io_getevents` for a request the kernel holds, and its callback. -/
def ioComplete (st : State nFile nBlock) (s : Slot nFile nBlock) (res : ℤ) :
    Option (State nFile nBlock) :=
  match st.sched.held.find? fun e => e.1 = s with
  | none => none
  | some (_, cb) =>
    let b := st.sched.blockCopyJobs s
    let h := st.sched.history s.1
    let status := match b.cb.opcode with
      | .pread => rdDone b.cb.nbytes res
      | .pwrite => wrDone b.cb.nbytes res
    let damaged := if res = cb.nbytes then h.damaged else h.damaged + 1
    some {
      sched := { (st.sched.setBlock s { b with status }).setHistory s.1 { h with damaged } with
        held := st.sched.held.eraseP fun e => e.1 = s }
      shared := transfer st.shared cb res }

end State
end Copy2.Scheduler
