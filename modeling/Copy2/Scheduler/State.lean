import Copy2.FileJob.Types
import Copy2.Lib.ByteFile

/-! # The state of the copy schedulers

A scheduler owns a table of file jobs, a table of block slots, a deferred batch and
an AIO context. The slots of one file job are the row of that job. What the
schedulers share is the copy buffer with its allocator, the open files, the
counters and the finish queue. The job history is auxiliary: no code reads it.
-/
namespace Copy2.Scheduler
open FileJob Lib

abbrev Slot (nFile nBlock : ℕ) := Fin nFile × Fin nBlock

/-- The options the schedulers read, and the hash function. -/
structure Config where
  sparse : Bool := false
  readback : Bool := false
  XXH3_64bits : List UInt8 → UInt64

/-- What has happened to the requests of one file job. -/
structure JobHistory where
  issued : List ℤ := []
  damaged : ℕ := 0
  dropped : ℕ := 0
  mismatched : ℕ := 0
deriving DecidableEq

structure CopyScheduler (nFile nBlock : ℕ) where
  fileCopyJobs : Fin nFile → FileCopyJob := fun _ => {}
  blockCopyJobs : Slot nFile nBlock → BlockCopyJob nFile := fun _ => {}
  cbBatch : List (Slot nFile nBlock) := []
  held : List (Slot nFile nBlock × Iocb) := []
  history : Fin nFile → JobHistory := fun _ => {}
  assertsHold : Bool := true

/-- The part of the shared state the schedulers touch. That a buffer has been given back to
the allocator which was not allocated is recorded and read by no code. -/
structure SharedState where
  bytesRead : ℕ := 0
  bytesWritten : ℕ := 0
  allocationAttempts : ℕ := 0
  allocationFailures : ℕ := 0
  totalMemAllocated : ℤ := 0
  allocated : Ptr → Bool := fun _ => false
  freedTwice : Bool := false
  memory : Ptr → ℕ → UInt8 := fun _ _ => 0
  files : Fd → ByteFile := fun _ => .empty
  finishQueue : List (FileCopyJob × JobHistory) := []

structure State (nFile nBlock : ℕ) where
  sched : CopyScheduler nFile nBlock
  shared : SharedState

variable {nFile nBlock : ℕ}

namespace CopyScheduler
variable (d : CopyScheduler nFile nBlock)

def setFile (f : Fin nFile) (job : FileCopyJob) : CopyScheduler nFile nBlock :=
  { d with fileCopyJobs := Function.update d.fileCopyJobs f job }

def setBlock (s : Slot nFile nBlock) (b : BlockCopyJob nFile) : CopyScheduler nFile nBlock :=
  { d with blockCopyJobs := Function.update d.blockCopyJobs s b }

def setHistory (f : Fin nFile) (h : JobHistory) : CopyScheduler nFile nBlock :=
  { d with history := Function.update d.history f h }

/-- `schedIOSubmitDeferred`, with the outcome of its assertion. -/
def schedIOSubmitDeferred (s : Slot nFile nBlock) : CopyScheduler nFile nBlock :=
  { d with
    assertsHold := d.assertsHold && decide (d.cbBatch.length < nFile * nBlock)
    cbBatch := d.cbBatch ++ [s] }

def pending : List (Slot nFile nBlock) := d.cbBatch ++ d.held.map Prod.fst

variable {d} {f : Fin nFile} {s : Slot nFile nBlock} {job : FileCopyJob}
  {b : BlockCopyJob nFile} {h : JobHistory}

@[simp] theorem setFile_fileCopyJobs :
    (d.setFile f job).fileCopyJobs = Function.update d.fileCopyJobs f job := rfl
@[simp] theorem setFile_blockCopyJobs : (d.setFile f job).blockCopyJobs = d.blockCopyJobs := rfl
@[simp] theorem setFile_cbBatch : (d.setFile f job).cbBatch = d.cbBatch := rfl
@[simp] theorem setFile_held : (d.setFile f job).held = d.held := rfl
@[simp] theorem setFile_history : (d.setFile f job).history = d.history := rfl
@[simp] theorem setFile_assertsHold : (d.setFile f job).assertsHold = d.assertsHold := rfl

@[simp] theorem setBlock_fileCopyJobs : (d.setBlock s b).fileCopyJobs = d.fileCopyJobs := rfl
@[simp] theorem setBlock_blockCopyJobs :
    (d.setBlock s b).blockCopyJobs = Function.update d.blockCopyJobs s b := rfl
@[simp] theorem setBlock_cbBatch : (d.setBlock s b).cbBatch = d.cbBatch := rfl
@[simp] theorem setBlock_held : (d.setBlock s b).held = d.held := rfl
@[simp] theorem setBlock_history : (d.setBlock s b).history = d.history := rfl
@[simp] theorem setBlock_assertsHold : (d.setBlock s b).assertsHold = d.assertsHold := rfl

@[simp] theorem setHistory_fileCopyJobs : (d.setHistory f h).fileCopyJobs = d.fileCopyJobs := rfl
@[simp] theorem setHistory_blockCopyJobs :
    (d.setHistory f h).blockCopyJobs = d.blockCopyJobs := rfl
@[simp] theorem setHistory_cbBatch : (d.setHistory f h).cbBatch = d.cbBatch := rfl
@[simp] theorem setHistory_held : (d.setHistory f h).held = d.held := rfl
@[simp] theorem setHistory_history :
    (d.setHistory f h).history = Function.update d.history f h := rfl
@[simp] theorem setHistory_assertsHold : (d.setHistory f h).assertsHold = d.assertsHold := rfl

@[simp] theorem deferred_fileCopyJobs :
    (d.schedIOSubmitDeferred s).fileCopyJobs = d.fileCopyJobs := rfl
@[simp] theorem deferred_blockCopyJobs :
    (d.schedIOSubmitDeferred s).blockCopyJobs = d.blockCopyJobs := rfl
@[simp] theorem deferred_cbBatch : (d.schedIOSubmitDeferred s).cbBatch = d.cbBatch ++ [s] := rfl
@[simp] theorem deferred_held : (d.schedIOSubmitDeferred s).held = d.held := rfl
@[simp] theorem deferred_history : (d.schedIOSubmitDeferred s).history = d.history := rfl
@[simp] theorem deferred_assertsHold : (d.schedIOSubmitDeferred s).assertsHold =
    (d.assertsHold && decide (d.cbBatch.length < nFile * nBlock)) := rfl

@[simp] theorem setBlock_setBlock {b' : BlockCopyJob nFile} :
    (d.setBlock s b).setBlock s b' = d.setBlock s b' := by simp [setBlock]

end CopyScheduler

/-! Buffers and the copy-buffer allocator. The allocator may refuse, and it never
hands out an address that is still allocated; the bytes it hands out are arbitrary. -/
namespace SharedState
variable (sh : SharedState)

def load (data : Option Ptr) (i : ℕ) : UInt8 :=
  match data with
  | none => 0
  | some p => sh.memory p i

/-- Replace the bytes of a buffer between two positions. -/
def store (data : Option Ptr) (lo hi : ℕ) (v : ℕ → UInt8) : SharedState :=
  match data with
  | none => sh
  | some p =>
    let bytes := fun i => if lo ≤ i ∧ i < hi then v i else sh.memory p i
    { sh with memory := Function.update sh.memory p bytes }

def memset (data : Option Ptr) (lo hi : ℕ) : SharedState := sh.store data lo hi fun _ => 0

def buddyMalloc (choice : Option (Ptr × (ℕ → UInt8))) : Option (Ptr × (ℕ → UInt8)) :=
  choice.filter fun c => !sh.allocated c.1

def buddyFree (p : Ptr) : SharedState :=
  { sh with
    allocated := Function.update sh.allocated p false
    freedTwice := sh.freedTwice || !sh.allocated p }

def isZero (data : Option Ptr) (len : ℕ) : Bool :=
  (List.range len).all fun i => sh.load data i == 0

def bytes (data : Option Ptr) (len : ℕ) : List UInt8 := (List.range len).map (sh.load data)

end SharedState
end Copy2.Scheduler
