import Copy2.FileJob.Size

/-! # File and block copy jobs

The records that travel from the crawl through the schedulers to the finish
processors. A reference to path parts is the path it spells, or null. -/
namespace Copy2.FileJob

abbrev Fd := ℤ
abbrev Ptr := ℕ
abbrev StringPartRef := Option String
abbrev FDRCRef := ℕ

structure Timespec where
  tv_sec : ℤ := 0
  tv_nsec : ℕ := 0
deriving DecidableEq, Repr

theorem no_bytes_lt : 0 < 2 ^ 63 := by decide

theorem one_byte_lt : 1 < 2 ^ 63 := by decide

/-- The fields of `struct statx` that the program reads. A size is an `off_t`. -/
structure Statx where
  stx_mode : ℕ := 0
  stx_nlink : ℕ := 0
  stx_uid : ℕ := 0
  stx_gid : ℕ := 0
  stx_ino : ℕ := 0
  stx_size : ℕ := 0
  stx_atime : Timespec := {}
  stx_mtime : Timespec := {}
  stx_dev_major : ℕ := 0
  stx_dev_minor : ℕ := 0
  size_lt : stx_size < 2 ^ 63 := by first | exact no_bytes_lt | exact one_byte_lt | decide
deriving DecidableEq, Repr

def sIfmt : ℕ := 0o170000

def isReg (mode : ℕ) : Bool := mode &&& sIfmt == 0o100000

def isLnk (mode : ℕ) : Bool := mode &&& sIfmt == 0o120000

structure FileCopyJob where
  active : Bool := false
  firstLook : Bool := false
  actuallyTransferred : Bool := false
  remote : StringPartRef := none
  partialRef : StringPartRef := none
  stx : Statx := {}
  srcFd : Fd := 0
  dstFd : Fd := 0
  blockSize : ℕ := 0
  nBlockJobsScheduled : ℕ := 0
  nBlockJobsFinished : ℕ := 0
  nErrors : ℕ := 0
  isDot : Bool := false
  dstDirFD : FDRCRef := 0
deriving DecidableEq, Repr

def FileCopyJob.blockCount (job : FileCopyJob) : ℕ :=
  FileJob.blockCount job.stx.stx_size job.blockSize

inductive RW
  | read
  | write
  | readDst
  | finish
deriving DecidableEq, Repr

inductive Opcode
  | pread
  | pwrite
deriving DecidableEq, Repr

/-- A prepared request: what `io_prep_pread` or `io_prep_pwrite` fills in. -/
structure Iocb where
  opcode : Opcode := .pread
  fd : Fd := 0
  buf : Option Ptr := none
  nbytes : ℕ := 0
  offset : ℕ := 0
deriving DecidableEq, Repr

/-- One staging slot. The parent pointer is the index of a file job, or null. -/
structure BlockCopyJob (nFile : ℕ) where
  jobno : ℤ := 0
  parent : Option (Fin nFile) := none
  cb : Iocb := {}
  type : RW := .read
  status : ℤ := 0
  offset : ℕ := 0
  nbytes : ℕ := 0
  data : Option Ptr := none
  inUse : Bool := false
  srcHash : UInt64 := 0
deriving DecidableEq

def eio : ℤ := 5

def einprogress : ℤ := 115

/-- The status both AIO callbacks store: the negated result when it is not positive,
an I/O error when the count differs from the request. -/
def aioStatus (nbytes : ℕ) (res : ℤ) : ℤ :=
  if res ≤ 0 then toInt (-res) else if res ≠ nbytes then eio else 0

def wrDone (nbytes : ℕ) (res : ℤ) : ℤ := aioStatus nbytes res

def rdDone (nbytes : ℕ) (res : ℤ) : ℤ := aioStatus nbytes res

theorem aioStatus_full {nbytes : ℕ} (h : 0 < nbytes) : aioStatus nbytes nbytes = 0 := by
  rw [aioStatus, if_neg (by omega), if_neg (by simp)]

end Copy2.FileJob
