import Copy2.FileJob.Types
import Copy2.Lib.Effect

/-! # The calls of the crawl and of the finish processors

System calls, the shared counters and queues, the reference counts and the hard-link
table are what the crawl and the finish processors talk to. A call answers with its
result, or with the error number. -/
namespace Copy2.Os
open FileJob Lib

abbrev Errno := ℕ

def enoent : Errno := 2
def eexist : Errno := 17

inductive OFlag
  | rdonly
  | rdwr
  | creat
  | direct
  | directory
  | noatime
deriving DecidableEq, Repr

structure Dirent where
  d_name : String
  isDir : Bool
deriving DecidableEq, Repr

/-- The outcome of registering a name with the hard-link table. -/
structure LinkOutcome where
  shouldTransfer : Bool
  firstLook : Bool
  isPendingHardlink : Bool
deriving DecidableEq, Repr

/-- A descriptor that belongs to a reference-counted directory is named by its reference. -/
inductive Call
  | openat (dir : FDRCRef) (name : String) (flags : List OFlag) (mode : ℕ)
  | close (fd : Fd)
  | dup (fd : Fd)
  | statx (dir : FDRCRef) (name : String)
  | mkdirat (dir : FDRCRef) (name : String) (mode : ℕ)
  | fdopendir (fd : Fd)
  | readdir (fd : Fd)
  | closedir (fd : Fd)
  | faccessat (fd : Fd) (name : String)
  | ftruncate (fd : Fd) (length : ℕ)
  | readSymlink (dir : FDRCRef) (name : String)
  | symlinkat (target : String) (dir : FDRCRef) (name : String)
  | unlinkat (dir : FDRCRef) (name : String)
  | renameat (dir : FDRCRef) (old new : String)
  | utimensat (dir : FDRCRef) (name : String) (atime : Option Timespec) (mtime : Timespec)
  | fchownat (dir : FDRCRef) (name : String) (uid gid : ℕ)
  | fchmodat (dir : FDRCRef) (name : String) (mode : ℕ)
  | recursiveRemove (path : String)
  | newFDRC (fd : Fd) (path : String) (dst : Bool) (srcStx : Statx)
  | incref (ref : FDRCRef)
  | releaseDir (ref : FDRCRef)
  | releasePath (path : StringPartRef)
  | taskProcessDir (path : String) (dev : ℕ × ℕ) (srcParent dstParent : FDRCRef)
  | taskProcessNonDir (path : String) (dev : ℕ × ℕ) (srcParent dstParent : FDRCRef)
  | hlinkStateRegisterLinkRoot (path : String) (srcInode destInode : ℕ) (destExists : Bool)
      (srcNLinks destNLinks : ℕ) (shouldTransfer : Bool) (dstDirFD : FDRCRef)
  | hlinkStateHandleTransfer (remote : String) (srcInode destInode : ℕ)
  | enqueueJob (job : FileCopyJob)
  | enqueueFinish (job : FileCopyJob)
  | addFilesSeen
  | addDirs
  | addBytesSeen (n : ℕ)
  | addBytesSeenAndWillTransfer (n : ℕ)
  | addBytesTransferred (n : ℕ) (actually : Bool)
  | addFinished (n : ℕ)
deriving DecidableEq

def Call.Answer : Call → Type
  | openat .. | dup _ => Except Errno Fd
  | statx .. => Except Errno Statx
  | readdir _ => List Dirent
  | readSymlink .. => Except Errno String
  | mkdirat .. | fdopendir _ | faccessat .. | ftruncate .. | symlinkat .. | unlinkat ..
  | renameat .. | utimensat .. | fchownat .. | fchmodat .. => Except Errno Unit
  | newFDRC .. => FDRCRef
  | hlinkStateRegisterLinkRoot .. => LinkOutcome
  | hlinkStateHandleTransfer .. => ℕ
  | _ => Unit

def Call.succeed (stx : Statx) : (c : Call) → c.Answer
  | openat .. | dup _ => .ok (5 : Fd)
  | statx .. => .ok stx
  | readdir _ => ([] : List Dirent)
  | readSymlink .. => .ok "target"
  | mkdirat .. | fdopendir _ | faccessat .. | ftruncate .. | symlinkat .. | unlinkat ..
  | renameat .. | utimensat .. | fchownat .. | fchmodat .. => .ok ()
  | newFDRC .. => (0 : FDRCRef)
  | hlinkStateRegisterLinkRoot _ _ _ _ _ _ shouldTransfer _ =>
    (⟨shouldTransfer, true, false⟩ : LinkOutcome)
  | hlinkStateHandleTransfer .. => (0 : ℕ)
  | close _ | closedir _ | recursiveRemove _ | incref _ | releaseDir _ | releasePath _
  | taskProcessDir .. | taskProcessNonDir .. | enqueueJob _ | enqueueFinish _ | addFilesSeen
  | addDirs | addBytesSeen _ | addBytesSeenAndWillTransfer _ | addBytesTransferred ..
  | addFinished _ => ()

abbrev Sys : Interface := ⟨Call, Call.Answer⟩

def sys (c : Call) : Prog Sys c.Answer := .call c .ret

@[simp] theorem sys_bind {α : Type} (c : Call) (f : c.Answer → Prog Sys α) :
    sys c >>= f = .call c f := rfl

/-- What follows the last slash, as `strrchr` finds it. -/
def baseName (path : String) : String :=
  String.ofList (path.toList.reverse.takeWhile (· ≠ '/')).reverse

def onlyIf (wanted : Bool) (p : Prog Sys Unit) : Prog Sys Unit :=
  if wanted then p else .ret ()

/-- Make a call that is wanted, and report whether it failed. -/
def failed (wanted : Bool) (p : Prog Sys (Except Errno Unit)) : Prog Sys Bool :=
  if wanted then p >>= fun r => .ret (match r with | .ok _ => false | .error _ => true)
  else .ret false

theorem failed_ensures {P : Call → Prop} {wanted : Bool} {p : Prog Sys (Except Errno Unit)}
    (h : wanted = true → p.Ensures P fun _ => True) :
    (failed wanted p).Ensures P fun _ => True := by
  rw [failed]
  split
  · rename_i hw
    exact (h hw).bind fun r _ => trivial
  · trivial

theorem onlyIf_ensures {P : Call → Prop} {wanted : Bool} {p : Prog Sys Unit}
    (h : wanted = true → p.Ensures P fun _ => True) :
    (onlyIf wanted p).Ensures P fun _ => True := by
  rw [onlyIf]
  split
  · rename_i hw
    exact h hw
  · trivial

end Copy2.Os
