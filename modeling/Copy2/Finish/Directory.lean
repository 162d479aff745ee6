import Copy2.Finish.Processor
import Copy2.Lib.Protocol

/-! # What a job does to its directory

The calls of a finish processor, with the removal of the old entry spelled out, and what
each of them does to the entries of the directory that it works in. -/
namespace Copy2.Finish
open FileJob Lib Os

def eisdir : Errno := 21

/-- The calls of a job, and those of `recursiveRemove`: unlinking a path below the root of
the destination, and removing a directory with all that is in it. -/
inductive RawCall
  | base (c : Call)
  | unlinkRoot (path : String)
  | removeDirectory (path : String)

def RawCall.Answer : RawCall → Type
  | base c => c.Answer
  | unlinkRoot _ => Except Errno Unit
  | removeDirectory _ => Unit

abbrev Raw : Interface := ⟨RawCall, RawCall.Answer⟩

/-- A directory cannot be unlinked, and is removed as one. -/
def afterUnlink (path : String) : Except Errno Unit → Prog Raw Unit
  | .ok _ => .ret ()
  | .error e => if e = eisdir then .call (.removeDirectory path) .ret else .ret ()

/-- `recursiveRemove` at depth 0. Its result is not looked at by its callers. -/
def recursiveRemove (path : String) : Prog Raw Unit :=
  .call (.unlinkRoot path) (afterUnlink path)

/-- Every call is made as it is, but a removal is carried out. -/
def rawCall : (c : Call) → Prog Raw c.Answer
  | .recursiveRemove path => recursiveRemove path
  | c => .call (.base c) .ret

def finishRaw (preserveAtime : Bool) (fileJob : FileCopyJob) : Prog Raw Unit :=
  (finishProcessorOne preserveAtime fileJob).expand rawCall

/-- The entries of the directory that the job works in, by name. -/
abbrev Directory := String → Option Statx

def Directory.modify (d : Directory) (name : String) (f : Statx → Statx) : Directory :=
  Function.update d name ((d name).map f)

/-- The bits that a change of owner or group takes from a regular file: setuid, and setgid
if the group may execute it. -/
def idBits (mode : ℕ) : ℕ := if mode &&& 0o10 = 0 then 0o4000 else 0o6000

def clearIds (mode : ℕ) : ℕ := if isReg mode then mode ^^^ (mode &&& idBits mode) else mode

/-- The permission bits are replaced, the type stays. A symbolic link is followed. -/
def chmodMode (mode new : ℕ) : ℕ :=
  if isLnk mode then mode else (mode &&& sIfmt) ||| (new &&& 0o7777)

/-- What a call does to the entries. The size that `ftruncate` sets is there when the
destination is examined, and the links that the table makes are under other names. -/
def effect (d : Directory) : Sys.Event → Directory
  | ⟨.renameat _ old new, .ok _⟩ => Function.update (Function.update d old none) new (d old)
  | ⟨.utimensat _ name atime mtime, .ok _⟩ => d.modify name fun a =>
    { a with stx_atime := atime.getD a.stx_atime, stx_mtime := mtime }
  | ⟨.fchownat _ name uid gid, .ok _⟩ => d.modify name fun a =>
    { a with stx_uid := uid, stx_gid := gid, stx_mode := clearIds a.stx_mode }
  | ⟨.fchmodat _ name mode, .ok _⟩ => d.modify name fun a =>
    { a with stx_mode := chmodMode a.stx_mode mode }
  | ⟨.unlinkat _ name, .ok _⟩ => Function.update d name none
  | ⟨.recursiveRemove path, _⟩ => Function.update d (baseName path) none
  | _ => d

def Truthful (d : Directory) : Sys.Event → Prop
  | ⟨.statx _ name, .ok a⟩ => d name = some a
  | _ => True

def isDirectory (mode : ℕ) : Bool := mode &&& sIfmt == 0o040000

def rawEffect (d : Directory) : Raw.Event → Directory
  | ⟨.base c, r⟩ => effect d ⟨c, r⟩
  | ⟨.unlinkRoot path, .ok _⟩ => Function.update d (baseName path) none
  | ⟨.removeDirectory path, _⟩ =>
    if (d (baseName path)).any fun a => isDirectory a.stx_mode then
      Function.update d (baseName path) none
    else d
  | _ => d

section equations
-- the equations of both are made here, once for all the proofs that use them
attribute [local simp] effect rawEffect
end equations

def rawTruthful (d : Directory) : Raw.Event → Prop
  | ⟨.base c, r⟩ => Truthful d ⟨c, r⟩
  | _ => True

/-- What holds of every job that is enqueued: the temporary file is named after the file, with
a suffix, and the job of a directory has none. -/
structure WellFormed (job : FileCopyJob) : Prop where
  suffix : ∀ p, job.partialRef = some p → ∃ hash : String,
    p = job.remote.getD "" ++ hash ∧ hash ≠ "" ∧ '/' ∉ hash.toList
  dot : job.isDot = true → job.partialRef = none

theorem baseName_append {path hash : String} (h : '/' ∉ hash.toList) :
    baseName (path ++ hash) = baseName path ++ hash := by
  have hall : ∀ c ∈ hash.toList.reverse, decide (c ≠ '/') = true := by
    intro c hc
    rw [List.mem_reverse] at hc
    simpa using fun he : c = '/' => h (he ▸ hc)
  rw [← String.toList_inj]
  simp only [baseName, String.toList_append, String.toList_ofList, List.reverse_append]
  rw [List.takeWhile_append_of_pos hall]
  simp

theorem WellFormed.distinct {job : FileCopyJob} (h : WellFormed job)
    (hp : job.partialRef.isSome = true) : dstFileName job ≠ dstRemoteName job := by
  obtain ⟨p, hp'⟩ := Option.isSome_iff_exists.mp hp
  obtain ⟨hash, rfl, hne, hslash⟩ := h.suffix p hp'
  have hdot : job.isDot = false := by
    cases hd : job.isDot with
    | false => rfl
    | true => simp [h.dot hd] at hp'
  rw [dstFileName, dstRemoteName, hdot, hp', if_neg (by simp), if_neg (by simp), Option.getD_some,
    baseName_append hslash]
  intro he
  have hlen := congrArg (fun s : String => s.toList.length) he
  simp only [String.toList_append, List.length_append] at hlen
  exact hne (String.toList_inj.mp (List.eq_nil_of_length_eq_zero (by omega)))

theorem WellFormed.remote {job : FileCopyJob} (h : WellFormed job)
    (hp : job.partialRef.isSome = true) : baseName (job.remote.getD "") = dstRemoteName job := by
  rw [dstRemoteName, if_neg]
  intro hd
  simp [h.dot hd] at hp

theorem dstFileName_of_none {job : FileCopyJob} (h : job.partialRef = none) :
    dstFileName job = dstRemoteName job := by
  rw [dstFileName, dstRemoteName, h]
  rfl

end Copy2.Finish
