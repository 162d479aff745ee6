import Copy2.Os.Calls

/-! # Finishing one job

A finish processor brings the destination to its final size, checks it, publishes it
under its final name and applies the metadata. -/
namespace Copy2.Finish
open FileJob Lib Os

/-- The descriptors of the job are closed; a failed truncation counts as an error. -/
def closeFiles (fileJob : FileCopyJob) : Prog Sys FileCopyJob := do
  onlyIf (0 ≤ fileJob.srcFd) (sys (.close fileJob.srcFd))
  if 0 ≤ fileJob.dstFd then
    let bad ← failed (isReg fileJob.stx.stx_mode)
      (sys (.ftruncate fileJob.dstFd fileJob.stx.stx_size))
    sys (.close fileJob.dstFd)
    return { fileJob with nErrors := fileJob.nErrors + bad.toNat }
  else return fileJob

def dstFileName (fileJob : FileCopyJob) : String :=
  if fileJob.isDot then "."
  else baseName (fileJob.partialRef.getD (fileJob.remote.getD ""))

def dstRemoteName (fileJob : FileCopyJob) : String :=
  if fileJob.isDot then "." else baseName (fileJob.remote.getD "")

def timesDiffer (preserveAtime : Bool) (src dst : Statx) : Bool :=
  dst.stx_mtime.tv_sec != src.stx_mtime.tv_sec ||
    (preserveAtime && dst.stx_atime.tv_sec != src.stx_atime.tv_sec)

/-- What became of the job, and whether its temporary file is gone. -/
structure Outcome where
  fileJobSuccess : Bool
  partialDeleted : Bool

/-- The destination is right: the old entry goes, the temporary file takes its name, and
the metadata follows. Only when all of that has worked is the root of a group of links
handed to the hard-link table. -/
def publish (preserveAtime : Bool) (fileJob : FileCopyJob) (destStx : Statx) :
    Prog Sys Outcome := do
  let dir := fileJob.dstDirFD
  let stx := fileJob.stx
  let name := dstRemoteName fileJob
  let remote := fileJob.remote.getD ""
  onlyIf fileJob.partialRef.isSome (sys (.recursiveRemove remote))
  if ← failed fileJob.partialRef.isSome (sys (.renameat dir (dstFileName fileJob) name)) then
    return ⟨false, false⟩
  else if ← failed (timesDiffer preserveAtime stx destStx)
      (sys (.utimensat dir name (if preserveAtime then some stx.stx_atime else none)
        stx.stx_mtime)) then
    return ⟨false, true⟩
  else if ← failed (destStx.stx_uid != stx.stx_uid || destStx.stx_gid != stx.stx_gid)
      (sys (.fchownat dir name stx.stx_uid stx.stx_gid)) then
    return ⟨false, true⟩
  else if ← failed (!isLnk stx.stx_mode && destStx.stx_mode != stx.stx_mode)
      (sys (.fchmodat dir name stx.stx_mode)) then
    return ⟨false, true⟩
  else if 1 < stx.stx_nlink then
    let nFinishedInc ← sys (.hlinkStateHandleTransfer remote stx.stx_ino destStx.stx_ino)
    sys (.addFinished nFinishedInc)
    return ⟨true, true⟩
  else return ⟨true, true⟩

/-- The checks before anything of the old destination is touched. -/
def checkAndPublish (preserveAtime : Bool) (fileJob : FileCopyJob) : Prog Sys Outcome := do
  match ← sys (.statx fileJob.dstDirFD (dstFileName fileJob)) with
  | .error _ => return ⟨false, false⟩
  | .ok destStx =>
    if isReg fileJob.stx.stx_mode && destStx.stx_size != fileJob.stx.stx_size then
      return ⟨false, false⟩
    else if fileJob.nErrors ≠ 0 then return ⟨false, false⟩
    else
      let out ← publish preserveAtime fileJob destStx
      onlyIf (isReg fileJob.stx.stx_mode && out.fileJobSuccess && fileJob.firstLook)
        (sys (.addBytesTransferred fileJob.stx.stx_size fileJob.actuallyTransferred))
      return out

def finishProcessorOne (preserveAtime : Bool) (fileJob : FileCopyJob) : Prog Sys Unit := do
  let fileJob ← closeFiles fileJob
  let out ← checkAndPublish preserveAtime fileJob
  let _ ← failed (!out.partialDeleted && fileJob.partialRef.isSome)
    (sys (.unlinkat fileJob.dstDirFD (dstFileName fileJob)))
  sys (.addFinished 1)
  sys (.releaseDir fileJob.dstDirFD)
  sys (.releasePath fileJob.partialRef)
  sys (.releasePath fileJob.remote)

def Publishes : Call → Prop
  | .recursiveRemove _ | .renameat .. | .hlinkStateHandleTransfer .. => True
  | _ => False

def Closes : Call → Prop
  | .close _ | .ftruncate .. => True
  | _ => False

theorem closeFiles_ensures (fileJob : FileCopyJob) : (closeFiles fileJob).Ensures Closes
    fun job => ∃ e, job = { fileJob with nErrors := fileJob.nErrors + e } := by
  refine (onlyIf_ensures fun _ => ?_).bind fun _ _ => ?_
  · exact And.intro trivial fun _ => trivial
  · split
    · refine (failed_ensures fun _ => ?_).bind fun bad _ => ?_
      · exact And.intro trivial fun _ => trivial
      · exact And.intro trivial fun _ => ⟨bad.toNat, rfl⟩
    · exact ⟨0, rfl⟩

theorem not_publishes_of_closes (c : Call) (hc : Closes c) : ¬ Publishes c := by
  cases c with
  | close | ftruncate => exact id
  | _ => exact hc.elim

theorem checkAndPublish_ensures {preserveAtime : Bool} {fileJob : FileCopyJob}
    (herr : 0 < fileJob.nErrors) :
    (checkAndPublish preserveAtime fileJob).Ensures (fun c => ¬ Publishes c) fun _ => True := by
  refine And.intro id fun r => ?_
  cases r with
  | error e => trivial
  | ok destStx =>
    change Prog.Ensures _ _ (ite _ _ _)
    split
    · trivial
    · rw [if_pos herr.ne']
      trivial

/-- A job with errors is never published. -/
theorem finishProcessorOne_ensures {preserveAtime : Bool} {fileJob : FileCopyJob}
    (herr : 0 < fileJob.nErrors) :
    (finishProcessorOne preserveAtime fileJob).Ensures (fun c => ¬ Publishes c) fun _ => True := by
  refine ((closeFiles_ensures fileJob).weaken not_publishes_of_closes).bind ?_
  rintro job ⟨e, rfl⟩
  refine (checkAndPublish_ensures (Nat.add_pos_left herr e)).bind fun out _ => ?_
  refine (failed_ensures fun _ => ?_).bind fun _ _ => ?_
  · exact And.intro id fun _ => trivial
  · exact And.intro id fun _ => And.intro id fun _ => And.intro id fun _ =>
      And.intro id fun _ => trivial

end Copy2.Finish
