import Copy2.Os.Calls

/-! # Looking at one entry that is no directory

`processNonDir` compares the source with the destination, asks the hard-link table where
a link is involved, and hands the entry over: to a scheduler, to a finish processor, to
the root of its links, or to nobody when nothing is left to do. -/
namespace Copy2.Crawl
open FileJob Lib Os

structure CrawlOpts where
  minBlockSize : ℕ
  maxBlockSize : ℕ
  suffix : String → String

structure Looked where
  stx : Statx
  shouldTransfer : Bool
  isFirstLook : Bool
  isPendingHardlink : Bool

/-- Sizes and times in seconds are compared, nothing else. -/
def differs (stx destStx : Statx) : Bool :=
  stx.stx_mtime.tv_sec != destStx.stx_mtime.tv_sec || stx.stx_size != destStx.stx_size

/-- The hard-link table has the last word on an entry with links on either side. -/
def registerLinks (path : String) (dst : FDRCRef) (stx destStx : Statx) (destExists : Bool) :
    Prog Sys Looked :=
  let shouldTransfer := !destExists || differs stx destStx
  if 1 < stx.stx_nlink ∨ 1 < destStx.stx_nlink then
    .call (.hlinkStateRegisterLinkRoot path stx.stx_ino destStx.stx_ino destExists stx.stx_nlink
      destStx.stx_nlink shouldTransfer dst) fun out =>
        .ret ⟨stx, out.shouldTransfer && !out.isPendingHardlink, out.firstLook,
          out.isPendingHardlink⟩
  else .ret ⟨stx, shouldTransfer, true, false⟩

/-- Both sides are examined; otherwise nothing is known. -/
def examine (path : String) (src dst : FDRCRef) : Prog Sys (Option Looked) := do
  let name := baseName path
  match ← sys (.statx src name) with
  | .error _ => return none
  | .ok stx =>
    match ← sys (.statx dst name) with
    | .error e => if e = enoent then seen stx {} false else return none
    | .ok destStx => seen stx destStx true
where
  seen (stx destStx : Statx) (destExists : Bool) : Prog Sys (Option Looked) := do
    sys .addFilesSeen
    let out ← registerLinks path dst stx destStx destExists
    onlyIf (isReg stx.stx_mode) (sys (.addBytesSeen stx.stx_size))
    return some out

def newJob (path : String) (partialRef : StringPartRef) (dst : FDRCRef) (l : Looked) :
    FileCopyJob :=
  { firstLook := l.isFirstLook, remote := some path, partialRef := partialRef, stx := l.stx,
    srcFd := -1, dstFd := -1, dstDirFD := dst }

def enqueueFinish (path : String) (partialRef : StringPartRef) (dst : FDRCRef) (l : Looked) :
    Prog Sys Unit := do
  sys (.incref dst)
  sys (.enqueueFinish (newJob path partialRef dst l))

/-- The temporary file is made with its final size, rounded up, and the copy is queued. -/
def transferFile (opts : CrawlOpts) (path tmp : String) (src dst : FDRCRef) (l : Looked) :
    Prog Sys ℤ := do
  match ← sys (.openat src (baseName path) [.rdonly, .direct, .noatime] 0) with
  | .error _ => return 1
  | .ok srcFd =>
    match ← sys (.openat dst (baseName tmp) [.rdwr, .creat, .direct, .noatime]
        l.stx.stx_mode) with
    | .error _ =>
      sys (.close srcFd)
      return 1
    | .ok dstFd =>
      match ← sys (.ftruncate dstFd (alignUp l.stx.stx_size directIoAlign)) with
      | .error _ =>
        sys (.close srcFd)
        sys (.close dstFd)
        return 1
      | .ok _ =>
        sys (.addBytesSeenAndWillTransfer l.stx.stx_size)
        sys (.incref dst)
        sys (.enqueueJob { newJob path (some tmp) dst l with
          srcFd := srcFd
          dstFd := dstFd
          blockSize := blockSize l.stx.stx_size (64 * 2 ^ 20) opts.minBlockSize
            opts.maxBlockSize })
        return 0

/-- The link is made under the temporary name. -/
def transferSymlink (path tmp : String) (src dst : FDRCRef) (l : Looked) : Prog Sys ℤ := do
  match ← sys (.readSymlink src (baseName path)) with
  | .error _ => return 1
  | .ok contents =>
    match ← sys (.symlinkat contents dst (baseName tmp)) with
    | .error _ => return 1
    | .ok _ =>
      onlyIf (!l.isPendingHardlink && l.isFirstLook) (enqueueFinish path (some tmp) dst l)
      return 0

def handOver (opts : CrawlOpts) (path : String) (src dst : FDRCRef) (l : Looked) :
    Prog Sys ℤ := do
  let tmp := path ++ opts.suffix path
  if l.shouldTransfer then
    let _ ← sys (.unlinkat dst (baseName tmp))
    if isReg l.stx.stx_mode then transferFile opts path tmp src dst l
    else if isLnk l.stx.stx_mode then transferSymlink path tmp src dst l
    else return 0
  else
    onlyIf (!l.isPendingHardlink && l.isFirstLook) (enqueueFinish path none dst l)
    onlyIf (!l.isPendingHardlink && !l.isFirstLook) (sys (.addFinished 1))
    return 0

def processNonDir (opts : CrawlOpts) (path : String) (src dst : FDRCRef) : Prog Sys ℤ := do
  let ret ← processNonDirBody
  sys (.releasePath (some (path ++ opts.suffix path)))
  sys (.releaseDir dst)
  sys (.releaseDir src)
  sys (.releasePath (some path))
  return ret
where
  processNonDirBody : Prog Sys ℤ := do
    match ← examine path src dst with
    | none => return 1
    | some l => handOver opts path src dst l

/-- What the destination directory is touched with: only the temporary name is made and
removed, nothing is renamed, and no task is started. -/
def NonDirCall (path tmp : String) (dst : FDRCRef) : Call → Prop
  | .unlinkat dir name | .symlinkat _ dir name => dir = dst ∧ name = baseName tmp
  | .openat dir name flags _ => .creat ∈ flags → dir = dst ∧ name = baseName tmp
  | .hlinkStateRegisterLinkRoot p _ _ _ _ _ _ dir => p = path ∧ dir = dst
  | .mkdirat .. | .renameat .. | .utimensat .. | .fchownat .. | .fchmodat .. | .recursiveRemove _
  | .taskProcessDir .. | .taskProcessNonDir .. | .hlinkStateHandleTransfer .. => False
  | _ => True

section Calls
variable {opts : CrawlOpts} {path tmp : String} {src dst : FDRCRef} {l : Looked}

theorem registerLinks_calls {stx destStx : Statx} {destExists : Bool} :
    (registerLinks path dst stx destStx destExists).Ensures (NonDirCall path tmp dst)
      fun _ => True := by
  rw [registerLinks]
  split
  · exact And.intro ⟨rfl, rfl⟩ fun _ => trivial
  · trivial

theorem examine_calls :
    (examine path src dst).Ensures (NonDirCall path tmp dst) fun _ => True := by
  have seen (stx destStx : Statx) (destExists : Bool) :
      (examine.seen path dst stx destStx destExists).Ensures (NonDirCall path tmp dst)
        fun _ => True :=
    And.intro trivial fun _ => registerLinks_calls.bind fun _ _ =>
      (onlyIf_ensures (p := sys (.addBytesSeen _)) fun _ => And.intro trivial fun _ =>
        trivial).bind fun _ _ => trivial
  refine And.intro trivial fun r => ?_
  cases r with
  | error e => trivial
  | ok stx =>
    refine And.intro trivial fun r => ?_
    cases r with
    | ok destStx => exact seen stx destStx true
    | error e =>
      change Prog.Ensures _ _ (ite _ _ _)
      split
      · exact seen stx {} false
      · trivial

theorem transferFile_calls :
    (transferFile opts path tmp src dst l).Ensures (NonDirCall path tmp dst) fun _ => True := by
  have hsrc : NonDirCall path tmp dst
      (.openat src (baseName path) [.rdonly, .direct, .noatime] 0) := fun h => by simp at h
  have hdst : NonDirCall path tmp dst
      (.openat dst (baseName tmp) [.rdwr, .creat, .direct, .noatime] l.stx.stx_mode) :=
    fun _ => ⟨rfl, rfl⟩
  refine And.intro hsrc fun r => ?_
  cases r with
  | error e => trivial
  | ok srcFd =>
    refine And.intro hdst fun r => ?_
    cases r with
    | error e => exact And.intro trivial fun _ => trivial
    | ok dstFd =>
      refine And.intro trivial fun r => ?_
      cases r with
      | error e => exact And.intro trivial fun _ => And.intro trivial fun _ => trivial
      | ok u =>
        exact And.intro trivial fun _ => And.intro trivial fun _ => And.intro trivial fun _ => trivial

theorem enqueueFinish_calls {partialRef : StringPartRef} :
    (enqueueFinish path partialRef dst l).Ensures (NonDirCall path tmp dst) fun _ => True :=
  And.intro trivial fun _ => And.intro trivial fun _ => trivial

theorem transferSymlink_calls :
    (transferSymlink path tmp src dst l).Ensures (NonDirCall path tmp dst) fun _ => True := by
  refine And.intro trivial fun r => ?_
  cases r with
  | error e => trivial
  | ok contents =>
    refine And.intro ⟨rfl, rfl⟩ fun r => ?_
    cases r with
    | error e => trivial
    | ok u => exact (onlyIf_ensures fun _ => enqueueFinish_calls).bind fun _ _ => trivial

theorem handOver_calls : (handOver opts path src dst l).Ensures
    (NonDirCall path (path ++ opts.suffix path) dst) fun _ => True := by
  change Prog.Ensures _ _ (ite _ _ _)
  split
  · refine And.intro ⟨rfl, rfl⟩ fun _ => ?_
    change Prog.Ensures _ _ (ite _ _ _)
    split
    · exact transferFile_calls
    · split
      · exact transferSymlink_calls
      · trivial
  · exact (onlyIf_ensures fun _ => enqueueFinish_calls).bind fun _ _ =>
      (onlyIf_ensures (p := sys (.addFinished 1)) fun _ => And.intro trivial fun _ =>
        trivial).bind fun _ _ => trivial

theorem processNonDir_calls : (processNonDir opts path src dst).Ensures
    (NonDirCall path (path ++ opts.suffix path) dst) fun _ => True := by
  have body : (processNonDir.processNonDirBody opts path src dst).Ensures
      (NonDirCall path (path ++ opts.suffix path) dst) fun _ => True := by
    refine examine_calls.bind fun l _ => ?_
    cases l with
    | none => trivial
    | some l => exact handOver_calls
  exact body.bind fun _ _ => And.intro trivial fun _ => And.intro trivial fun _ =>
    And.intro trivial fun _ => And.intro trivial fun _ => trivial

end Calls

end Copy2.Crawl
