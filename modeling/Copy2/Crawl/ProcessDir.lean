import Copy2.Os.Calls

/-! # Crawling one directory

`processDir` makes the destination directory, with `--sync` prunes what the source does
not have, and starts a task for every entry of the source. The loops over a directory
stream take the entries in the order of the stream. -/
namespace Copy2.Crawl
open FileJob Lib Os

def isDot (name : String) : Bool := name == "." || name == ".."

def child (path name : String) : String := path ++ "/" ++ name

/-- The first loop of `--sync`: the entries of the destination whose probe fails, the last
one first. -/
def collectExtra (newSrcFD : Fd) (path : String) :
    List Dirent → List String → Prog Sys (List String)
  | [], toRemove => .ret toRemove
  | d :: ds, toRemove => do
    match ← sys (.faccessat newSrcFD d.d_name) with
    | .error _ => collectExtra newSrcFD path ds (child path d.d_name :: toRemove)
    | .ok _ => collectExtra newSrcFD path ds toRemove

/-- The second loop of `--sync`. -/
def removeExtra : List String → Prog Sys Unit
  | [] => .ret ()
  | path :: paths => do
    sys (.recursiveRemove path)
    removeExtra paths

/-- Prune the destination directory; false when it cannot be read. -/
def pruneDst (path : String) (newSrcFD : Fd) (dstParent : FDRCRef) : Prog Sys Bool := do
  match ← sys (.openat dstParent (baseName path) [.directory, .noatime] 0) with
  | .error _ => return false
  | .ok dstFdDup =>
    match ← sys (.fdopendir dstFdDup) with
    | .error _ => return false
    | .ok _ =>
      let entries ← sys (.readdir dstFdDup)
      let toRemove ← collectExtra newSrcFD path entries []
      sys (.closedir dstFdDup)
      removeExtra toRemove
      return true

def startTasks (path : String) (dev : ℕ × ℕ) (newSrcFDRef newDstFDRef : FDRCRef) :
    List Dirent → Prog Sys Unit
  | [] => .ret ()
  | d :: ds =>
    if isDot d.d_name then startTasks path dev newSrcFDRef newDstFDRef ds
    else do
      sys (.incref newDstFDRef)
      sys (.incref newSrcFDRef)
      if d.isDir then
        sys (.taskProcessDir (child path d.d_name) dev newSrcFDRef newDstFDRef)
        startTasks path dev newSrcFDRef newDstFDRef ds
      else
        sys (.taskProcessNonDir (child path d.d_name) dev newSrcFDRef newDstFDRef)
        startTasks path dev newSrcFDRef newDstFDRef ds

/-- What the opening of the source directory yields: its descriptor, a second one, its
attributes and its device. -/
structure SourceDir where
  fd : Fd
  newSrcFD : Fd
  stx : Statx
  dev : ℕ × ℕ

/-- The source directory is opened and the destination directory made; otherwise the
value that `processDir` returns. -/
def openSource (path : String) (dev : Option (ℕ × ℕ)) (srcParent dstParent : FDRCRef) :
    Prog Sys (Except ℤ SourceDir) := do
  let name := baseName path
  match ← sys (.openat srcParent name [.rdonly, .directory, .noatime] 0) with
  | .error _ => return .error (-1)
  | .ok fd =>
    match ← sys (.statx srcParent name) with
    | .error _ => return .error (-1)
    | .ok stx =>
      let thisdev := (stx.stx_dev_major, stx.stx_dev_minor)
      if dev.getD thisdev ≠ thisdev then return .error 0
      else if path = "" then dupSource fd stx thisdev
      else
        match ← sys (.mkdirat dstParent name stx.stx_mode) with
        | .error e => if e ≠ eexist then return .error (-1) else dupSource fd stx thisdev
        | .ok _ => dupSource fd stx thisdev
where
  dupSource (fd : Fd) (stx : Statx) (dev : ℕ × ℕ) : Prog Sys (Except ℤ SourceDir) := do
    match ← sys (.dup fd) with
    | .error _ => return .error (-1)
    | .ok newSrcFD => return .ok ⟨fd, newSrcFD, stx, dev⟩

/-- The entries of the source directory become tasks, once the destination is open. -/
def crawlSource (path : String) (dstParent : FDRCRef) (dir : SourceDir) : Prog Sys ℤ := do
  match ← sys (.openat dstParent (baseName path) [.directory, .noatime] 0) with
  | .error _ => return -1
  | .ok newDstFD =>
    let newSrcFDRef ← sys (.newFDRC dir.newSrcFD path false {})
    let newDstFDRef ← sys (.newFDRC newDstFD path true dir.stx)
    sys .addFilesSeen
    sys .addDirs
    let ret ← readTasks newSrcFDRef newDstFDRef
    sys (.releaseDir newDstFDRef)
    sys (.releaseDir newSrcFDRef)
    return ret
where
  readTasks (newSrcFDRef newDstFDRef : FDRCRef) : Prog Sys ℤ := do
    match ← sys (.fdopendir dir.fd) with
    | .error _ => return -1
    | .ok _ =>
      let entries ← sys (.readdir dir.fd)
      startTasks path dir.dev newSrcFDRef newDstFDRef entries
      sys (.closedir dir.fd)
      return 0

/-- The body of `processDir`, up to the destructors of its parents' guards. -/
def processDirBody (sync : Bool) (path : String) (dev : Option (ℕ × ℕ))
    (srcParent dstParent : FDRCRef) : Prog Sys ℤ := do
  match ← openSource path dev srcParent dstParent with
  | .error ret => return ret
  | .ok dir =>
    if sync then
      if ← pruneDst path dir.newSrcFD dstParent then crawlSource path dstParent dir
      else return -1
    else crawlSource path dstParent dir

def processDir (sync : Bool) (path : String) (dev : Option (ℕ × ℕ))
    (srcParent dstParent : FDRCRef) : Prog Sys ℤ := do
  let ret ← processDirBody sync path dev srcParent dstParent
  sys (.releaseDir dstParent)
  sys (.releaseDir srcParent)
  sys (.releasePath (some path))
  return ret

end Copy2.Crawl
