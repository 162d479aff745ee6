import Copy2.Crawl.Tree
import Copy2.Crawl.ProcessNonDir
import Copy2.Lib.Pool

/-! # The crawl of a static source tree

The tasks of the crawl run side by side. Descriptors and their reference-counted records
are named apart, and what each of them was opened for stays; all calls succeed. -/
namespace Copy2.Crawl
open FileJob Lib Os

variable {α : Type}

/-- What a descriptor refers to: an entry of the source, or anything in the destination. -/
inductive Place (α : Type)
  | source (path : String) (t : Tree α)
  | destination

def Place.lookup (name : String) : Place α → Option (Place α)
  | destination => some destination
  | source path t =>
    if name = "." then some (source path t)
    else match t with
      | .leaf _ => none
      | .dir _ es => (es.find name).map (source (child path name))

structure World (α : Type) where
  fd : Fd → Option (Place α) := fun _ => none
  ref : FDRCRef → Option (Place α) := fun _ => none

namespace World
variable (w : World α)

def openAs (x : Fd) (p : Option (Place α)) : Option (World α) :=
  if (w.fd x).isNone then p.map fun p => { w with fd := Function.update w.fd x (some p) } else none

def record (r : FDRCRef) (p : Option (Place α)) : Option (World α) :=
  if (w.ref r).isNone then p.map fun p => { w with ref := Function.update w.ref r (some p) }
  else none

end World

/-- Every entry is listed with its type, if it is a directory whose type is reported; '.' and
'..' may be there as well. -/
def listingOf (report : String → Bool) (path : String) (es : Entries α) : List Dirent :=
  es.toList.map fun x => ⟨x.1, x.2.isDir && report (child path x.1)⟩

def listed (report : String → Bool) (entries : List Dirent) : Place α → Bool
  | .source path (.dir _ es) =>
    (entries.filter fun d => !isDot d.d_name).isPerm (listingOf report path es)
  | _ => true

def onDevice (dev : ℕ × ℕ) (stx : Statx) : Bool := (stx.stx_dev_major, stx.stx_dev_minor) == dev

/-- A call that succeeds, and what becomes of the descriptors. An entry of the destination may be
missing. -/
def World.step (report : String → Bool) (dev : ℕ × ℕ) (w : World α) : Sys.Event → Option (World α)
  | ⟨.openat dir name _ _, .ok x⟩ => w.openAs x ((w.ref dir).bind (·.lookup name))
  | ⟨.dup fd, .ok x⟩ => w.openAs x (w.fd fd)
  | ⟨.newFDRC fd _ _ _, r⟩ => w.record r (w.fd fd)
  | ⟨.statx dir name, r⟩ =>
    match (w.ref dir).bind (·.lookup name), r with
    | some (.source ..), .ok stx => if onDevice dev stx then some w else none
    | some .destination, .ok _ => some w
    | some .destination, .error e => if e = enoent then some w else none
    | _, _ => none
  | ⟨.readdir fd, entries⟩ => (w.fd fd).bind fun p => if listed report entries p then some w else none
  | ⟨.mkdirat .., .error e⟩ => if e = eexist then some w else none
  | ⟨.openat .., .error _⟩ | ⟨.dup _, .error _⟩ | ⟨.fdopendir _, .error _⟩
  | ⟨.ftruncate .., .error _⟩ | ⟨.readSymlink .., .error _⟩ | ⟨.symlinkat .., .error _⟩ => none
  | _ => some w

def spawnTask (opts : CrawlOpts) (sync : Bool) : Call → Option (Prog Sys Unit)
  | .taskProcessDir path dev src dst => some (processDir sync path (some dev) src dst >>= fun _ => .ret ())
  | .taskProcessNonDir path _ src dst => some (processNonDir opts path src dst >>= fun _ => .ret ())
  | _ => none

def crawlPool (opts : CrawlOpts) (sync : Bool) (report : String → Bool) (dev : ℕ × ℕ) :
    Pool Sys (World α) where
  step := World.step report dev
  spawn := spawnTask opts sync

def crawlStart (sync : Bool) (a : α) (es : Entries α) : Pool.Config Sys (World α) where
  world := { ref := fun r => if r = 0 then some (.source "." (.dir a es))
                             else if r = 1 then some .destination else none }
  tasks := [processDir sync "." none 0 1 >>= fun _ => .ret ()]

end Copy2.Crawl
