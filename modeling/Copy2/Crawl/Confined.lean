import Copy2.Crawl.Partials
import Copy2.Crawl.Sync
import Copy2.Finish.Directory
import Copy2.Lib.Reliance

/-! # No name leads out of the trees

Every name that is handed to a system call is a single component, looked up below a directory
that has been opened before, and every path that is handed on spells entries below the root.
Tasks and jobs arise from each other, each of them with any answers to its calls. -/
namespace Copy2.Crawl.Confined
open FileJob Lib Os Finish

/-- A name that stays in its directory. -/
structure Component (name : String) : Prop where
  nonempty : name ≠ ""
  noSlash : '/' ∉ name.toList
  notUp : name ≠ ".."

/-- The path of an entry below the root, one name below the other. -/
inductive Below : String → Prop
  | top {name : String} : LegalName name → name ≠ "" → Below (Crawl.child "." name)
  | child {path name : String} : Below path → LegalName name → name ≠ "" →
      Below (Crawl.child path name)

/-- The path of the root, or of an entry below it. -/
def Spelled (path : String) : Prop := path = "." ∨ Below path

theorem Component.dot : Component "." := ⟨by decide, by decide, by decide⟩

theorem component_of_legal {name : String} (h : LegalName name) (hne : name ≠ "") :
    Component name where
  nonempty := hne
  noSlash := h.noSlash
  notUp := by
    rintro rfl
    exact absurd h.notDot (by decide)

theorem Spelled.child {path name : String} (h : Spelled path) (hn : LegalName name)
    (hne : name ≠ "") : Below (Crawl.child path name) := by
  rcases h with rfl | h
  · exact .top hn hne
  · exact .child h hn hne

theorem Below.exists_name {path : String} (h : Below path) :
    ∃ name, baseName path = name ∧ LegalName name ∧ name ≠ "" := by
  cases h with
  | top hn hne => exact ⟨_, baseName_child hn, hn, hne⟩
  | child h hn hne => exact ⟨_, baseName_child hn, hn, hne⟩

theorem Below.component {path : String} (h : Below path) : Component (baseName path) := by
  obtain ⟨name, hname, hn, hne⟩ := h.exists_name
  rw [hname]
  exact component_of_legal hn hne

theorem baseName_root : baseName "." = "." := by decide +kernel

theorem Spelled.component {path : String} (h : Spelled path) : Component (baseName path) := by
  rcases h with rfl | h
  · rw [baseName_root]
    exact .dot
  · exact h.component

/-- The temporary name is a name in the same directory. -/
theorem Below.component_tmp {hash : String → UInt64} {path : String} (h : Below path) :
    Component (baseName (partialPath hash path)) := by
  obtain ⟨name, hname, hn, hne⟩ := h.exists_name
  rw [partialPath, baseName_append slash_notMem_suffixBuf, hname]
  refine component_of_legal (legal_partialPath hn) fun he => hne ?_
  exact (String.append_eq_empty_iff.mp he).1

/-- The names of a job: those of an entry below the root, or those of a directory. -/
def Named (hash : String → UInt64) (job : FileCopyJob) : Prop :=
  ∃ path, job.remote = some path ∧
    (job.isDot = true ∧ job.partialRef = none ∧ Spelled path ∨
      job.isDot = false ∧ Below path ∧
        (job.partialRef = none ∨ job.partialRef = some (partialPath hash path)))

/-- A call whose names stay in their directories, and whose paths spell entries. A probe of
`--sync` is left out: it takes whatever the directory stream of the destination has. -/
def Safe (hash : String → UInt64) : Call → Prop
  | .openat _ name _ _ | .statx _ name | .mkdirat _ name _ | .readSymlink _ name
  | .symlinkat _ _ name | .unlinkat _ name | .utimensat _ name _ _ | .fchownat _ name _ _
  | .fchmodat _ name _ => Component name
  | .renameat _ old new => Component old ∧ Component new
  | .recursiveRemove path | .taskProcessNonDir path _ _ _
  | .hlinkStateRegisterLinkRoot path _ _ _ _ _ _ _ | .taskProcessDir path _ _ _ => Below path
  | .hlinkStateHandleTransfer path _ _ | .newFDRC _ path _ _ => Spelled path
  | .enqueueJob job | .enqueueFinish job => Named hash job
  | _ => True

def Stream (entries : List Dirent) : Prop :=
  ∀ d ∈ entries, d.d_name ≠ "" ∧ '/' ∉ d.d_name.toList

/-- What a directory stream promises of its names; and the directory itself and its parent are
found by a probe. -/
def Ordinary (e : Sys.Event) : Prop :=
  (∀ entries, listing e = some entries → Stream entries) ∧
  ∀ name, probe e = some (name, false) → isDot name = false

variable {hash : String → UInt64} {minBlockSize maxBlockSize : ℕ} {path : String}
variable {src dst : FDRCRef} {l : Looked}

theorem named_newJob {partialRef : StringPartRef} (hp : Below path)
    (href : partialRef = none ∨ partialRef = some (partialPath hash path)) :
    Named hash (newJob path partialRef dst l) :=
  ⟨path, rfl, .inr ⟨rfl, hp, href⟩⟩

theorem enqueueFinish_safe {partialRef : StringPartRef} (hp : Below path)
    (href : partialRef = none ∨ partialRef = some (partialPath hash path)) :
    (Crawl.enqueueFinish path partialRef dst l).Ensures (Safe hash) fun _ => True :=
  And.intro trivial fun _ => And.intro (named_newJob hp href) fun _ => trivial

theorem registerLinks_safe {stx destStx : Statx} {destExists : Bool} (hp : Below path) :
    (registerLinks path dst stx destStx destExists).Ensures (Safe hash) fun _ => True := by
  rw [registerLinks]
  split
  · exact And.intro hp fun _ => trivial
  · trivial

theorem examine_safe (hp : Below path) :
    (examine path src dst).Ensures (Safe hash) fun _ => True := by
  have seen (stx destStx : Statx) (destExists : Bool) :
      (examine.seen path dst stx destStx destExists).Ensures (Safe hash) fun _ => True :=
    And.intro trivial fun _ => (registerLinks_safe hp).bind fun _ _ =>
      (onlyIf_ensures (p := sys (.addBytesSeen _)) fun _ => And.intro trivial fun _ =>
        trivial).bind fun _ _ => trivial
  refine And.intro hp.component fun r => ?_
  cases r with
  | error e => trivial
  | ok stx =>
    refine And.intro hp.component fun r => ?_
    cases r with
    | ok destStx => exact seen stx destStx true
    | error e =>
      change Prog.Ensures _ _ (ite _ _ _)
      split
      · exact seen stx {} false
      · trivial

theorem transferFile_safe {opts : CrawlOpts} (hp : Below path) :
    (transferFile opts path (partialPath hash path) src dst l).Ensures (Safe hash)
      fun _ => True := by
  refine And.intro hp.component fun r => ?_
  cases r with
  | error e => trivial
  | ok srcFd =>
    refine And.intro hp.component_tmp fun r => ?_
    cases r with
    | error e => exact And.intro trivial fun _ => trivial
    | ok dstFd =>
      refine And.intro trivial fun r => ?_
      cases r with
      | error e => exact And.intro trivial fun _ => And.intro trivial fun _ => trivial
      | ok u =>
        refine And.intro trivial fun _ => And.intro trivial fun _ => And.intro ?_ fun _ => trivial
        exact ⟨path, rfl, .inr ⟨rfl, hp, .inr rfl⟩⟩

theorem transferSymlink_safe (hp : Below path) :
    (transferSymlink path (partialPath hash path) src dst l).Ensures (Safe hash)
      fun _ => True := by
  refine And.intro hp.component fun r => ?_
  cases r with
  | error e => trivial
  | ok contents =>
    refine And.intro hp.component_tmp fun r => ?_
    cases r with
    | error e => trivial
    | ok u =>
      refine (onlyIf_ensures fun _ => enqueueFinish_safe hp (.inr rfl)).bind fun _ _ => ?_
      trivial

theorem handOver_safe (hp : Below path) :
    (handOver (hashedOpts hash minBlockSize maxBlockSize) path src dst l).Ensures (Safe hash)
      fun _ => True := by
  rw [handOver]
  split
  · refine And.intro hp.component_tmp fun _ => ?_
    change Prog.Ensures _ _ (ite _ _ _)
    split
    · exact transferFile_safe hp
    · split
      · exact transferSymlink_safe hp
      · trivial
  · refine (onlyIf_ensures fun _ => enqueueFinish_safe hp (.inl rfl)).bind fun _ _ => ?_
    refine (onlyIf_ensures (p := sys (.addFinished 1)) fun _ => ?_).bind fun _ _ => ?_
    · exact And.intro trivial fun _ => trivial
    · trivial

theorem processNonDir_safe (hp : Below path) :
    (processNonDir (hashedOpts hash minBlockSize maxBlockSize) path src dst).Ensures (Safe hash)
      fun _ => True := by
  refine Prog.Ensures.bind (Q := fun _ => True) ?_ fun ret _ => ?_
  · refine (examine_safe hp).bind fun l _ => ?_
    cases l with
    | none => trivial
    | some l => exact handOver_safe hp
  · exact And.intro trivial fun _ => And.intro trivial fun _ => And.intro trivial fun _ =>
      And.intro trivial fun _ => trivial

theorem Named.dstFileName {job : FileCopyJob} (h : Named hash job) :
    Component (dstFileName job) := by
  obtain ⟨path, hremote, ⟨hdot, hnone, hp⟩ | ⟨hdot, hp, hnone | hsome⟩⟩ := h
  · rw [Finish.dstFileName, hdot]
    exact .dot
  · rw [Finish.dstFileName, hdot, hnone, hremote]
    exact hp.component
  · rw [Finish.dstFileName, hdot, hsome]
    exact hp.component_tmp

theorem Named.dstRemoteName {job : FileCopyJob} (h : Named hash job) :
    Component (dstRemoteName job) := by
  obtain ⟨path, hremote, ⟨hdot, hnone, hp⟩ | ⟨hdot, hp, -⟩⟩ := h
  · rw [Finish.dstRemoteName, hdot]
    exact .dot
  · rw [Finish.dstRemoteName, hdot, hremote]
    exact hp.component

theorem Named.spelled {job : FileCopyJob} (h : Named hash job) :
    Spelled (job.remote.getD "") := by
  obtain ⟨path, hremote, ⟨-, -, hp⟩ | ⟨-, hp, -⟩⟩ := h
  · rw [hremote]
    exact hp
  · rw [hremote]
    exact .inr hp

/-- Only the old entry of a job with a temporary file is removed. -/
theorem Named.below {job : FileCopyJob} (h : Named hash job)
    (hsome : job.partialRef.isSome = true) : Below (job.remote.getD "") := by
  obtain ⟨path, hremote, ⟨-, hnone, -⟩ | ⟨-, hp, -⟩⟩ := h
  · simp [hnone] at hsome
  · rw [hremote]
    exact hp

theorem publish_safe {preserveAtime : Bool} {job : FileCopyJob} {destStx : Statx}
    (h : Named hash job) :
    (publish preserveAtime job destStx).Ensures (Safe hash) fun _ => True := by
  have hname := h.dstRemoteName
  refine (onlyIf_ensures fun hsome => ?_).bind fun _ _ => ?_
  · exact And.intro (h.below hsome) fun _ => trivial
  refine (failed_ensures fun _ => ?_).bind fun bad _ => ?_
  · exact And.intro ⟨h.dstFileName, hname⟩ fun _ => trivial
  split
  · trivial
  refine (failed_ensures fun _ => ?_).bind fun bad _ => ?_
  · exact And.intro hname fun _ => trivial
  split
  · trivial
  refine (failed_ensures fun _ => ?_).bind fun bad _ => ?_
  · exact And.intro hname fun _ => trivial
  split
  · trivial
  refine (failed_ensures fun _ => ?_).bind fun bad _ => ?_
  · exact And.intro hname fun _ => trivial
  split
  · trivial
  split
  · exact And.intro h.spelled fun _ => And.intro trivial fun _ => trivial
  · trivial

theorem checkAndPublish_safe {preserveAtime : Bool} {job : FileCopyJob} (h : Named hash job) :
    (checkAndPublish preserveAtime job).Ensures (Safe hash) fun _ => True := by
  refine And.intro h.dstFileName fun r => ?_
  cases r with
  | error e => trivial
  | ok destStx =>
    change Prog.Ensures _ _ (ite _ _ _)
    split
    · trivial
    split
    · trivial
    refine (publish_safe h).bind fun out _ => ?_
    refine (onlyIf_ensures (p := sys (.addBytesTransferred _ _)) fun _ => ?_).bind fun _ _ => ?_
    · exact And.intro trivial fun _ => trivial
    · trivial

theorem finishProcessorOne_safe {preserveAtime : Bool} {job : FileCopyJob}
    (h : Named hash job) :
    (finishProcessorOne preserveAtime job).Ensures (Safe hash) fun _ => True := by
  have hcloses : ∀ c, Closes c → Safe hash c := by
    intro c hc
    cases c with
    | close | ftruncate => trivial
    | _ => exact hc.elim
  refine ((closeFiles_ensures job).weaken hcloses).bind ?_
  rintro job' ⟨e, rfl⟩
  have hjob : Named hash { job with nErrors := job.nErrors + e } := h
  refine (checkAndPublish_safe hjob).bind fun out _ => ?_
  refine (failed_ensures fun _ => ?_).bind fun _ _ => ?_
  · exact And.intro hjob.dstFileName fun _ => trivial
  · exact And.intro trivial fun _ => And.intro trivial fun _ => And.intro trivial fun _ =>
      And.intro trivial fun _ => trivial

theorem openSource_safe {dev : Option (ℕ × ℕ)} (hp : Spelled path) :
    (openSource path dev src dst).Ensures (Safe hash) fun _ => True := by
  have hname := hp.component
  have dup : ∀ fd stx thisdev,
      (openSource.dupSource fd stx thisdev).Ensures (Safe hash) fun _ => True :=
    fun fd stx thisdev => And.intro trivial fun r => by cases r <;> trivial
  refine And.intro hname fun r => ?_
  cases r with
  | error e => trivial
  | ok fd =>
    refine And.intro hname fun r => ?_
    cases r with
    | error e => trivial
    | ok stx =>
      change Prog.Ensures _ _ (ite _ _ _)
      split
      · trivial
      · split
        · exact dup fd stx _
        · refine And.intro hname fun r => ?_
          cases r with
          | error e =>
            change Prog.Ensures _ _ (ite _ _ _)
            split
            · trivial
            · exact dup fd stx _
          | ok u => exact dup fd stx _

theorem collectExtra_safe {fd : Fd} (hp : Spelled path) {entries : List Dirent}
    {toRemove : List String} (hentries : Stream entries) (hbelow : ∀ p ∈ toRemove, Below p) :
    (collectExtra fd path entries toRemove).Relying Ordinary (Safe hash)
      fun paths => ∀ p ∈ paths, Below p := by
  induction entries generalizing toRemove with
  | nil => exact hbelow
  | cons d ds ih =>
    obtain ⟨hne, hslash⟩ := hentries d (by simp)
    have hds : Stream ds := fun d' hd' => hentries d' (List.mem_cons_of_mem _ hd')
    refine And.intro trivial fun r hr => ?_
    cases r with
    | error e =>
      have hdot : isDot d.d_name = false := hr.2 d.d_name rfl
      refine ih hds fun p hmem => ?_
      rcases List.mem_cons.mp hmem with rfl | hmem
      · exact hp.child ⟨hdot, hslash⟩ hne
      · exact hbelow p hmem
    | ok u => exact ih hds hbelow

theorem removeExtra_safe {paths : List String} (h : ∀ p ∈ paths, Below p) :
    (removeExtra paths).Ensures (Safe hash) fun _ => True := by
  induction paths with
  | nil => trivial
  | cons p ps ih =>
    exact And.intro (h p (by simp)) fun _ => ih fun q hq => h q (List.mem_cons_of_mem _ hq)

theorem pruneDst_safe {fd : Fd} (hp : Spelled path) :
    (pruneDst path fd dst).Relying Ordinary (Safe hash) fun _ => True := by
  refine And.intro hp.component fun r _ => ?_
  cases r with
  | error e => trivial
  | ok dstFdDup =>
    refine And.intro trivial fun r _ => ?_
    cases r with
    | error e => trivial
    | ok u =>
      refine And.intro trivial fun entries hr => ?_
      have hentries : Stream entries := hr.1 entries rfl
      refine (collectExtra_safe hp hentries (by simp)).bind fun paths hpaths => ?_
      refine And.intro trivial fun _ _ => ?_
      exact (removeExtra_safe hpaths).relying.bind fun _ _ => trivial

theorem startTasks_safe {dev : ℕ × ℕ} (hp : Spelled path) {entries : List Dirent}
    (hentries : Stream entries) :
    (startTasks path dev src dst entries).Ensures (Safe hash) fun _ => True := by
  induction entries with
  | nil => trivial
  | cons d ds ih =>
    obtain ⟨hne, hslash⟩ := hentries d (by simp)
    have hds := ih fun d' hd' => hentries d' (List.mem_cons_of_mem _ hd')
    rw [startTasks]
    split
    · exact hds
    · next hdot =>
      have hchild := hp.child ⟨by simpa using hdot, hslash⟩ hne
      refine And.intro trivial fun _ => And.intro trivial fun _ => ?_
      change Prog.Ensures _ _ (ite _ _ _)
      split
      · exact And.intro hchild fun _ => hds
      · exact And.intro hchild fun _ => hds

theorem crawlSource_safe {dir : SourceDir} (hp : Spelled path) :
    (crawlSource path dst dir).Relying Ordinary (Safe hash) fun _ => True := by
  have tasks : ∀ newSrc newDst, (crawlSource.readTasks path dir newSrc newDst).Relying Ordinary
      (Safe hash) fun _ => True := fun newSrc newDst => And.intro trivial fun r _ => by
    cases r with
    | error e => trivial
    | ok u =>
      refine And.intro trivial fun entries hr => ?_
      have hentries : Stream entries := hr.1 entries rfl
      exact (startTasks_safe hp hentries).relying.bind fun _ _ =>
        And.intro trivial fun _ _ => trivial
  refine And.intro hp.component fun r _ => ?_
  cases r with
  | error e => trivial
  | ok newDstFD =>
    refine And.intro hp fun newSrc _ => And.intro hp fun newDst _ => ?_
    refine And.intro trivial fun _ _ => And.intro trivial fun _ _ => ?_
    exact (tasks newSrc newDst).bind fun ret _ => And.intro trivial fun _ _ =>
      And.intro trivial fun _ _ => trivial

theorem processDir_safe {sync : Bool} {dev : Option (ℕ × ℕ)} (hp : Spelled path) :
    (processDir sync path dev src dst).Relying Ordinary (Safe hash) fun _ => True := by
  refine Prog.Relying.bind (Q := fun _ => True) ?_ fun ret _ => ?_
  · refine (openSource_safe hp).relying.bind fun r _ => ?_
    cases r with
    | error ret => trivial
    | ok dir =>
      change Prog.Relying _ _ _ (ite _ _ _)
      split
      · refine (pruneDst_safe hp).bind fun ok _ => ?_
        cases ok with
        | true => exact crawlSource_safe hp
        | false => trivial
      · exact crawlSource_safe hp
  · exact And.intro trivial fun _ _ => And.intro trivial fun _ _ => And.intro trivial fun _ _ =>
      trivial

inductive Work
  | dir (path : String) (dev : Option (ℕ × ℕ)) (src dst : FDRCRef)
  | nonDir (path : String) (src dst : FDRCRef)
  | finish (job : FileCopyJob)

def Work.trace (opts : CrawlOpts) (sync preserveAtime : Bool) (env : Sys.Environment) :
    Work → List Sys.Event
  | .dir path dev src dst => ((processDir sync path dev src dst).run env []).2
  | .nonDir path src dst => ((processNonDir opts path src dst).run env []).2
  | .finish job => ((finishProcessorOne preserveAtime job).run env []).2

def dirJob (path : String) (stx : Statx) (ref : FDRCRef) : FileCopyJob :=
  { firstLook := true, remote := some path, partialRef := none, stx := stx, srcFd := -1,
    dstFd := -1, isDot := true, dstDirFD := ref }

/-- What a call starts. The schedulers change nothing of a job but its counters, and the last
reference to a directory of the destination makes a job for it. -/
inductive Starts : Call → Work → Prop
  | processDir {path : String} {dev : ℕ × ℕ} {src dst : FDRCRef} :
      Starts (.taskProcessDir path dev src dst) (.dir path (some dev) src dst)
  | processNonDir {path : String} {dev : ℕ × ℕ} {src dst : FDRCRef} :
      Starts (.taskProcessNonDir path dev src dst) (.nonDir path src dst)
  | transfer {job job' : FileCopyJob} (hremote : job'.remote = job.remote)
      (htmp : job'.partialRef = job.partialRef) (hdot : job'.isDot = job.isDot) :
      Starts (.enqueueJob job) (.finish job')
  | finish {job : FileCopyJob} : Starts (.enqueueFinish job) (.finish job)
  | lastReference {fd : Fd} {path : String} {stx : Statx} {ref : FDRCRef} :
      Starts (.newFDRC fd path true stx) (.finish (dirJob path stx ref))

/-- The tasks and jobs that come of the root, whatever their calls are answered. -/
inductive Arises (opts : CrawlOpts) (sync preserveAtime : Bool) : Work → Prop
  | root (src dst : FDRCRef) : Arises opts sync preserveAtime (.dir "." none src dst)
  | start {w w' : Work} {env : Sys.Environment} {e : Sys.Event} :
      Arises opts sync preserveAtime w →
      (∀ e ∈ w.trace opts sync preserveAtime env, Ordinary e) →
      e ∈ w.trace opts sync preserveAtime env → Starts e.1 w' →
      Arises opts sync preserveAtime w'

def Work.Good (hash : String → UInt64) : Work → Prop
  | .dir path _ _ _ => Spelled path
  | .nonDir path _ _ => Below path
  | .finish job => Named hash job

theorem Work.Good.safe {w : Work} {sync preserveAtime : Bool} {env : Sys.Environment}
    (h : w.Good hash)
    (hR : ∀ e ∈ w.trace (hashedOpts hash minBlockSize maxBlockSize) sync preserveAtime env,
      Ordinary e) :
    ∀ e ∈ w.trace (hashedOpts hash minBlockSize maxBlockSize) sync preserveAtime env,
      Safe hash e.1 := by
  cases w with
  | dir path dev src dst =>
    exact fun e he => ((processDir_safe h).run hR e he).resolve_left List.not_mem_nil
  | nonDir path src dst =>
    exact fun e he => (processNonDir_safe h).run_calls e he
  | finish job => exact fun e he => (finishProcessorOne_safe h).run_calls e he

theorem Starts.good {c : Call} {w : Work} (hc : Starts c w) (h : Safe hash c) : w.Good hash := by
  cases hc with
  | processDir => exact .inr h
  | processNonDir => exact h
  | transfer hremote htmp hdot =>
    obtain ⟨path, hr, hnames⟩ := h
    refine ⟨path, hremote.trans hr, ?_⟩
    rw [htmp, hdot]
    exact hnames
  | finish => exact h
  | lastReference => exact ⟨_, rfl, .inl ⟨rfl, rfl, h⟩⟩

/-- Whatever the calls of all tasks and jobs are answered: as long as directory streams have
proper names and probes find the directory itself and its parent, every name handed to a system
call is a single component that stays in its directory, and every path that is removed, linked
or handed on spells an entry below the root. -/
theorem names_confined {w : Work} {sync preserveAtime : Bool} {env : Sys.Environment}
    (h : Arises (hashedOpts hash minBlockSize maxBlockSize) sync preserveAtime w)
    (hR : ∀ e ∈ w.trace (hashedOpts hash minBlockSize maxBlockSize) sync preserveAtime env,
      Ordinary e) :
    ∀ e ∈ w.trace (hashedOpts hash minBlockSize maxBlockSize) sync preserveAtime env,
      Safe hash e.1 := by
  have hgood : w.Good hash := by
    clear hR
    induction h with
    | root src dst => exact .inl rfl
    | start _ hord he hstarts ih => exact hstarts.good (ih.safe hord _ he)
  exact hgood.safe hR

def sampleEnv : Sys.Environment
  | _, .readdir _ => ([⟨"a", false⟩] : List Dirent)
  | _, c => c.succeed {}

theorem sampleEnv_ordinary (past : List Sys.Event) (c : Call) :
    Ordinary ⟨c, sampleEnv past c⟩ := by
  cases c with
  | readdir fd =>
    refine ⟨fun entries he d hd => ?_, fun name he => ?_⟩
    · cases he
      rw [List.mem_singleton.mp hd]
      exact ⟨by decide, by decide⟩
    · cases he
  | _ =>
    refine ⟨fun entries he => ?_, fun name he => ?_⟩
    · cases he
    · cases he

theorem names_confined_sample :
    Arises (hashedOpts (fun _ => 0) 0 0) false false (.nonDir (Crawl.child "." "a") 0 0) ∧
      ∀ e ∈ (Work.nonDir (Crawl.child "." "a") 0 0).trace (hashedOpts (fun _ => 0) 0 0) false
        false sampleEnv, Safe (fun _ => 0) e.1 := by
  have hord : ∀ w : Work, ∀ e ∈ w.trace (hashedOpts (fun _ => 0) 0 0) false false sampleEnv,
      Ordinary e := by
    intro w e he
    cases w with
    | dir path dev src dst =>
      exact (Prog.run_kept sampleEnv_ordinary e he).resolve_left List.not_mem_nil
    | nonDir path src dst =>
      exact (Prog.run_kept sampleEnv_ordinary e he).resolve_left List.not_mem_nil
    | finish job => exact (Prog.run_kept sampleEnv_ordinary e he).resolve_left List.not_mem_nil
  have hstarted : (⟨.taskProcessNonDir (Crawl.child "." "a") (0, 0) 0 0, ()⟩ : Sys.Event) ∈
      (Work.dir "." none 1 2).trace (hashedOpts (fun _ => 0) 0 0) false false sampleEnv := by
    exact List.mem_of_getElem? (i := 13) rfl
  have harises := Arises.start (.root 1 2) (hord _) hstarted .processNonDir
  exact ⟨harises, names_confined harises (hord _)⟩

end Copy2.Crawl.Confined
