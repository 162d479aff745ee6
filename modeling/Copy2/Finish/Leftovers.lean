import Copy2.Crawl.ProcessNonDir
import Copy2.Finish.Processor
import Copy2.Lib.Protocol

/-! # What becomes of a temporary file

`processNonDir` makes it, and unless the entry needs no job, a finish processor renames or
removes it. Between the two the schedulers change nothing of the job but its counters. -/
namespace Copy2.Finish.Leftovers
open FileJob Lib Os Crawl

/-- The temporary entries that are there, whether the hard-link table has called the entry a first
look, and the job that has been queued for it. -/
structure Entry where
  left : Finset (FDRCRef × String) := ∅
  firstLook : Bool := true
  job : Option FileCopyJob := none

namespace Entry

/-- A call that fails changes nothing; in particular an `openat` with `O_CREAT` that does not
return a descriptor has made no file. An entry that is renamed to the final name is no longer
temporary. -/
def step (final : String) (x : Entry) : Sys.Event → Entry
  | ⟨.openat dir name flags _, .ok _⟩ =>
    if .creat ∈ flags then { x with left := insert (dir, name) x.left } else x
  | ⟨.symlinkat _ dir name, .ok _⟩ => { x with left := insert (dir, name) x.left }
  | ⟨.unlinkat dir name, .ok _⟩ => { x with left := x.left.erase (dir, name) }
  | ⟨.renameat dir old new, .ok _⟩ =>
    let left := x.left.erase (dir, old)
    { x with left := if new = final then left else insert (dir, new) left }
  | ⟨.hlinkStateRegisterLinkRoot .., out⟩ => { x with firstLook := out.firstLook }
  | ⟨.enqueueJob job, _⟩ => { x with job := some job }
  | ⟨.enqueueFinish job, _⟩ => { x with job := some job }
  | _ => x

/-- A temporary entry that is there can be unlinked. -/
def ok (x : Entry) : Sys.Event → Prop
  | ⟨.unlinkat dir name, r⟩ => (dir, name) ∈ x.left → r = .ok ()
  | _ => True

/-- Between the crawl and the finish processor: the counters of the job are the schedulers'. -/
structure Scheduled (job job' : FileCopyJob) : Prop where
  remote : job'.remote = job.remote
  partialRef : job'.partialRef = job.partialRef
  dstDirFD : job'.dstDirFD = job.dstDirFD
  isDot : job'.isDot = job.isDot

/-- Nothing is left when the entry has been processed: by the crawl alone, or by a finish
processor, whatever has become of its job. -/
def Clean (preserveAtime : Bool) (final : String) (x : Entry) : Prop :=
  match x.job with
  | none => x.left = ∅
  | some job => ∀ job', Scheduled job job' →
    (finishProcessorOne preserveAtime job').Every fun _ l =>
      Protocol.Consistent (step final) ok x l → (l.foldl (step final) x).left = ∅

/-- The new file can be given its size, and a symbolic link is made only on a first look. -/
def HandsOver (x : Entry) : Sys.Event → Prop
  | ⟨.ftruncate .., .error _⟩ => False
  | ⟨.symlinkat .., .ok _⟩ => x.firstLook = true
  | _ => True

end Entry

def Neutral : Call → Prop
  | .openat .. | .symlinkat .. | .unlinkat .. | .renameat .. | .hlinkStateRegisterLinkRoot ..
  | .enqueueJob _ | .enqueueFinish _ => False
  | _ => True

theorem Entry.step_neutral {final : String} {c : Call} (hc : Neutral c) (x : Entry)
    (r : c.Answer) : x.step final ⟨c, r⟩ = x := by
  cases c with
  | openat | symlinkat | unlinkat | renameat | hlinkStateRegisterLinkRoot | enqueueJob
  | enqueueFinish => exact hc.elim
  | _ => rfl

def partials (job : FileCopyJob) : Finset (FDRCRef × String) :=
  if job.partialRef.isSome then {(job.dstDirFD, dstFileName job)} else ∅

section Finish
variable {α : Type} {preserveAtime : Bool} {final : String} {job : FileCopyJob} {x : Entry}
  {Q : α → Entry → Prop} {p : Prog Sys α} {b : Prop}

abbrev Leaves (final : String) (Q : α → Entry → Prop) (p : Prog Sys α) (b : Prop) (x : Entry) :
    Prop :=
  p.Judged (Entry.step final) Entry.ok (fun _ _ => True) (fun a _ x => Q a x) b x

theorem Leaves.of_neutral {R : α → Prop} (hp : p.Ensures Neutral R) :
    Leaves final (fun a x' => R a ∧ x' = x) p b x :=
  (hp.judged fun _ r hc => ⟨trivial, x.step_neutral hc r⟩).mono fun _ _ _ h => ⟨h.1, h.2.2⟩

theorem neutral_of_closes (c : Call) (hc : Closes c) : Neutral c := by
  cases c with
  | close | ftruncate => trivial
  | _ => exact hc.elim

/-- What a job may leave when it has been published or given up. -/
def Disposed (job : FileCopyJob) (out : Outcome) (x : Entry) : Prop :=
  x.left ⊆ partials job ∧ (out.partialDeleted = true → x.left = ∅)

/-- After the renaming nothing happens to temporary entries. -/
theorem failed_neutral {wanted : Bool} {q : Prog Sys (Except Errno Unit)} {out : Outcome}
    {rest : Prog Sys Outcome} (hq : q.Ensures Neutral fun _ => True)
    (hout : out.partialDeleted = true)
    (hrest : rest.Ensures Neutral fun out => out.partialDeleted = true) :
    (failed wanted q >>= fun bad => if bad then .ret out else rest).Ensures Neutral
      fun out => out.partialDeleted = true := by
  refine (failed_ensures fun _ => hq).bind fun bad _ => ?_
  split
  · exact hout
  · exact hrest

theorem rename_leaves {name : String} {rest : Prog Sys Outcome} (hname : name = final)
    (h : x.left ⊆ partials job)
    (hrest : rest.Ensures Neutral fun out => out.partialDeleted = true) :
    Leaves final (Disposed job) (failed job.partialRef.isSome
        (sys (.renameat job.dstDirFD (dstFileName job) name)) >>= fun bad =>
      if bad then .ret ⟨false, false⟩ else rest) b x := by
  have hgone : ∀ b (x : Entry), x.left = ∅ → Leaves final (Disposed job) rest b x := by
    intro b x hx
    refine (Leaves.of_neutral hrest).mono fun out _ y hy => ?_
    rw [Disposed, hy.2, hx]
    exact ⟨Finset.empty_subset _, fun _ => rfl⟩
  cases hsome : job.partialRef.isSome with
  | true =>
    intro (result : Except Errno Unit) _
    cases result with
    | error e => exact ⟨h, nofun⟩
    | ok u =>
      refine hgone _ _ ?_
      rw [partials, if_pos hsome] at h
      change (if name = final then x.left.erase _ else insert _ (x.left.erase _)) = ∅
      rw [if_pos hname]
      exact Finset.subset_empty.mp ((Finset.erase_subset_erase _ h).trans (by simp))
  | false =>
    rw [partials, if_neg (by simp [hsome])] at h
    exact hgone _ _ (Finset.subset_empty.mp h)

theorem publish_leaves {destStx : Statx} (hname : dstRemoteName job = final)
    (h : x.left ⊆ partials job) :
    Leaves final (Disposed job) (publish preserveAtime job destStx) b x := by
  refine (Leaves.of_neutral (onlyIf_ensures fun _ => ?_)).bind ?_
  · exact And.intro trivial fun _ => trivial
  rintro _ _ _ ⟨-, rfl⟩
  refine rename_leaves hname h ?_
  refine failed_neutral (And.intro trivial fun _ => trivial) rfl ?_
  refine failed_neutral (And.intro trivial fun _ => trivial) rfl ?_
  refine failed_neutral (And.intro trivial fun _ => trivial) rfl ?_
  split
  · exact And.intro trivial fun _ => And.intro trivial fun _ => rfl
  · exact rfl

theorem checkAndPublish_leaves (hname : dstRemoteName job = final) (h : x.left ⊆ partials job) :
    Leaves final (Disposed job) (checkAndPublish preserveAtime job) b x := by
  refine Prog.Judged.pass fun r _ => ⟨trivial, ?_⟩
  cases r with
  | error e => exact ⟨h, nofun⟩
  | ok destStx =>
    change Leaves final _ (ite _ _ _) b x
    split
    · exact ⟨h, nofun⟩
    · split
      · exact ⟨h, nofun⟩
      · refine (publish_leaves hname h).bind fun out _ x' hout => ?_
        refine (Leaves.of_neutral (onlyIf_ensures fun _ => ?_)).bind fun _ _ _ hx => ?_
        · exact And.intro trivial fun _ => trivial
        · exact hx.2 ▸ hout

/-- When the job is done its temporary entry is gone. -/
theorem finishProcessorOne_leaves (hname : dstRemoteName job = final)
    (h : x.left ⊆ partials job) :
    Leaves final (fun _ x' => x'.left = ∅) (finishProcessorOne preserveAtime job) b x := by
  refine (Leaves.of_neutral ((closeFiles_ensures job).weaken neutral_of_closes)).bind ?_
  rintro job' _ _ ⟨⟨e, hjob⟩, rfl⟩
  have hname' : dstRemoteName job' = final := hjob ▸ hname
  have hpartials : partials job' = partials job := hjob ▸ rfl
  refine (checkAndPublish_leaves hname' (hpartials ▸ h)).bind fun out b x' hout => ?_
  have hneutral : Prog.Ensures Neutral (fun _ => True) (do
      sys (.addFinished 1)
      sys (.releaseDir job'.dstDirFD)
      sys (.releasePath job'.partialRef)
      sys (.releasePath job'.remote)) := And.intro trivial fun _ => And.intro trivial fun _ =>
    And.intro trivial fun _ => And.intro trivial fun _ => trivial
  have hend : ∀ b x', x'.left = ∅ → Leaves final (fun _ x' => x'.left = ∅) _ b x' :=
    fun b x' hx => (Leaves.of_neutral hneutral).mono fun _ _ _ hx' => hx'.2 ▸ hx
  obtain ⟨hleft, hdeleted⟩ := hout
  change Leaves final _ (failed _ _ >>= fun _ => _) b x'
  cases hwanted : !out.partialDeleted && job'.partialRef.isSome with
  | true =>
    have hsome : job'.partialRef.isSome = true := by simp_all
    rw [partials, if_pos hsome] at hleft
    intro (result : Except Errno Unit) hresult
    cases result with
    | ok u =>
      refine hend _ _ (Finset.subset_empty.mp ?_)
      exact (Finset.erase_subset_erase _ hleft).trans (by simp)
    | error e =>
      refine hend _ _ (Finset.eq_empty_of_forall_notMem fun entry hentry => ?_)
      obtain rfl := Finset.mem_singleton.mp (hleft hentry)
      exact absurd (hresult hentry) nofun
  | false =>
    refine hend _ _ ?_
    by_cases hsome : job'.partialRef.isSome = true
    · exact hdeleted (by simpa [hsome] using hwanted)
    · rw [partials, if_neg hsome] at hleft
      exact Finset.subset_empty.mp hleft

/-- A queued job disposes of the only entry there can be. -/
theorem clean_of_job (hjob : x.job = some job) (hname : dstRemoteName job = final)
    (h : x.left ⊆ partials job) : x.Clean preserveAtime final := by
  rw [Entry.Clean, hjob]
  intro job' hs
  have hname' : dstRemoteName job' = final := by
    rw [← hname, dstRemoteName, dstRemoteName, hs.isDot, hs.remote]
  have hpartials : partials job' = partials job := by
    rw [partials, partials, hs.partialRef, hs.dstDirFD, dstFileName, dstFileName, hs.isDot,
      hs.partialRef, hs.remote]
  exact (finishProcessorOne_leaves hname' (hpartials ▸ h)).every

end Finish

section Crawl
variable {α : Type} {preserveAtime : Bool} {opts : CrawlOpts} {path tmp : String}
  {src dst : FDRCRef} {x : Entry} {b : Prop} {l : Looked} {Q : α → Prop → Entry → Prop}

abbrev Hands (path : String) (Q : α → Prop → Entry → Prop) (p : Prog Sys α) (b : Prop)
    (x : Entry) : Prop :=
  p.Judged (Entry.step (baseName path)) Entry.ok Entry.HandsOver Q b x

theorem Hands.neutral {p : Prog Sys α} {R : α → Prop} (hp : p.Ensures Neutral R)
    (hgood : ∀ c r, Neutral c → x.HandsOver ⟨c, r⟩) :
    Hands path (fun a b' x' => R a ∧ b' = b ∧ x' = x) p b x :=
  hp.judged fun c r hc => ⟨hgood c r hc, x.step_neutral hc r⟩

structure Fresh (firstLook : Bool) (b : Prop) (x : Entry) : Prop where
  left : x.left = ∅
  job : x.job = none
  first : x.firstLook = firstLook
  good : b

theorem Fresh.clean {firstLook : Bool} (h : Fresh firstLook b x) :
    x.Clean preserveAtime (baseName path) ↔ b := by
  refine iff_of_true ?_ h.good
  rw [Entry.Clean, h.job]
  exact h.left

def Examined : Option Looked → Prop → Entry → Prop
  | none, b, x => Fresh x.firstLook b x
  | some l, b, x => Fresh l.isFirstLook b x ∧ (l.shouldTransfer = true → l.isPendingHardlink = false)

theorem examine_hands (h : Fresh true b x) : Hands path Examined (examine path src dst) b x := by
  have hseen : ∀ stx destStx destExists, Hands path Examined
      (examine.seen path dst stx destStx destExists) b x := by
    intro stx destStx destExists
    refine Prog.Judged.pass fun _ _ => ⟨trivial, ?_⟩
    have hregister : Hands path (fun l => Examined (some l))
        (registerLinks path dst stx destStx destExists) b x := by
      rw [registerLinks]
      split
      · refine Prog.Judged.pass fun out _ => ⟨trivial, ⟨h.left, h.job, rfl, h.good⟩, fun ht => ?_⟩
        simp_all
      · exact ⟨h, fun _ => rfl⟩
    refine hregister.bind fun l b x hl => ?_
    cases isReg stx.stx_mode with
    | true => exact Prog.Judged.pass fun _ _ => ⟨trivial, hl⟩
    | false => exact hl
  refine Prog.Judged.pass fun r _ => ⟨trivial, ?_⟩
  cases r with
  | error e => exact ⟨h.left, h.job, rfl, h.good⟩
  | ok stx =>
    refine Prog.Judged.pass fun r _ => ⟨trivial, ?_⟩
    cases r with
    | ok destStx => exact hseen stx destStx true
    | error e =>
      change Hands path _ (ite _ _ _) b x
      split
      · exact hseen stx {} false
      · exact ⟨h.left, h.job, rfl, h.good⟩

/-- A temporary entry that nobody has been told of stays. -/
theorem not_clean {final : String} {e : FDRCRef × String} (hleft : e ∈ x.left)
    (hjob : x.job = none) : ¬ x.Clean preserveAtime final := by
  rw [Entry.Clean, hjob]
  exact fun hempty => Finset.notMem_empty e (hempty ▸ hleft)

/-- The verdict on an entry, when `processNonDir` has handed it over. -/
def Handed (preserveAtime : Bool) (path : String) (b : Prop) (x : Entry) : Prop :=
  x.Clean preserveAtime (baseName path) ↔ b

theorem enqueueFinish_hands (partialRef : StringPartRef)
    (h : x.left ⊆ partials (newJob path partialRef dst l)) (hb : b) :
    Hands path (fun _ => Handed preserveAtime path) (enqueueFinish path partialRef dst l) b x := by
  refine Prog.Judged.pass fun _ _ => ⟨trivial, ?_⟩
  refine Prog.Judged.pass fun _ _ => ⟨trivial, ?_⟩
  exact iff_of_true (clean_of_job (by exact (rfl : _ = some (newJob path partialRef dst l))) rfl h) hb

/-- A file that cannot be given its size stays where it is. -/
theorem transferFile_hands (h : Fresh l.isFirstLook b x) :
    Hands path (fun _ => Handed preserveAtime path) (transferFile opts path tmp src dst l) b x := by
  refine Prog.Judged.pass fun result _ => ⟨trivial, ?_⟩
  cases result with
  | error e => exact h.clean
  | ok srcFd =>
    refine Prog.Judged.pass fun result _ => ⟨trivial, ?_⟩
    cases result with
    | error e => exact Prog.Judged.pass fun _ _ => ⟨trivial, h.clean⟩
    | ok dstFd =>
      intro (result : Except Errno Unit) _
      cases result with
      | error e =>
        intro _ _ _ _
        refine iff_of_false (not_clean (e := (dst, baseName tmp)) ?_ h.job) fun hall => hall.1.1.2
        exact Finset.mem_insert_self _ _
      | ok u =>
        refine Prog.Judged.pass fun _ _ => ⟨trivial, ?_⟩
        refine Prog.Judged.pass fun _ _ => ⟨trivial, ?_⟩
        refine Prog.Judged.pass fun _ _ => ⟨trivial, ?_⟩
        refine iff_of_true (clean_of_job rfl rfl ?_) ⟨h.good, trivial⟩
        change insert (dst, baseName tmp) x.left ⊆ {(dst, baseName tmp)}
        rw [h.left]
        rfl

theorem transferSymlink_hands (h : Fresh l.isFirstLook b x)
    (hpending : l.isPendingHardlink = false) :
    Hands path (fun _ => Handed preserveAtime path) (transferSymlink path tmp src dst l) b x := by
  refine Prog.Judged.pass fun result _ => ⟨trivial, ?_⟩
  cases result with
  | error e => exact h.clean
  | ok contents =>
    intro (result : Except Errno Unit) _
    cases result with
    | error e => exact h.clean.trans (and_iff_left trivial).symm
    | ok u =>
      have hleft : (x.step (baseName path) ⟨.symlinkat contents dst (baseName tmp), .ok ()⟩).left =
          {(dst, baseName tmp)} := by
        change insert (dst, baseName tmp) x.left = _
        rw [h.left]
        rfl
      change Hands path _ (onlyIf _ _ >>= fun _ => _) (b ∧ x.firstLook = true) _
      rw [hpending, h.first]
      cases l.isFirstLook with
      | true =>
        exact (enqueueFinish_hands (some tmp) hleft.subset ⟨h.good, rfl⟩).bind
          fun _ _ _ h => h
      | false =>
        refine iff_of_false (not_clean (e := (dst, baseName tmp)) ?_ h.job) fun hall => ?_
        · exact Finset.mem_insert_self _ _
        · exact absurd hall.2 (by simp)

theorem handOver_hands (h : Fresh l.isFirstLook b x)
    (hpending : l.shouldTransfer = true → l.isPendingHardlink = false) :
    Hands path (fun _ => Handed preserveAtime path) (handOver opts path src dst l) b x := by
  rw [handOver]
  split
  · rename_i htransfer
    refine Prog.Judged.pass fun result _ => ⟨trivial, ?_⟩
    have hfresh : Fresh l.isFirstLook b (x.step (baseName path)
        ⟨.unlinkat dst (baseName (path ++ opts.suffix path)), result⟩) := by
      cases result with
      | error e => exact h
      | ok u => exact ⟨by simp [Entry.step, h.left], h.job, h.first, h.good⟩
    change Hands path _ (ite _ _ _) b _
    split
    · exact transferFile_hands hfresh
    · split
      · exact transferSymlink_hands hfresh (hpending htransfer)
      · exact hfresh.clean
  · cases l.isPendingHardlink with
    | true => exact h.clean
    | false =>
      cases hfirst : l.isFirstLook with
      | true =>
        refine (enqueueFinish_hands none ?_ h.good).bind fun _ _ _ h => h
        rw [h.left]
        exact Finset.empty_subset _
      | false =>
        exact Prog.Judged.pass fun _ _ => ⟨trivial, h.clean⟩

end Crawl

/-- Whatever the table and the calls answer, as long as unlinking works: nothing temporary is
left of an entry when it has been processed, exactly if the new file, when there is one, could
be given its size, and no symbolic link was made that is not a first look. -/
theorem temporary_disposed_iff (opts : CrawlOpts) (preserveAtime : Bool) (path : String)
    (src dst : FDRCRef) :
    (processNonDir opts path src dst).Every fun _ l =>
      Protocol.Consistent (Entry.step (baseName path)) Entry.ok {} l →
        ((l.foldl (Entry.step (baseName path)) {}).Clean preserveAtime (baseName path) ↔
          Protocol.Consistent (Entry.step (baseName path)) Entry.HandsOver {} l) := by
  have hbody : Hands path (fun _ => Handed preserveAtime path)
      (processNonDir.processNonDirBody opts path src dst) True {} := by
    refine (examine_hands ⟨rfl, rfl, rfl, trivial⟩).bind fun looked b x h => ?_
    cases looked with
    | none => exact h.clean
    | some l => exact handOver_hands h.1 h.2
  refine Prog.Judged.every (U := fun _ => Handed preserveAtime path) ?_
  refine hbody.bind fun ret b x h => ?_
  refine Prog.Judged.pass fun _ _ => ⟨trivial, ?_⟩
  refine Prog.Judged.pass fun _ _ => ⟨trivial, ?_⟩
  refine Prog.Judged.pass fun _ _ => ⟨trivial, ?_⟩
  exact Prog.Judged.pass fun _ _ => ⟨trivial, h⟩

def sampleRun (answer : (c : Call) → c.Answer) : ℤ × List Sys.Event :=
  (processNonDir ⟨4096, 4096, fun _ => ".partial"⟩ "f" 1 2).run (fun _ => answer) []

def newFile : (c : Call) → c.Answer
  | .statx dir _ => if dir = 1 then .ok { stx_mode := 0o100644, stx_nlink := 1 } else .error enoent
  | c => c.succeed {}

/-- The temporary file is made, and the finish processor disposes of it. -/
theorem temporary_disposed_sample :
    ((sampleRun newFile).2.foldl (Entry.step (baseName "f")) {}).left = {(2, "f.partial")} ∧
      ((sampleRun newFile).2.foldl (Entry.step (baseName "f")) {}).Clean false (baseName "f") := by
  refine ⟨by decide +kernel, ((temporary_disposed_iff _ false "f" 1 2).run_nil ?_).mpr ?_⟩
  · exact ⟨trivial, trivial, trivial, trivial, fun _ => rfl, trivial, trivial, trivial, trivial,
      trivial, trivial, trivial, trivial, trivial, trivial, trivial⟩
  · repeat constructor

/-- A new regular file on a destination that is full. -/
def fullDisk : (c : Call) → c.Answer
  | .statx dir _ => if dir = 1 then .ok { stx_mode := 0o100644, stx_nlink := 1 } else .error enoent
  | .ftruncate .. => .error 28
  | c => c.succeed {}

/-- A symbolic link with two names, of which the table has seen another one. -/
def secondLook : (c : Call) → c.Answer
  | .statx dir _ => .ok { stx_mode := 0o120777, stx_nlink := 2, stx_mtime := ⟨dir, 0⟩ }
  | .hlinkStateRegisterLinkRoot .. => (⟨true, false, false⟩ : LinkOutcome)
  | c => c.succeed {}

/-- The temporary files of both are left behind. -/
theorem partials_stay :
    (Protocol.Consistent (Entry.step "f") Entry.ok {} (sampleRun fullDisk).2 ∧
      ¬ ((sampleRun fullDisk).2.foldl (Entry.step "f") {}).Clean false "f") ∧
    Protocol.Consistent (Entry.step "f") Entry.ok {} (sampleRun secondLook).2 ∧
      ¬ ((sampleRun secondLook).2.foldl (Entry.step "f") {}).Clean false "f" := by
  refine ⟨⟨?_, ?_⟩, ?_, ?_⟩
  · exact ⟨trivial, trivial, trivial, trivial, fun _ => rfl, trivial, trivial, trivial, trivial,
      trivial, trivial, trivial, trivial, trivial, trivial⟩
  · exact not_clean (e := (2, "f.partial")) (by decide) rfl
  · exact ⟨trivial, trivial, trivial, trivial, fun _ => rfl, trivial, trivial, trivial, trivial,
      trivial, trivial, trivial⟩
  · exact not_clean (e := (2, "f.partial")) (by decide) rfl

end Copy2.Finish.Leftovers
