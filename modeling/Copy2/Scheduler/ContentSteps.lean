import Copy2.Scheduler.Content

/-! # What a scheduler does to the content of its files

A scheduler keeps its own files and buffers in order, and guarantees that it touches
nobody else's: not a buffer it does not own, and no file but the destinations of its
active jobs. -/
namespace Copy2.Scheduler
open FileJob Lib

variable {nFile nBlock : ℕ}

namespace SharedState
variable {sh sh' : SharedState} {data : Option Ptr} {lo hi : ℕ} {v : ℕ → UInt8}

theorem store_load (hdata : data.isSome = true) (i : ℕ) :
    (sh.store data lo hi v).load data i = if lo ≤ i ∧ i < hi then v i else sh.load data i := by
  obtain ⟨p, rfl⟩ := Option.isSome_iff_exists.mp hdata
  simp [store, load]

theorem store_files : (sh.store data lo hi v).files = sh.files := by cases data <;> rfl

theorem store_allocated : (sh.store data lo hi v).allocated = sh.allocated := by cases data <;> rfl

theorem store_memory {q : Ptr} (hq : data ≠ some q) :
    (sh.store data lo hi v).memory q = sh.memory q := by
  cases data with
  | none => rfl
  | some p =>
    have hqp : q ≠ p := fun he => hq (by rw [he])
    simp [store, hqp]

theorem load_congr (h : ∀ q, data = some q → sh'.memory q = sh.memory q) (i : ℕ) :
    sh'.load data i = sh.load data i := by
  cases data with
  | none => rfl
  | some p => simp [load, h p rfl]

end SharedState

section Memset
variable {sh : SharedState} {job : FileCopyJob} {m hi : ℕ} {data : Option Ptr}

/-- Padding the buffer leaves the block in it. -/
theorem Loaded.memset (h : Loaded sh job m data) (hdata : data.isSome = true) :
    Loaded (sh.memset data (blockLength job m) hi) job m data := by
  intro i hlt
  rw [SharedState.memset, SharedState.store_load hdata, if_neg (by omega), SharedState.store_files]
  exact h i hlt

theorem Loaded.of_store {v : ℕ → UInt8} (hdata : data.isSome = true)
    (hv : ∀ i < blockLength job m, v i = (sh.files job.srcFd).byte (blockOffset job m + i)) :
    Loaded (sh.store data 0 (blockLength job m) v) job m data := by
  intro i hi
  rw [SharedState.store_load hdata, if_pos ⟨Nat.zero_le i, hi⟩, SharedState.store_files]
  exact hv i hi

theorem Padded.memset (hdata : data.isSome = true) :
    Padded (sh.memset data (blockLength job m) (writeLength job m)) job m data := by
  intro i h₁ h₂
  rw [SharedState.memset, SharedState.store_load hdata, if_pos ⟨h₁, h₂⟩]

end Memset

namespace CopyScheduler
variable (d : CopyScheduler nFile nBlock)

def row (f : Fin nFile) : Fin nBlock → BlockCopyJob nFile := fun j => d.blockCopyJobs (f, j)

def data (s : Slot nFile nBlock) : Option Ptr := (d.blockCopyJobs s).data

variable {d} {s : Slot nFile nBlock} {b : BlockCopyJob nFile}

@[simp] theorem row_setFile {f : Fin nFile} {job : FileCopyJob} :
    (d.setFile f job).row = d.row := rfl

@[simp] theorem data_setFile {f : Fin nFile} {job : FileCopyJob} :
    (d.setFile f job).data = d.data := rfl

theorem row_setBlock_self : (d.setBlock s b).row s.1 = Function.update (d.row s.1) s.2 b := by
  funext j
  obtain ⟨f, i⟩ := s
  by_cases hj : j = i
  · simp [row, hj]
  · simp [row, hj]

theorem row_setBlock_of_ne {f : Fin nFile} (hf : f ≠ s.1) : (d.setBlock s b).row f = d.row f := by
  funext j
  have hne : (f, j) ≠ s := fun he => hf (by rw [← he])
  simp [row, hne]

theorem data_setBlock : (d.setBlock s b).data = Function.update d.data s b.data := by
  funext t
  by_cases ht : t = s
  · simp [data, ht]
  · simp [data, ht]

end CopyScheduler

def Separate (d : CopyScheduler nFile nBlock) : Prop :=
  ∀ f g, (d.fileCopyJobs f).active = true → (d.fileCopyJobs g).active = true → f ≠ g →
    (d.fileCopyJobs f).dstFd ≠ (d.fileCopyJobs g).dstFd ∧
    (d.fileCopyJobs f).dstFd ≠ (d.fileCopyJobs g).srcFd

structure SchedContent (cfg : Config) (st : State nFile nBlock) : Prop where
  own : Owns st.sched.data st.shared.allocated
  idle : ∀ s, (st.sched.blockCopyJobs s).inUse = false → st.sched.data s = none
  job : ∀ f, (st.sched.fileCopyJobs f).active = true →
    JobContent cfg st.shared (st.sched.fileCopyJobs f) (st.sched.row f)

structure Guarantee (st st' : State nFile nBlock) : Prop where
  memory : ∀ q, st.shared.allocated q = true → (∀ s, st.sched.data s ≠ some q) →
    st'.shared.memory q = st.shared.memory q ∧ st'.shared.allocated q = true
  fresh : ∀ s q, st'.sched.data s = some q →
    (∃ s', st.sched.data s' = some q) ∨ st.shared.allocated q = false
  files : ∀ fd, (∀ f, (st.sched.fileCopyJobs f).active = true →
    fd ≠ (st.sched.fileCopyJobs f).dstFd) → st'.shared.files fd = st.shared.files fd

def Advances (cfg : Config) (st st' : State nFile nBlock) : Prop :=
  SchedContent cfg st' ∧ Guarantee st st'

/-- Batches and histories do not matter to the content. -/
theorem Advances.congr {cfg : Config} {st : State nFile nBlock} {d d' : CopyScheduler nFile nBlock}
    {sh' : SharedState} (h : Advances cfg st ⟨d, sh'⟩) (hf : d'.fileCopyJobs = d.fileCopyJobs)
    (hb : d'.blockCopyJobs = d.blockCopyJobs) : Advances cfg st ⟨d', sh'⟩ := by
  obtain ⟨files, blocks, batch, held, hist, asserts⟩ := d
  obtain ⟨files', blocks', batch', held', hist', asserts'⟩ := d'
  obtain rfl : files' = files := hf
  obtain rfl : blocks' = blocks := hb
  obtain ⟨⟨h₁, h₂, h₃⟩, ⟨h₄, h₅, h₆⟩⟩ := h
  exact ⟨⟨h₁, h₂, h₃⟩, ⟨h₄, h₅, h₆⟩⟩

namespace SchedContent
variable {cfg : Config} {st : State nFile nBlock} {s : Slot nFile nBlock}
  {b : BlockCopyJob nFile} {sh' : SharedState} {m : ℕ}

theorem refl (h : SchedContent cfg st) : Advances cfg st st :=
  ⟨h, fun _ hq _ => ⟨rfl, hq⟩, fun s _ hq => .inl ⟨s, hq⟩, fun _ _ => rfl⟩

/-- A slot that works on block `m` moves to another stage. -/
theorem stage (h : SchedContent cfg st) (hsep : Separate st.sched)
    (hactive : (st.sched.fileCopyJobs s.1).active = true)
    (huse : (st.sched.blockCopyJobs s).inUse = true)
    (hm : (st.sched.blockCopyJobs s).jobno = m) (hb : b.inUse = true)
    (hdata : b.data = st.sched.data s)
    (hslot : SlotContent cfg sh' (st.sched.fileCopyJobs s.1) m b)
    (hfiles : ∀ fd ≠ (st.sched.fileCopyJobs s.1).dstFd, sh'.files fd = st.shared.files fd)
    (hdst : ∀ m' ≠ m, ∀ i < blockLength (st.sched.fileCopyJobs s.1) m',
      (sh'.files (st.sched.fileCopyJobs s.1).dstFd).byte
          (blockOffset (st.sched.fileCopyJobs s.1) m' + i) =
        (st.shared.files (st.sched.fileCopyJobs s.1).dstFd).byte
          (blockOffset (st.sched.fileCopyJobs s.1) m' + i))
    (hmem : ∀ q, st.sched.data s ≠ some q → sh'.memory q = st.shared.memory q)
    (halloc : sh'.allocated = st.shared.allocated) :
    Advances cfg st ⟨st.sched.setBlock s b, sh'⟩ := by
  have hsame : (st.sched.setBlock s b).data = st.sched.data := by
    rw [CopyScheduler.data_setBlock, hdata, Function.update_eq_self]
  have hload : ∀ t ≠ s, ∀ i, sh'.load (st.sched.data t) i = st.shared.load (st.sched.data t) i :=
    fun t ht => SharedState.load_congr fun q hq => hmem q (h.own.ne_of_ne ht hq)
  refine ⟨⟨?_, ?_, ?_⟩, ⟨?_, ?_, ?_⟩⟩
  · rw [hsame, halloc]
    exact h.own
  · intro t ht
    rw [hsame]
    by_cases hts : t = s
    · subst hts
      simp [hb] at ht
    · exact h.idle t (by simpa [hts] using ht)
  · intro f hf
    by_cases hfs : f = s.1
    · subst hfs
      rw [CopyScheduler.row_setBlock_self]
      refine (h.job s.1 hactive).stage huse hm hb hslot
        (hfiles _ (h.job s.1 hactive).distinct) hdst fun j' hj' _ => ?_
      exact hload (s.1, j') fun he => hj' (by rw [← he])
    · have hne := hsep s.1 f hactive hf (Ne.symm hfs)
      rw [CopyScheduler.row_setBlock_of_ne hfs]
      refine (h.job f hf).frame (hfiles _ hne.2.symm) (hfiles _ hne.1.symm) fun j' _ => ?_
      exact hload (f, j') fun he => hfs (by rw [← he])
  · intro q hq hno
    exact ⟨hmem q (hno s), by rwa [halloc]⟩
  · intro t q hq
    exact .inl ⟨t, by rwa [← hsame]⟩
  · exact fun fd hfd => hfiles fd (hfd s.1 hactive)

theorem readFinished (h : SchedContent cfg st) (hbook : Bookkeeping st.sched)
    (hsep : Separate st.sched) (hactive : (st.sched.fileCopyJobs s.1).active = true)
    (huse : (st.sched.blockCopyJobs s).inUse = true)
    (hslot : SlotContent cfg st.shared (st.sched.fileCopyJobs s.1) m (st.sched.blockCopyJobs s))
    (hloaded : Loaded st.shared (st.sched.fileCopyJobs s.1) m (st.sched.data s))
    (hblank : Blank st.shared (st.sched.fileCopyJobs s.1) m) :
    Advances cfg st (st.readFinished cfg s) := by
  have hparent := (hbook.owner s huse).1
  rw [State.readFinished]
  dsimp only
  split
  · rename_i hzero
    rw [Bool.and_eq_true, hslot.nbytes] at hzero
    refine h.stage hsep hactive huse hslot.jobno huse rfl ?_ (fun _ _ => rfl) (fun _ _ _ _ => rfl)
      (fun _ _ => rfl) rfl
    exact ⟨hslot.jobno, hslot.offset, hslot.nbytes, hslot.data,
      .finished rfl rfl (Copied.of_zero hblank hloaded hzero.2)⟩
  · refine Advances.congr (h.stage hsep hactive huse hslot.jobno ?_ ?_ (b := _) ?_ ?_ ?_ ?_ ?_) rfl rfl
    · exact huse
    · rfl
    · rw [hslot.nbytes]
      have hl : Loaded st.shared (st.sched.fileCopyJobs s.1) m (st.sched.blockCopyJobs s).data :=
        hloaded
      refine ⟨hslot.jobno, hslot.offset, rfl, hslot.data, .writing rfl rfl ?_
        (Loaded.memset hl hslot.data) (Padded.memset hslot.data) fun hback => ?_⟩
      · simp [writeRequest, hparent, hslot.offset, writeLength]
      · rw [if_pos hback]
        exact congrArg cfg.XXH3_64bits (Loaded.bytes (Loaded.memset hl hslot.data))
    · exact fun fd _ => congrFun SharedState.store_files fd
    · exact fun m' _ i _ => by rw [SharedState.memset, SharedState.store_files]
    · exact fun q hq => SharedState.store_memory hq
    · exact SharedState.store_allocated

theorem writeFinished (h : SchedContent cfg st) (hbook : Bookkeeping st.sched)
    (hsep : Separate st.sched) (hactive : (st.sched.fileCopyJobs s.1).active = true)
    (huse : (st.sched.blockCopyJobs s).inUse = true)
    (hslot : SlotContent cfg st.shared (st.sched.fileCopyJobs s.1) m (st.sched.blockCopyJobs s))
    (hcopied : Copied st.shared (st.sched.fileCopyJobs s.1) m)
    (hhash : Hashed cfg st.shared (st.sched.fileCopyJobs s.1) m (st.sched.blockCopyJobs s).srcHash) :
    Advances cfg st (st.writeFinished cfg s) := by
  have hparent := (hbook.owner s huse).1
  rw [State.writeFinished]
  dsimp only
  split
  · rename_i hback
    refine Advances.congr (h.stage hsep hactive huse hslot.jobno ?_ ?_ (b := _) ?_ ?_ ?_ ?_ ?_) rfl rfl
    · exact huse
    · rfl
    · refine ⟨hslot.jobno, hslot.offset, hslot.nbytes, hslot.data,
        .readingDst rfl rfl ?_ ?_ hback ?_⟩
      · simp [readRequest, hparent, hslot.offset, hslot.nbytes]
      · rw [Copied, SharedState.memset, SharedState.store_files]
        exact hcopied
      · rw [Hashed, SharedState.memset, SharedState.store_files]
        exact hhash
    · exact fun fd _ => congrFun SharedState.store_files fd
    · exact fun m' _ i _ => by rw [SharedState.memset, SharedState.store_files]
    · exact fun q hq => SharedState.store_memory hq
    · exact SharedState.store_allocated
  · exact h.stage hsep hactive huse hslot.jobno huse rfl
      ⟨hslot.jobno, hslot.offset, hslot.nbytes, hslot.data, .finished rfl rfl hcopied⟩
      (fun _ _ => rfl) (fun _ _ _ _ => rfl) (fun _ _ => rfl) rfl

/-- The jobs rely on nothing but their files and allocated memory. -/
theorem frame (h : SchedContent cfg st) {f : Fin nFile}
    (hactive : (st.sched.fileCopyJobs f).active = true) (hfiles : sh'.files = st.shared.files)
    (hmem : ∀ q, st.shared.allocated q = true → sh'.memory q = st.shared.memory q) :
    JobContent cfg sh' (st.sched.fileCopyJobs f) (st.sched.row f) :=
  (h.job f hactive).frame (by rw [hfiles]) (by rw [hfiles]) fun j _ =>
    SharedState.load_congr fun q hq => hmem q (h.own.allocated (f, j) q hq)

/-- A slot and its job are replaced, and with them the buffer of the slot. -/
theorem replace (h : SchedContent cfg st) {job' : FileCopyJob}
    (hactive : (st.sched.fileCopyJobs s.1).active = true)
    (hjob : JobContent cfg sh' job' (Function.update (st.sched.row s.1) s.2 b))
    (hidle : b.inUse = false → b.data = none)
    (hown : Owns (Function.update st.sched.data s b.data) sh'.allocated)
    (hfiles : sh'.files = st.shared.files)
    (hmem : ∀ q, st.shared.allocated q = true → sh'.memory q = st.shared.memory q)
    (halloc : ∀ q, st.shared.allocated q = true → st.sched.data s ≠ some q →
      sh'.allocated q = true)
    (hfresh : ∀ q, b.data = some q → st.sched.data s = some q ∨ st.shared.allocated q = false) :
    Advances cfg st ⟨(st.sched.setFile s.1 job').setBlock s b, sh'⟩ := by
  refine ⟨⟨?_, ?_, ?_⟩, ⟨?_, ?_, ?_⟩⟩
  · rw [CopyScheduler.data_setBlock]
    exact hown
  · intro t ht
    rw [CopyScheduler.data_setBlock]
    by_cases hts : t = s
    · subst hts
      rw [Function.update_self]
      exact hidle (by simpa using ht)
    · rw [Function.update_of_ne hts]
      exact h.idle t (by simpa [hts] using ht)
  · intro f hf
    by_cases hfs : f = s.1
    · subst hfs
      rw [CopyScheduler.row_setBlock_self]
      simpa using hjob
    · rw [CopyScheduler.row_setBlock_of_ne hfs]
      have hframe := h.frame (f := f) (by simpa [hfs] using hf) hfiles hmem
      simpa [hfs] using hframe
  · exact fun q hq hno => ⟨hmem q hq, halloc q hq (hno s)⟩
  · intro t q hq
    rw [CopyScheduler.data_setBlock] at hq
    by_cases hts : t = s
    · subst hts
      rw [Function.update_self] at hq
      exact (hfresh q hq).imp (fun hold => ⟨t, hold⟩) id
    · rw [Function.update_of_ne hts] at hq
      exact .inl ⟨t, hq⟩
  · exact fun fd _ => by rw [hfiles]

/-- The slot that takes up the next block starts by reading it. -/
theorem start (hbook : Bookkeeping st.sched)
    (hactive : (st.sched.fileCopyJobs s.1).active = true) {data : Option Ptr}
    (hdata : data.isSome = true)
    (hblank : Blank sh' (st.sched.fileCopyJobs s.1) (st.sched.total s.1)) :
    SlotContent cfg sh' (st.sched.fileCopyJobs s.1) (st.sched.total s.1)
      (st.issuedBlock s.1 s data) := by
  obtain ⟨hoff, hjobno⟩ := hbook.nextBlock_offset hactive
  have hlen : (st.startBlock s.1 s data).nbytes =
      blockLength (st.sched.fileCopyJobs s.1) (st.sched.total s.1) := by
    rw [blockLength, blockOffset, ← hoff]
    rfl
  refine ⟨?_, ?_, hlen, hdata, .reading ?_ ?_ ?_ hblank⟩
  · simpa only [State.issuedBlock, State.startBlock] using hjobno
  · simpa only [State.issuedBlock, State.startBlock, blockOffset] using hoff
  · simp only [State.issuedBlock, State.startBlock, CopyScheduler.nextBlock]
  · simp only [State.issuedBlock, State.startBlock, CopyScheduler.nextBlock]
  · simp only [State.issuedBlock, readRequest, hlen]
    simp only [State.startBlock, hoff, blockOffset]

/-- A slot that keeps its buffer takes up the next block, or gives the buffer back when
there is none. -/
theorem reschedule (h : SchedContent cfg st) {st₁ : State nFile nBlock} {job₁ : FileCopyJob}
    {malloc : Option (Ptr × (ℕ → UInt8))} {b₁ : BlockCopyJob nFile}
    (hactive : (st.sched.fileCopyJobs s.1).active = true)
    (hactive₁ : job₁.active = true)
    (hfiles : st₁.sched.fileCopyJobs = Function.update st.sched.fileCopyJobs s.1 job₁)
    (hblocks : st₁.sched.blockCopyJobs = Function.update st.sched.blockCopyJobs s b₁)
    (hshared : st₁.shared = st.shared) (hbook : Bookkeeping st₁.sched)
    (hfree : b₁.inUse = false) (hdata : b₁.data = st.sched.data s)
    (hsome : b₁.data.isSome = true)
    (hjob : JobContent cfg st.shared job₁ (Function.update (st.sched.row s.1) s.2 b₁)) :
    Advances cfg st (st₁.schedulerScheduleBlockCopyJob s.1 s malloc true) := by
  obtain ⟨p, hp⟩ := Option.isSome_iff_exists.mp hsome
  have hjob₁ : st₁.sched.fileCopyJobs s.1 = job₁ := by rw [hfiles, Function.update_self]
  have hb₁ : st₁.sched.blockCopyJobs s = b₁ := by rw [hblocks, Function.update_self]
  have hown := h.own
  rw [State.schedule_preallocated]
  split
  · have hfreed : st₁.freed s.1 s = { st.shared.buddyFree p with
        totalMemAllocated := st.shared.totalMemAllocated - job₁.blockSize } := by
      rw [State.freed, hb₁, hp, hshared, hjob₁]
    refine Advances.congr (d := (st.sched.setFile s.1 job₁).setBlock s {}) ?_ hfiles ?_
    · rw [hfreed]
      refine h.replace hactive ?_ (fun _ => rfl) (h.own.free (hdata.symm.trans hp)) rfl
        (fun _ _ => rfl) (fun q hq hne => ?_) (fun q hq => by simp at hq)
      · have hclear := hjob.clear (j := s.2) (b := {}) (by simpa using hfree) rfl
        rw [Function.update_idem] at hclear
        exact hclear.frame rfl rfl fun _ _ _ => rfl
      · rw [hdata] at hp
        have hqp : q ≠ p := fun he => hne (by rw [hp, he])
        simpa [SharedState.buddyFree, hqp] using hq
    · rw [CopyScheduler.setBlock_blockCopyJobs, hblocks, Function.update_idem]
      rfl
  · rw [hshared, hb₁]
    have htotal : st₁.sched.total s.1 = job₁.nBlockJobsFinished + job₁.nBlockJobsScheduled := by
      rw [CopyScheduler.total, hjob₁]
    have hslot : SlotContent cfg st.shared (st₁.sched.fileCopyJobs s.1) (st₁.sched.total s.1)
        (st₁.issuedBlock s.1 s b₁.data) := by
      refine start hbook ?_ hsome ?_
      · rwa [hjob₁]
      · rw [hjob₁, htotal]
        exact hjob.blank _ le_rfl
    rw [hjob₁, htotal] at hslot
    have hissue := hjob.issue (j := s.2) (by simpa using hfree) rfl hslot
    rw [Function.update_idem] at hissue
    have hown' : Owns (Function.update st.sched.data s (st₁.issuedBlock s.1 s b₁.data).data)
        st.shared.allocated := by
      rw [State.issuedBlock_data, hdata, Function.update_eq_self]
      exact h.own
    refine (h.replace hactive hissue (fun hb => ?_) hown' rfl (fun _ _ => rfl)
      (fun _ hq _ => hq) fun q hq => .inl ?_).congr ?_ ?_
    · rw [State.issuedBlock_inUse] at hb
      cases hb
    · rwa [State.issuedBlock_data, hdata] at hq
    · rw [State.issue_fileCopyJobs, hfiles, Function.update_idem, Function.update_self]
      rfl
    · rw [State.issue_blockCopyJobs, hblocks, Function.update_idem]
      rfl

theorem blockFinished (h : SchedContent cfg st) (hbook : Bookkeeping st.sched)
    (hactive : (st.sched.fileCopyJobs s.1).active = true)
    (huse : (st.sched.blockCopyJobs s).inUse = true)
    (hstatus : (st.sched.blockCopyJobs s).status = 0)
    (hslot : SlotContent cfg st.shared (st.sched.fileCopyJobs s.1) m (st.sched.blockCopyJobs s))
    (hcopied : Copied st.shared (st.sched.fileCopyJobs s.1) m)
    (hmatch : st.hashMismatch cfg s = false) :
    Advances cfg st (st.blockFinished cfg s.1 s) := by
  have hs := hbook.ledger.notMem_pending_of_status (s := s) (by rw [hstatus]; decide)
  have hpos := count_pos (p := st.sched.inUse s.1) (i := s.2) huse
  have hsched := hbook.scheduled s.1
  rw [State.blockFinished, hmatch, State.clear_nofree_eq]
  refine h.reschedule hactive ?_ rfl rfl rfl (hbook.release hs huse rfl rfl rfl) rfl rfl
    hslot.data ?_
  · exact hactive
  · exact (h.job s.1 hactive).release huse hslot.jobno hcopied rfl (by omega)

/-- A slot in use works on a block of its job. -/
theorem slot (h : SchedContent cfg st) (hactive : (st.sched.fileCopyJobs s.1).active = true)
    (huse : (st.sched.blockCopyJobs s).inUse = true) :
    ∃ m < st.sched.total s.1,
      SlotContent cfg st.shared (st.sched.fileCopyJobs s.1) m (st.sched.blockCopyJobs s) :=
  (h.job s.1 hactive).slot s.2 huse

theorem updateSlot (h : SchedContent cfg st) (hbook : Bookkeeping st.sched)
    (hsep : Separate st.sched) (hactive : (st.sched.fileCopyJobs s.1).active = true)
    (huse : (st.sched.blockCopyJobs s).inUse = true) :
    Advances cfg st (st.schedulerUpdateBlockCopyJob cfg s.1 s) := by
  obtain ⟨m, -, hslot⟩ := h.slot hactive huse
  have hbusy : (st.sched.blockCopyJobs s).status = einprogress →
      Advances cfg st (st.schedulerUpdateBlockCopyJob cfg s.1 s) := by
    intro hstatus
    rw [State.update_busy hstatus]
    exact h.refl
  cases hslot.stage with
  | reading _ hstatus => exact hbusy hstatus
  | writing _ hstatus => exact hbusy hstatus
  | readingDst _ hstatus => exact hbusy hstatus
  | haveRead htype hstatus hloaded hblank =>
    rw [State.schedulerUpdateBlockCopyJob, if_pos hstatus, htype]
    exact h.readFinished hbook hsep hactive huse hslot hloaded hblank
  | haveWritten htype hstatus hcopied hhash =>
    rw [State.schedulerUpdateBlockCopyJob, if_pos hstatus, htype]
    exact h.writeFinished hbook hsep hactive huse hslot hcopied hhash
  | haveReadDst htype hstatus hcopied hloaded hback hhash =>
    rw [State.schedulerUpdateBlockCopyJob, if_pos hstatus, htype]
    refine h.blockFinished hbook hactive huse hstatus hslot hcopied ?_
    simp [State.hashMismatch, htype, hslot.nbytes, hloaded.bytes, hhash hback]
  | finished htype hstatus hcopied =>
    rw [State.schedulerUpdateBlockCopyJob, if_pos hstatus, htype]
    exact h.blockFinished hbook hactive huse hstatus hslot hcopied
      (by simp [State.hashMismatch, htype])

end SchedContent

section Transfer
variable {sh : SharedState} {job : FileCopyJob} {m : ℕ} {data : Option Ptr}

theorem transfer_read (fd : Fd) :
    State.transfer sh (readRequest job fd m data) (blockLength job m : ℕ) =
      sh.store data 0 (blockLength job m)
        fun i => (sh.files fd).byte (blockOffset job m + i) := by
  simp [State.transfer, readRequest]

theorem transfer_write :
    State.transfer sh (writeRequest job m data) (writeLength job m : ℕ) =
      let file := (sh.files job.dstFd).pwrite (blockOffset job m) (writeLength job m) (sh.load data)
      { sh with files := Function.update sh.files job.dstFd file } := by
  simp [State.transfer, writeRequest]

end Transfer

/-- The kernel works on the requests as their slots hold them. -/
def Current (d : CopyScheduler nFile nBlock) : Prop :=
  ∀ e ∈ d.held, e.2 = (d.blockCopyJobs e.1).cb

namespace SchedContent
variable {cfg : Config} {st st' : State nFile nBlock} {s : Slot nFile nBlock}

/-- A read that completes in full fills the buffer and changes nothing else. -/
theorem readComplete (h : SchedContent cfg st) (hsep : Separate st.sched)
    (hactive : (st.sched.fileCopyJobs s.1).active = true)
    (huse : (st.sched.blockCopyJobs s).inUse = true) {m : ℕ} {fd : Fd} {status : ℤ}
    (hslot : SlotContent cfg st.shared (st.sched.fileCopyJobs s.1) m (st.sched.blockCopyJobs s))
    (hstage : Stage cfg (State.transfer st.shared
        (readRequest (st.sched.fileCopyJobs s.1) fd m (st.sched.data s))
        (blockLength (st.sched.fileCopyJobs s.1) m : ℕ)) (st.sched.fileCopyJobs s.1) m
      { st.sched.blockCopyJobs s with status }) :
    Advances cfg st ⟨st.sched.setBlock s { st.sched.blockCopyJobs s with status },
      State.transfer st.shared (readRequest (st.sched.fileCopyJobs s.1) fd m (st.sched.data s))
        (blockLength (st.sched.fileCopyJobs s.1) m : ℕ)⟩ := by
  rw [transfer_read] at hstage ⊢
  refine h.stage hsep hactive huse hslot.jobno huse rfl
    ⟨hslot.jobno, hslot.offset, hslot.nbytes, hslot.data, hstage⟩ ?_ ?_ ?_ ?_
  · exact fun fd _ => congrFun SharedState.store_files fd
  · exact fun m' _ i _ => by rw [SharedState.store_files]
  · exact fun q hq => SharedState.store_memory hq
  · exact SharedState.store_allocated

theorem ioComplete (h : SchedContent cfg st) (hbook : Bookkeeping st.sched)
    (hsep : Separate st.sched) (hcur : Current st.sched) {res : ℤ}
    (hres : ∀ cb, (s, cb) ∈ st.sched.held → res = cb.nbytes)
    (hc : st.ioComplete s res = some st') : Advances cfg st st' := by
  obtain ⟨cb, hheld, hsh, hst⟩ := State.ioComplete_cases hc
  obtain rfl : cb = (st.sched.blockCopyJobs s).cb := hcur _ hheld
  obtain rfl := hres _ hheld
  obtain ⟨huse, hbusy⟩ := hbook.pending s
    (List.mem_append_right _ (List.mem_map.mpr ⟨_, hheld, rfl⟩))
  have hactive := (hbook.owner s huse).2
  obtain ⟨m, hm, hslot⟩ := h.slot hactive huse
  have hpos := blockLength_pos (m := m) (hbook.accepts s.1 hactive).blockSize_pos
    (hm.trans_le (hbook.total_le s.1 hactive))
  obtain ⟨d', sh'⟩ := st'
  obtain rfl : sh' = _ := hsh
  obtain rfl : d' = _ := hst
  refine Advances.congr (d := st.sched.setBlock s { st.sched.blockCopyJobs s with
    status := aioStatus (st.sched.blockCopyJobs s).cb.nbytes
      (st.sched.blockCopyJobs s).cb.nbytes }) ?_ rfl rfl
  have hread : aioStatus (blockLength (st.sched.fileCopyJobs s.1) m)
      (blockLength (st.sched.fileCopyJobs s.1) m : ℕ) = 0 := aioStatus_full hpos
  have hwrite : aioStatus (writeLength (st.sched.fileCopyJobs s.1) m)
      (writeLength (st.sched.fileCopyJobs s.1) m : ℕ) = 0 :=
    aioStatus_full (hpos.trans_le blockLength_le_writeLength)
  have hjob := h.job s.1 hactive
  cases hslot.stage with
  | reading htype _ hcb hblank =>
    rw [hcb]
    refine h.readComplete hsep hactive huse hslot ?_
    rw [transfer_read]
    refine .haveRead htype hread (Loaded.of_store hslot.data fun i _ => rfl) ?_
    · rw [Blank, SharedState.store_files]
      exact hblank
  | readingDst htype _ hcb hcopied hback hhash =>
    rw [hcb]
    refine h.readComplete hsep hactive huse hslot ?_
    rw [transfer_read]
    refine .haveReadDst htype hread ?_ (Loaded.of_store hslot.data hcopied) hback ?_
    · rw [Copied, SharedState.store_files]
      exact hcopied
    · rw [Hashed, SharedState.store_files]
      exact hhash
  | writing htype _ hcb hloaded hpadded hhash =>
    rw [hcb]
    change Advances cfg st ⟨_, State.transfer _ _ (writeLength (st.sched.fileCopyJobs s.1) m : ℕ)⟩
    rw [transfer_write]
    have hsrc : ∀ file : ByteFile, Function.update st.shared.files
        (st.sched.fileCopyJobs s.1).dstFd file (st.sched.fileCopyJobs s.1).srcFd =
        st.shared.files (st.sched.fileCopyJobs s.1).srcFd :=
      fun file => Function.update_of_ne hjob.distinct ..
    refine h.stage hsep hactive huse hslot.jobno huse rfl ⟨hslot.jobno, hslot.offset, hslot.nbytes,
      hslot.data, .haveWritten htype hwrite (fun i hi => ?_) ?_⟩ ?_ (fun m' hne i hi => ?_)
      (fun _ _ => rfl) rfl
    · dsimp only
      rw [hsrc, Function.update_self, ByteFile.pwrite_byte_inside _ (Nat.le_add_right ..),
        Nat.add_sub_cancel_left]
      · exact hloaded i hi
      · exact Nat.add_lt_add_left (hi.trans_le blockLength_le_writeLength) _
    · rw [Hashed]
      dsimp only
      rw [hsrc]
      exact hhash
    · exact fun fd hfd => Function.update_of_ne hfd ..
    · dsimp only
      rw [Function.update_self]
      exact ByteFile.pwrite_byte_outside _ (outside_of_ne hjob.aligned hne hi)
  | haveRead _ hstatus => simp [hbusy, einprogress] at hstatus
  | haveWritten _ hstatus => simp [hbusy, einprogress] at hstatus
  | haveReadDst _ hstatus => simp [hbusy, einprogress] at hstatus
  | finished _ hstatus => simp [hbusy, einprogress] at hstatus

/-- A free slot gets a buffer and takes up the next block, unless there is none of either. -/
theorem schedule (h : SchedContent cfg st) (hbook : Bookkeeping st.sched)
    (hactive : (st.sched.fileCopyJobs s.1).active = true)
    (hfree : (st.sched.blockCopyJobs s).inUse = false)
    (malloc : Option (Ptr × (ℕ → UInt8))) :
    Advances cfg st (st.schedulerScheduleBlockCopyJob s.1 s malloc false) := by
  have hnone := h.idle s hfree
  rcases State.schedule_cases (f := s.1) hnone malloc with
    ⟨sh, heq, halloc, hmem, hfiles, -⟩ | ⟨-, p, bytes, sh, heq, hp, halloc, hmem, hfiles, -⟩
  · rw [heq]
    have hjob := (h.frame hactive hfiles fun q _ => by rw [hmem]).clear (j := s.2) (b := {}) hfree rfl
    have hown : Owns (Function.update st.sched.data s none) sh.allocated := by
      rw [← hnone, Function.update_eq_self, halloc]
      exact h.own
    refine (h.replace hactive hjob (fun _ => rfl) hown hfiles (fun q _ => by rw [hmem])
      (fun q hq _ => by rwa [halloc]) (by simp)).congr ?_ rfl
    simp
  · rw [heq]
    have hmem' : ∀ q, st.shared.allocated q = true → sh.memory q = st.shared.memory q := by
      intro q hq
      have hqp : q ≠ p := fun he => by simp [he, hp] at hq
      rw [hmem, Function.update_of_ne hqp]
    have hframe := h.frame hactive hfiles hmem'
    have hslot : SlotContent cfg sh (st.sched.fileCopyJobs s.1) (st.sched.total s.1)
        (st.issuedBlock s.1 s (some p)) := start hbook hactive rfl (hframe.blank _ le_rfl)
    have hown : Owns (Function.update st.sched.data s (st.issuedBlock s.1 s (some p)).data)
        sh.allocated := by
      rw [State.issuedBlock_data, halloc]
      exact h.own.alloc hp
    refine (h.replace hactive (hframe.issue (j := s.2) hfree rfl hslot) (fun hb => ?_) hown hfiles
      hmem' (fun q hq _ => ?_) fun q hq => ?_).congr rfl rfl
    · rw [State.issuedBlock_inUse] at hb
      cases hb
    · rw [halloc]
      by_cases hqp : q = p
      · simp [hqp]
      · simpa [hqp] using hq
    · rw [State.issuedBlock_data, Option.some.injEq] at hq
      exact .inr (hq ▸ hp)

/-- The entry of a file none of whose slots is in use may be replaced. -/
theorem replaceFile (h : SchedContent cfg st) {f : Fin nFile} {job : FileCopyJob}
    {sh' : SharedState} (hfiles : sh'.files = st.shared.files)
    (hmem : sh'.memory = st.shared.memory) (halloc : sh'.allocated = st.shared.allocated)
    (hjob : job.active = true → JobContent cfg sh' job (st.sched.row f)) :
    Advances cfg st ⟨st.sched.setFile f job, sh'⟩ := by
  refine ⟨⟨?_, h.idle, ?_⟩, ⟨?_, ?_, ?_⟩⟩
  · rw [halloc]
    exact h.own
  · intro g hg
    by_cases hgf : g = f
    · subst hgf
      simpa using hjob (by simpa using hg)
    · have hframe := h.frame (f := g) (by simpa [hgf] using hg) hfiles fun q _ => by rw [hmem]
      simpa [hgf] using hframe
  · exact fun q hq _ => ⟨by rw [hmem], by rwa [halloc]⟩
  · exact fun t q hq => .inl ⟨t, hq⟩
  · exact fun fd _ => by rw [hfiles]

end SchedContent

/-- The truncated destination is the source, and nothing went wrong. -/
def Delivered (sh : SharedState) (job : FileCopyJob) : Prop :=
  job.nErrors = 0 ∧
    (sh.files job.dstFd).ftruncate job.stx.stx_size = sh.files job.srcFd

theorem JobContent.delivered {cfg : Config} {sh : SharedState} {job : FileCopyJob}
    {blocks : Fin nBlock → BlockCopyJob nFile} (h : JobContent cfg sh job blocks)
    (hbs : 0 < job.blockSize) (hdone : job.blockCount ≤ job.nBlockJobsFinished)
    (hfree : ∀ j, (blocks j).inUse = false) : Delivered sh job := by
  refine ⟨h.errors, ByteFile.ext_of_byte h.size.symm fun i hi => ?_⟩
  rw [ByteFile.ftruncate_size] at hi
  rw [ByteFile.ftruncate_byte, if_pos hi]
  have hdiv := Nat.div_add_mod i job.blockSize
  have hmod := Nat.mod_lt i hbs
  have hm : i / job.blockSize < job.blockCount := (lt_blockCount_iff hbs).mpr (by omega)
  have hcopied := h.copied (i / job.blockSize) (by omega) fun j huse => by simp [hfree j] at huse
  have hlen : i % job.blockSize < blockLength job (i / job.blockSize) := by
    rw [blockLength, blockOffset]
    omega
  have hbyte := hcopied (i % job.blockSize) hlen
  rwa [blockOffset, hdiv] at hbyte

end Copy2.Scheduler
