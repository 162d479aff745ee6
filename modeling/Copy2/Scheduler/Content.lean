import Copy2.Scheduler.Bookkeeping
import Copy2.Lib.Ownership

/-! # What the blocks of one file hold

For one file job: which bytes each block of the destination has, and what the slot that
works on a block knows about its buffer, at every stage of the block. -/
namespace Copy2.Scheduler
open FileJob Lib

variable {nFile nBlock : ℕ}

section Range
variable (job : FileCopyJob) (m : ℕ)

def blockOffset : ℕ := job.blockSize * m

def blockLength : ℕ := min job.blockSize (job.stx.stx_size - blockOffset job m)

def writeLength : ℕ := alignUp (blockLength job m) directIoAlign

variable {job m}

theorem blockLength_pos (hbs : 0 < job.blockSize) (hm : m < job.blockCount) :
    0 < blockLength job m := by
  have hlt := (lt_blockCount_iff hbs).mp hm
  rw [blockLength, blockOffset]
  omega

theorem blockLength_le_writeLength : blockLength job m ≤ writeLength job m := by
  have hsize := job.stx.size_lt
  have hle : blockLength job m ≤ job.stx.stx_size := by
    rw [blockLength]
    omega
  exact le_alignUp (by omega)

/-- The padding of a block ends before the next block begins. -/
theorem writeLength_le (hdvd : directIoAlign ∣ job.blockSize) :
    writeLength job m ≤ job.blockSize := by
  have hsize := job.stx.size_lt
  have hle : blockLength job m ≤ job.stx.stx_size := by
    rw [blockLength]
    omega
  exact alignUp_le_of_dvd (by omega) (min_le_left ..) hdvd

/-- Writing one block leaves the bytes of the others alone. -/
theorem outside_of_ne (hdvd : directIoAlign ∣ job.blockSize) {m' i : ℕ} (hne : m' ≠ m)
    (hi : i < blockLength job m') :
    blockOffset job m' + i < blockOffset job m ∨
      blockOffset job m + writeLength job m ≤ blockOffset job m' + i := by
  have hw := writeLength_le (m := m) hdvd
  have hlt : i < job.blockSize := hi.trans_le (min_le_left ..)
  rw [blockOffset, blockOffset]
  rcases Nat.lt_or_gt_of_ne hne with h | h
  · have := Nat.mul_le_mul_left job.blockSize h
    rw [Nat.mul_succ] at this
    exact .inl (by omega)
  · have := Nat.mul_le_mul_left job.blockSize h
    rw [Nat.mul_succ] at this
    exact .inr (by omega)

end Range

def Blank (sh : SharedState) (job : FileCopyJob) (m : ℕ) : Prop :=
  ∀ i < blockLength job m, (sh.files job.dstFd).byte (blockOffset job m + i) = 0

def Copied (sh : SharedState) (job : FileCopyJob) (m : ℕ) : Prop :=
  ∀ i < blockLength job m, (sh.files job.dstFd).byte (blockOffset job m + i) =
    (sh.files job.srcFd).byte (blockOffset job m + i)

def Loaded (sh : SharedState) (job : FileCopyJob) (m : ℕ) (data : Option Ptr) : Prop :=
  ∀ i < blockLength job m, sh.load data i = (sh.files job.srcFd).byte (blockOffset job m + i)

/-- The buffer is zero from the end of the block to the end of the write request. -/
def Padded (sh : SharedState) (job : FileCopyJob) (m : ℕ) (data : Option Ptr) : Prop :=
  ∀ i, blockLength job m ≤ i → i < writeLength job m → sh.load data i = 0

/-- With readback, the slot knows the hash of the source block. -/
def Hashed (cfg : Config) (sh : SharedState) (job : FileCopyJob) (m : ℕ) (srcHash : UInt64) :
    Prop :=
  cfg.readback = true → srcHash = cfg.XXH3_64bits ((List.range (blockLength job m)).map
    fun i => (sh.files job.srcFd).byte (blockOffset job m + i))

/-- A block that is already zero in the source is copied while it is blank. -/
theorem Copied.of_zero {sh : SharedState} {job : FileCopyJob} {m : ℕ} {data : Option Ptr}
    (hblank : Blank sh job m) (hloaded : Loaded sh job m data)
    (hzero : sh.isZero data (blockLength job m) = true) : Copied sh job m := by
  intro i hi
  have hz : sh.load data i = 0 := by
    simpa using List.all_eq_true.mp hzero i (List.mem_range.mpr hi)
  rw [hblank i hi, ← hloaded i hi, hz]

/-- The block read back has the hash of the source block. -/
theorem Loaded.bytes {sh : SharedState} {job : FileCopyJob} {m : ℕ} {data : Option Ptr}
    (h : Loaded sh job m data) : sh.bytes data (blockLength job m) =
      (List.range (blockLength job m)).map
        fun i => (sh.files job.srcFd).byte (blockOffset job m + i) :=
  List.map_congr_left fun i hi => h i (List.mem_range.mp hi)

/-- The request that reads a block from a file into a buffer. -/
def readRequest (job : FileCopyJob) (fd : Fd) (m : ℕ) (data : Option Ptr) : Iocb :=
  { opcode := .pread, fd, buf := data, nbytes := blockLength job m, offset := blockOffset job m }

def writeRequest (job : FileCopyJob) (m : ℕ) (data : Option Ptr) : Iocb :=
  { opcode := .pwrite, fd := job.dstFd, buf := data, nbytes := writeLength job m,
    offset := blockOffset job m }

/-- What holds of the slot that works on block `m`, from the read to the end. -/
inductive Stage (cfg : Config) (sh : SharedState) (job : FileCopyJob) (m : ℕ)
    (b : BlockCopyJob nFile) : Prop
  | reading (htype : b.type = .read) (hstatus : b.status = einprogress)
      (hcb : b.cb = readRequest job job.srcFd m b.data) (hblank : Blank sh job m)
  | haveRead (htype : b.type = .read) (hstatus : b.status = 0)
      (hloaded : Loaded sh job m b.data) (hblank : Blank sh job m)
  | writing (htype : b.type = .write) (hstatus : b.status = einprogress)
      (hcb : b.cb = writeRequest job m b.data) (hloaded : Loaded sh job m b.data)
      (hpadded : Padded sh job m b.data) (hhash : Hashed cfg sh job m b.srcHash)
  | haveWritten (htype : b.type = .write) (hstatus : b.status = 0)
      (hcopied : Copied sh job m) (hhash : Hashed cfg sh job m b.srcHash)
  | readingDst (htype : b.type = .readDst) (hstatus : b.status = einprogress)
      (hcb : b.cb = readRequest job job.dstFd m b.data) (hcopied : Copied sh job m)
      (hback : cfg.readback = true) (hhash : Hashed cfg sh job m b.srcHash)
  | haveReadDst (htype : b.type = .readDst) (hstatus : b.status = 0)
      (hcopied : Copied sh job m) (hloaded : Loaded sh job m b.data)
      (hback : cfg.readback = true) (hhash : Hashed cfg sh job m b.srcHash)
  | finished (htype : b.type = .finish) (hstatus : b.status = 0) (hcopied : Copied sh job m)

structure SlotContent (cfg : Config) (sh : SharedState) (job : FileCopyJob) (m : ℕ)
    (b : BlockCopyJob nFile) : Prop where
  jobno : b.jobno = m
  offset : b.offset = blockOffset job m
  nbytes : b.nbytes = blockLength job m
  data : b.data.isSome = true
  stage : Stage cfg sh job m b

/-- The state of one file job: its issued blocks are copied or in some slot, the others
are blank. -/
structure JobContent (cfg : Config) (sh : SharedState) (job : FileCopyJob)
    (blocks : Fin nBlock → BlockCopyJob nFile) : Prop where
  aligned : directIoAlign ∣ job.blockSize
  distinct : job.srcFd ≠ job.dstFd
  size : (sh.files job.srcFd).size = job.stx.stx_size
  errors : job.nErrors = 0
  slot : ∀ j, (blocks j).inUse = true →
    ∃ m < job.nBlockJobsFinished + job.nBlockJobsScheduled, SlotContent cfg sh job m (blocks j)
  injective : ∀ j j', (blocks j).inUse = true → (blocks j').inUse = true →
    (blocks j).jobno = (blocks j').jobno → j = j'
  copied : ∀ m < job.nBlockJobsFinished + job.nBlockJobsScheduled,
    (∀ j, (blocks j).inUse = true → (blocks j).jobno ≠ m) → Copied sh job m
  blank : ∀ m, job.nBlockJobsFinished + job.nBlockJobsScheduled ≤ m → Blank sh job m

section Moves
variable {cfg : Config} {sh sh' : SharedState} {job : FileCopyJob} {m : ℕ}
  {b : BlockCopyJob nFile} {blocks : Fin nBlock → BlockCopyJob nFile} {j : Fin nBlock}

/-- What a slot relies on has not changed: the source, its block of the destination, and
its buffer. -/
structure Agrees (sh sh' : SharedState) (job : FileCopyJob) (m : ℕ) (data : Option Ptr) :
    Prop where
  src : sh'.files job.srcFd = sh.files job.srcFd
  dst : ∀ i < blockLength job m, (sh'.files job.dstFd).byte (blockOffset job m + i) =
    (sh.files job.dstFd).byte (blockOffset job m + i)
  load : ∀ i, sh'.load data i = sh.load data i

namespace Agrees
variable {data : Option Ptr} (h : Agrees sh sh' job m data)
include h

theorem blank (hb : Blank sh job m) : Blank sh' job m := fun i hi => by rw [h.dst i hi, hb i hi]

theorem copied (hc : Copied sh job m) : Copied sh' job m := fun i hi => by
  rw [h.dst i hi, hc i hi, h.src]

theorem loaded (hl : Loaded sh job m data) : Loaded sh' job m data := fun i hi => by
  rw [h.load, hl i hi, h.src]

theorem hashed {srcHash : UInt64} (hh : Hashed cfg sh job m srcHash) :
    Hashed cfg sh' job m srcHash := by
  rw [Hashed, h.src]
  exact hh

end Agrees

theorem Stage.frame (hs : Stage cfg sh job m b) (h : Agrees sh sh' job m b.data) :
    Stage cfg sh' job m b := by
  cases hs with
  | reading ht hst hcb hb => exact .reading ht hst hcb (h.blank hb)
  | haveRead ht hst hl hb => exact .haveRead ht hst (h.loaded hl) (h.blank hb)
  | writing ht hst hcb hl hp hh =>
    exact .writing ht hst hcb (h.loaded hl) (fun i h₁ h₂ => by rw [h.load, hp i h₁ h₂])
      (h.hashed hh)
  | haveWritten ht hst hc hh => exact .haveWritten ht hst (h.copied hc) (h.hashed hh)
  | readingDst ht hst hcb hc hr hh => exact .readingDst ht hst hcb (h.copied hc) hr (h.hashed hh)
  | haveReadDst ht hst hc hl hr hh =>
    exact .haveReadDst ht hst (h.copied hc) (h.loaded hl) hr (h.hashed hh)
  | finished ht hst hc => exact .finished ht hst (h.copied hc)

theorem SlotContent.frame (hs : SlotContent cfg sh job m b) (h : Agrees sh sh' job m b.data) :
    SlotContent cfg sh' job m b :=
  { hs with stage := hs.stage.frame h }

/-- The counters of the job are nothing a slot relies on. -/
theorem SlotContent.counters {finished scheduled : ℕ} (hs : SlotContent cfg sh job m b) :
    SlotContent cfg sh
      { job with nBlockJobsFinished := finished, nBlockJobsScheduled := scheduled } m b := by
  refine ⟨hs.jobno, hs.offset, hs.nbytes, hs.data, ?_⟩
  cases hs.stage with
  | reading h₁ h₂ h₃ h₄ => exact .reading h₁ h₂ h₃ h₄
  | haveRead h₁ h₂ h₃ h₄ => exact .haveRead h₁ h₂ h₃ h₄
  | writing h₁ h₂ h₃ h₄ h₅ h₆ => exact .writing h₁ h₂ h₃ h₄ h₅ h₆
  | haveWritten h₁ h₂ h₃ h₄ => exact .haveWritten h₁ h₂ h₃ h₄
  | readingDst h₁ h₂ h₃ h₄ h₅ h₆ => exact .readingDst h₁ h₂ h₃ h₄ h₅ h₆
  | haveReadDst h₁ h₂ h₃ h₄ h₅ h₆ => exact .haveReadDst h₁ h₂ h₃ h₄ h₅ h₆
  | finished h₁ h₂ h₃ => exact .finished h₁ h₂ h₃

namespace JobContent

/-- The slots in use hold distinct blocks. -/
theorem jobno_ne (h : JobContent cfg sh job blocks) {j' : Fin nBlock} (hne : j' ≠ j)
    (huse : (blocks j).inUse = true) (huse' : (blocks j').inUse = true)
    (hm : (blocks j).jobno = m) : (blocks j').jobno ≠ m :=
  fun he => hne (h.injective j' j huse' huse (he.trans hm.symm))

/-- Nothing the job relies on has changed. -/
theorem frame (h : JobContent cfg sh job blocks)
    (hsrc : sh'.files job.srcFd = sh.files job.srcFd)
    (hdst : sh'.files job.dstFd = sh.files job.dstFd)
    (hload : ∀ j, (blocks j).inUse = true →
      ∀ i, sh'.load (blocks j).data i = sh.load (blocks j).data i) :
    JobContent cfg sh' job blocks :=
  { h with
    size := by rw [hsrc, h.size]
    slot := fun j huse => by
      obtain ⟨m, hm, hs⟩ := h.slot j huse
      exact ⟨m, hm, hs.frame ⟨hsrc, fun i _ => by rw [hdst], hload j huse⟩⟩
    copied := fun m hm hno i hi => by rw [hsrc, hdst]; exact h.copied m hm hno i hi
    blank := fun m hm i hi => by rw [hdst]; exact h.blank m hm i hi }

/-- The slot that works on block `m` moves to another stage. -/
theorem stage (h : JobContent cfg sh job blocks) (huse : (blocks j).inUse = true)
    (hm : (blocks j).jobno = m) (hb : b.inUse = true) (hslot : SlotContent cfg sh' job m b)
    (hsrc : sh'.files job.srcFd = sh.files job.srcFd)
    (hdst : ∀ m' ≠ m, ∀ i < blockLength job m',
      (sh'.files job.dstFd).byte (blockOffset job m' + i) =
        (sh.files job.dstFd).byte (blockOffset job m' + i))
    (hload : ∀ j' ≠ j, (blocks j').inUse = true →
      ∀ i, sh'.load (blocks j').data i = sh.load (blocks j').data i) :
    JobContent cfg sh' job (Function.update blocks j b) := by
  obtain ⟨m₀, hlt, hs₀⟩ := h.slot j huse
  obtain rfl : m₀ = m := by exact_mod_cast hs₀.jobno.symm.trans hm
  have hagree : ∀ j' ≠ j, (blocks j').inUse = true → ∀ m' : ℕ, (blocks j').jobno = m' →
      Agrees sh sh' job m' (blocks j').data := by
    intro j' hne huse' m' hm'
    have hmm : m' ≠ m₀ := fun he => h.jobno_ne hne huse huse' hm (by rw [hm', he])
    exact ⟨hsrc, hdst m' hmm, hload j' hne huse'⟩
  refine ⟨h.aligned, h.distinct, by rw [hsrc, h.size], h.errors, ?_, ?_, ?_, ?_⟩
  · intro j' huse'
    by_cases hj : j' = j
    · subst hj
      exact ⟨m₀, hlt, by simpa using hslot⟩
    · rw [Function.update_of_ne hj] at huse' ⊢
      obtain ⟨m', hm', hs'⟩ := h.slot j' huse'
      exact ⟨m', hm', hs'.frame (hagree j' hj huse' m' hs'.jobno)⟩
  · intro j₁ j₂ h₁ h₂ hj
    have hold : ∀ j', (Function.update blocks j b j').inUse = true →
        (blocks j').inUse = true ∧ (Function.update blocks j b j').jobno = (blocks j').jobno := by
      intro j' huse'
      by_cases hj' : j' = j
      · subst hj'
        rw [Function.update_self]
        exact ⟨huse, hslot.jobno.trans hm.symm⟩
      · rw [Function.update_of_ne hj'] at huse' ⊢
        exact ⟨huse', rfl⟩
    exact h.injective j₁ j₂ (hold j₁ h₁).1 (hold j₂ h₂).1
      ((hold j₁ h₁).2.symm.trans (hj.trans (hold j₂ h₂).2))
  · intro m' hm' hno
    have hne : m' ≠ m₀ := by
      rintro rfl
      exact hno j (by simpa using hb) (by simpa using hslot.jobno)
    have hc := h.copied m' hm' fun j' huse' hj' => by
      have hjj : j' ≠ j := by
        rintro rfl
        exact hne (by exact_mod_cast hj'.symm.trans hm)
      exact hno j' (by simpa [hjj] using huse') (by simpa [hjj] using hj')
    intro i hi
    rw [hsrc, hdst m' hne i hi]
    exact hc i hi
  · intro m' hm' i hi
    rw [hdst m' (by omega) i hi]
    exact h.blank m' hm' i hi

/-- The slot gives up a block that is copied. -/
theorem release (h : JobContent cfg sh job blocks) (huse : (blocks j).inUse = true)
    (hm : (blocks j).jobno = m) (hcopied : Copied sh job m) (hb : b.inUse = false)
    {finished scheduled : ℕ}
    (htotal : finished + scheduled = job.nBlockJobsFinished + job.nBlockJobsScheduled) :
    JobContent cfg sh
      { job with nBlockJobsFinished := finished, nBlockJobsScheduled := scheduled }
      (Function.update blocks j b) := by
  have hold : ∀ j', (Function.update blocks j b j').inUse = true →
      j' ≠ j ∧ (blocks j').inUse = true := by
    intro j' huse'
    by_cases hj : j' = j
    · subst hj
      simp [hb] at huse'
    · exact ⟨hj, by simpa [hj] using huse'⟩
  refine ⟨h.aligned, h.distinct, h.size, h.errors, ?_, ?_, ?_, ?_⟩
  · intro j' huse'
    obtain ⟨hj, huse'⟩ := hold j' huse'
    obtain ⟨m', hm', hs'⟩ := h.slot j' huse'
    rw [Function.update_of_ne hj]
    exact ⟨m', hm'.trans_eq htotal.symm, hs'.counters⟩
  · intro j₁ j₂ h₁ h₂ hj
    obtain ⟨hj₁, h₁⟩ := hold j₁ h₁
    obtain ⟨hj₂, h₂⟩ := hold j₂ h₂
    rw [Function.update_of_ne hj₁, Function.update_of_ne hj₂] at hj
    exact h.injective j₁ j₂ h₁ h₂ hj
  · intro m' hm' hno
    by_cases hmm : m' = m
    · subst hmm
      exact hcopied
    · refine h.copied m' (hm'.trans_eq htotal) fun j' huse' hj' => ?_
      have hjj : j' ≠ j := by
        rintro rfl
        exact hmm (by exact_mod_cast hj'.symm.trans hm)
      exact hno j' (by simpa [hjj] using huse') (by simpa [hjj] using hj')
  · exact fun m' hm' => h.blank m' (htotal.symm.trans_le hm')

/-- A free slot takes up the next block. -/
theorem issue (h : JobContent cfg sh job blocks) (hfree : (blocks j).inUse = false)
    (hb : b.inUse = true)
    (hslot : SlotContent cfg sh job (job.nBlockJobsFinished + job.nBlockJobsScheduled) b) :
    JobContent cfg sh { job with nBlockJobsScheduled := job.nBlockJobsScheduled + 1 }
      (Function.update blocks j b) := by
  have hold : ∀ j' ≠ j, (Function.update blocks j b j').inUse = true →
      ∃ m' < job.nBlockJobsFinished + job.nBlockJobsScheduled,
        SlotContent cfg sh job m' (blocks j') := by
    intro j' hj huse'
    exact h.slot j' (by simpa [hj] using huse')
  have hnew : ∀ j' ≠ j, (Function.update blocks j b j').inUse = true →
      (blocks j').jobno ≠ b.jobno := by
    intro j' hj huse' he
    obtain ⟨m', hm', hs'⟩ := hold j' hj huse'
    rw [hs'.jobno, hslot.jobno] at he
    omega
  refine ⟨h.aligned, h.distinct, h.size, h.errors, ?_, ?_, ?_, ?_⟩
  · intro j' huse'
    by_cases hj : j' = j
    · subst hj
      rw [Function.update_self]
      exact ⟨_, Nat.lt_succ_self _, hslot.counters⟩
    · obtain ⟨m', hm', hs'⟩ := hold j' hj huse'
      rw [Function.update_of_ne hj]
      exact ⟨m', Nat.lt_succ_of_lt hm', hs'.counters⟩
  · intro j₁ j₂ h₁ h₂ hj
    by_cases hj₁ : j₁ = j
    · by_cases hj₂ : j₂ = j
      · rw [hj₁, hj₂]
      · subst hj₁
        rw [Function.update_self, Function.update_of_ne hj₂] at hj
        exact absurd hj.symm (hnew j₂ hj₂ h₂)
    · by_cases hj₂ : j₂ = j
      · subst hj₂
        rw [Function.update_self, Function.update_of_ne hj₁] at hj
        exact absurd hj (hnew j₁ hj₁ h₁)
      · rw [Function.update_of_ne hj₁] at h₁ hj
        rw [Function.update_of_ne hj₂] at h₂ hj
        exact h.injective j₁ j₂ h₁ h₂ hj
  · intro m' hm' hno
    have hlt : m' < job.nBlockJobsFinished + job.nBlockJobsScheduled := by
      refine lt_of_le_of_ne (Nat.le_of_lt_succ hm') fun he => ?_
      exact hno j (by simpa using hb) (by simpa [he] using hslot.jobno)
    refine h.copied m' hlt fun j' huse' hj' => ?_
    have hjj : j' ≠ j := by
      rintro rfl
      simp [hfree] at huse'
    exact hno j' (by simpa [hjj] using huse') (by simpa [hjj] using hj')
  · exact fun m' hm' => h.blank m' ((Nat.le_succ _).trans hm')

/-- Nothing relies on a free slot. -/
theorem clear (h : JobContent cfg sh job blocks) (hfree : (blocks j).inUse = false)
    (hb : b.inUse = false) : JobContent cfg sh job (Function.update blocks j b) := by
  have hold : ∀ j', (Function.update blocks j b j').inUse = true →
      Function.update blocks j b j' = blocks j' ∧ (blocks j').inUse = true := by
    intro j' huse'
    by_cases hj : j' = j
    · subst hj
      simp [hb] at huse'
    · rw [Function.update_of_ne hj] at huse' ⊢
      exact ⟨rfl, huse'⟩
  refine ⟨h.aligned, h.distinct, h.size, h.errors, ?_, ?_, ?_, h.blank⟩
  · intro j' huse'
    rw [(hold j' huse').1]
    exact h.slot j' (hold j' huse').2
  · intro j₁ j₂ h₁ h₂ hj
    rw [(hold j₁ h₁).1, (hold j₂ h₂).1] at hj
    exact h.injective j₁ j₂ (hold j₁ h₁).2 (hold j₂ h₂).2 hj
  · intro m' hm' hno
    refine h.copied m' hm' fun j' huse' hj' => ?_
    have hjj : j' ≠ j := by
      rintro rfl
      simp [hfree] at huse'
    exact hno j' (by simpa [hjj] using huse') (by simpa [hjj] using hj')

end JobContent
end Moves
end Copy2.Scheduler
