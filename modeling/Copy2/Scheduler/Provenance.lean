import Copy2.Scheduler.Exact

/-! # Where the bytes of a slot come from

A record follows each slot: the completion its scheduler has not looked at yet, and the
read of the source that filled its buffer, with the bytes it brought. The invariant says
what a slot at each of its stages owes to that record, whatever its requests return. -/
namespace Copy2.Scheduler
open FileJob Lib

variable {nFile nBlock n : ℕ}

/-- What is recorded about the request and the buffer of one slot. -/
structure SlotRecord where
  completion : Option (Iocb × ℤ) := none
  source : Option (Iocb × (ℕ → UInt8)) := none

abbrev Record (n nFile nBlock : ℕ) := Fin n × Slot nFile nBlock → SlotRecord

namespace SlotRecord

/-- A request completes; a read of the source that completes in full fills the buffer. -/
def complete (r : SlotRecord) (sh : SharedState) (type : RW) (cb : Iocb) (res : ℤ) :
    SlotRecord where
  completion := some (cb, res)
  source := if type = .read ∧ res = cb.nbytes then
    some (cb, fun i => (sh.files cb.fd).byte (cb.offset + i)) else r.source

/-- The scheduler looks at the completion; a block that is over is forgotten. -/
def update (r : SlotRecord) (b : BlockCopyJob nFile) : SlotRecord :=
  if b.status = einprogress then r
  else if b.status = 0 ∧ (b.type = .read ∨ b.type = .write) then { source := r.source }
  else {}

end SlotRecord

def record (w : Fleet n nFile nBlock) (a : Fin n × Op nFile nBlock) (r : Record n nFile nBlock) :
    Record n nFile nBlock :=
  match a.2 with
  | .updateSlot s =>
    Function.update r (a.1, s) ((r (a.1, s)).update ((w.scheds a.1).blockCopyJobs s))
  | .complete s res =>
    match (w.scheds a.1).held.find? fun e => e.1 = s with
    | none => r
    | some (_, cb) => Function.update r (a.1, s)
        ((r (a.1, s)).complete w.shared ((w.scheds a.1).blockCopyJobs s).type cb res)
  | _ => r

def observed (cfg : Config) (n nFile nBlock : ℕ) :
    TransitionSystem (Fleet n nFile nBlock × Record n nFile nBlock) (Fin n × Op nFile nBlock) :=
  (system cfg n nFile nBlock).observe (fun _ => {}) record

/-- The record follows every run of the schedulers. -/
theorem exists_record {cfg : Config} {C : Fleet n nFile nBlock → Fin n × Op nFile nBlock → Prop}
    {w : Fleet n nFile nBlock} (h : (system cfg n nFile nBlock).Reach C w) :
    ∃ r, (observed cfg n nFile nBlock).Reach (fun x a => C x.1 a) (w, r) :=
  h.exists_record

def slotRead (fd : Fd) (b : BlockCopyJob nFile) : Iocb :=
  { opcode := .pread, fd, buf := b.data, nbytes := b.nbytes, offset := b.offset }

def slotWrite (fd : Fd) (b : BlockCopyJob nFile) : Iocb :=
  { opcode := .pwrite, fd, buf := b.data, nbytes := alignUp b.nbytes directIoAlign,
    offset := b.offset }

def Sourced (sh : SharedState) (job : FileCopyJob) (b : BlockCopyJob nFile) (r : SlotRecord) :
    Prop :=
  ∃ bytes, r.source = some (slotRead job.srcFd b, bytes) ∧
    ∀ i < b.nbytes, sh.load b.data i = bytes i

/-- The request of the slot completed, with the byte count it asked for. -/
def FullyCompleted (b : BlockCopyJob nFile) (r : SlotRecord) : Prop :=
  r.completion = some (b.cb, (b.cb.nbytes : ℤ))

inductive Origin (sh : SharedState) (job : FileCopyJob) (b : BlockCopyJob nFile) (r : SlotRecord)
    (waits : Prop) : Prop
  | reading (htype : b.type = .read) (hstatus : b.status = einprogress)
      (hcb : b.cb = slotRead job.srcFd b)
  | haveRead (htype : b.type = .read) (hstatus : b.status = 0) (hfull : FullyCompleted b r)
      (hsource : Sourced sh job b r)
  | writing (htype : b.type = .write) (hstatus : b.status = einprogress)
      (hcb : b.cb = slotWrite job.dstFd b) (hsource : Sourced sh job b r)
  | haveWritten (htype : b.type = .write) (hstatus : b.status = 0) (hfull : FullyCompleted b r)
  | readingDst (htype : b.type = .readDst) (hstatus : b.status = einprogress)
      (hcb : b.cb = slotRead job.dstFd b)
  | haveReadDst (htype : b.type = .readDst) (hstatus : b.status = 0) (hfull : FullyCompleted b r)
  | finished (htype : b.type = .finish) (hstatus : b.status = 0)
  | failed (hstatus : b.status ≠ 0) (hidle : ¬ waits)

/-- A slot in use has a buffer, and a block that is no longer than a file. -/
structure Attested (sh : SharedState) (job : FileCopyJob) (b : BlockCopyJob nFile)
    (r : SlotRecord) (waits : Prop) : Prop where
  data : b.data.isSome = true
  nbytes_lt : b.nbytes < 2 ^ 63
  origin : Origin sh job b r waits

theorem Sourced.frame {sh sh' : SharedState} {job job' : FileCopyJob} {b : BlockCopyJob nFile}
    {r : SlotRecord} (h : Sourced sh job b r) (hsrc : job'.srcFd = job.srcFd)
    (hmem : ∀ q, b.data = some q → sh'.memory q = sh.memory q) : Sourced sh' job' b r := by
  obtain ⟨bytes, hsource, hload⟩ := h
  exact ⟨bytes, hsrc ▸ hsource, fun i hi => (SharedState.load_congr hmem i).trans (hload i hi)⟩

/-- A slot relies on its descriptors, its buffer, its record and its place in the queues. -/
theorem Attested.frame {sh sh' : SharedState} {job job' : FileCopyJob} {b : BlockCopyJob nFile}
    {r : SlotRecord} {waits waits' : Prop} (h : Attested sh job b r waits)
    (hsrc : job'.srcFd = job.srcFd) (hdst : job'.dstFd = job.dstFd)
    (hmem : ∀ q, b.data = some q → sh'.memory q = sh.memory q) (hwaits : waits' → waits) :
    Attested sh' job' b r waits' := by
  refine ⟨h.data, h.nbytes_lt, ?_⟩
  cases h.origin with
  | reading ht hs hcb => exact .reading ht hs (hsrc ▸ hcb)
  | haveRead ht hs hf hsource => exact .haveRead ht hs hf (hsource.frame hsrc hmem)
  | writing ht hs hcb hsource => exact .writing ht hs (hdst ▸ hcb) (hsource.frame hsrc hmem)
  | haveWritten ht hs hf => exact .haveWritten ht hs hf
  | readingDst ht hs hcb => exact .readingDst ht hs (hdst ▸ hcb)
  | haveReadDst ht hs hf => exact .haveReadDst ht hs hf
  | finished ht hs => exact .finished ht hs
  | failed hs hidle => exact .failed hs fun hw => hidle (hwaits hw)

def Fleet.data (w : Fleet n nFile nBlock) (x : Fin n × Slot nFile nBlock) : Option Ptr :=
  (w.scheds x.1).data x.2

/-- Every buffer has one owner, the kernel works on the requests as their slots hold
them, and every slot in use can account for its stage and its bytes. -/
structure Clean (w : Fleet n nFile nBlock) (r : Record n nFile nBlock) : Prop where
  own : Owns w.data w.shared.allocated
  idle : ∀ k s, ((w.scheds k).blockCopyJobs s).inUse = false → w.data (k, s) = none
  current : ∀ k, Current (w.scheds k)
  slot : ∀ k s, ((w.scheds k).blockCopyJobs s).inUse = true →
    Attested w.shared (w.job k s.1) ((w.scheds k).blockCopyJobs s) (r (k, s))
      (s ∈ (w.scheds k).pending)

namespace Clean
variable {w : Fleet n nFile nBlock} {r r' : Record n nFile nBlock} {k : Fin n}
  {st' : State nFile nBlock} {s : Slot nFile nBlock}

theorem initial (hw : ∀ k, w.scheds k = {}) : Clean w (fun _ => {}) where
  own := .of_none fun x => by simp [Fleet.data, CopyScheduler.data, hw]
  idle k s _ := by simp [Fleet.data, CopyScheduler.data, hw]
  current k e he := by simp [hw] at he
  slot k s hs := by simp [hw] at hs

theorem data_put (hdata : ∀ t ≠ s, st'.sched.data t = (w.scheds k).data t) :
    (w.put k st').data = Function.update w.data (k, s) (st'.sched.data s) := by
  funext x
  obtain ⟨k', t⟩ := x
  by_cases hk : k' = k
  · subst hk
    by_cases ht : t = s
    · subst ht
      simp [Fleet.data, Fleet.put]
    · simp [Fleet.data, Fleet.put, ht, hdata t ht]
  · simp [Fleet.data, Fleet.put, hk]

/-- A step of one scheduler keeps a slot in use as it was, or accounts for it anew. -/
theorem put (h : Clean w r) (hown : Owns (w.put k st').data st'.shared.allocated)
    (hidle : ∀ t, (st'.sched.blockCopyJobs t).inUse = false → st'.sched.data t = none)
    (hcur : Current st'.sched) (hrec : ∀ k' ≠ k, ∀ t, r' (k', t) = r (k', t))
    (hmem : ∀ k' ≠ k, ∀ t q, w.data (k', t) = some q →
      st'.shared.memory q = w.shared.memory q)
    (hslot : ∀ t, (st'.sched.blockCopyJobs t).inUse = true →
      Attested st'.shared (st'.sched.fileCopyJobs t.1) (st'.sched.blockCopyJobs t) (r' (k, t))
        (t ∈ st'.sched.pending)) : Clean (w.put k st') r' where
  own := hown
  idle k' t ht := by
    by_cases hk : k' = k
    · subst hk
      simp only [Fleet.put, Fleet.data, Function.update_self] at ht ⊢
      exact hidle t ht
    · simp only [Fleet.put, Fleet.data, Function.update_of_ne hk] at ht ⊢
      exact h.idle k' t ht
  current k' := by
    by_cases hk : k' = k
    · subst hk
      simpa [Fleet.put] using hcur
    · simpa [Fleet.put, hk] using h.current k'
  slot k' t ht := by
    by_cases hk : k' = k
    · subst hk
      simp only [Fleet.put, Fleet.job, Function.update_self] at ht ⊢
      exact hslot t ht
    · simp only [Fleet.put, Fleet.job, Function.update_of_ne hk] at ht ⊢
      rw [hrec k' hk t]
      exact (h.slot k' t ht).frame rfl rfl (hmem k' hk t) id

/-- A step that works on one slot has to account for that slot. -/
theorem put_slot (h : Clean w r) (st' : State nFile nBlock)
    (hother : ∀ t ≠ s, st'.sched.blockCopyJobs t = (w.scheds k).blockCopyJobs t)
    (hjobs : ∀ t ≠ s, ((w.scheds k).blockCopyJobs t).inUse = true →
      (st'.sched.fileCopyJobs t.1).srcFd = (w.job k t.1).srcFd ∧
        (st'.sched.fileCopyJobs t.1).dstFd = (w.job k t.1).dstFd)
    (hpending : ∀ t ≠ s, t ∈ st'.sched.pending → t ∈ (w.scheds k).pending)
    (hmem : ∀ q, w.shared.allocated q = true → w.data (k, s) ≠ some q →
      st'.shared.memory q = w.shared.memory q)
    (hown : Owns (Function.update w.data (k, s) (st'.sched.data s)) st'.shared.allocated)
    (hidle : (st'.sched.blockCopyJobs s).inUse = false → st'.sched.data s = none)
    (hcur : Current st'.sched) (hrec : ∀ x ≠ (k, s), r' x = r x)
    (hslot : (st'.sched.blockCopyJobs s).inUse = true →
      Attested st'.shared (st'.sched.fileCopyJobs s.1) (st'.sched.blockCopyJobs s) (r' (k, s))
        (s ∈ st'.sched.pending)) : Clean (w.put k st') r' := by
  have hframe : ∀ x ≠ (k, s), ∀ q, w.data x = some q →
      st'.shared.memory q = w.shared.memory q := fun x hx q hq =>
    hmem q (h.own.allocated x q hq) fun hq' => hx (h.own.injective x (k, s) q hq hq')
  have hdata : ∀ t ≠ s, st'.sched.data t = (w.scheds k).data t := fun t ht => by
    rw [CopyScheduler.data, CopyScheduler.data, hother t ht]
  refine h.put ?_ (fun t ht => ?_) hcur (fun k' hk t => ?_) (fun k' hk t => ?_) fun t ht => ?_
  · rw [data_put hdata]
    exact hown
  · by_cases hts : t = s
    · subst hts
      exact hidle ht
    · rw [hdata t hts]
      rw [hother t hts] at ht
      exact h.idle k t ht
  · exact hrec (k', t) fun he => hk (congrArg Prod.fst he)
  · exact hframe (k', t) fun he => hk (congrArg Prod.fst he)
  · by_cases hts : t = s
    · subst hts
      exact hslot ht
    · have hne : (k, t) ≠ (k, s) := fun he => hts (congrArg Prod.snd he)
      rw [hother t hts] at ht ⊢
      rw [hrec (k, t) hne]
      exact (h.slot k t ht).frame (hjobs t hts ht).1 (hjobs t hts ht).2 (hframe (k, t) hne)
        (hpending t hts)

end Clean
end Copy2.Scheduler
