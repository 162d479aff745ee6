import Copy2.Scheduler.Provenance

/-! # What a scheduler does to the account of its slots

Each loop body of a pass keeps the account of every slot, as long as no request completes
with a result that the callbacks take for a full one. -/
namespace Copy2.Scheduler
open FileJob Lib

variable {nFile nBlock n : ℕ}

theorem mem_pending_of_deferred {d : CopyScheduler nFile nBlock} {s t : Slot nFile nBlock}
    (hne : t ≠ s) (h : t ∈ (d.schedIOSubmitDeferred s).pending) : t ∈ d.pending := by
  simp only [CopyScheduler.pending, CopyScheduler.deferred_cbBatch, CopyScheduler.deferred_held,
    List.mem_append, List.mem_singleton] at h ⊢
  rcases h with (h | rfl) | h
  · exact .inl h
  · exact absurd rfl hne
  · exact .inr h

namespace SlotRecord
variable {r : SlotRecord} {b : BlockCopyJob nFile}

theorem update_busy (h : b.status = einprogress) : r.update b = r := if_pos h

theorem update_source (h : b.status = 0) (ht : b.type = .read ∨ b.type = .write) :
    (r.update b).source = r.source := by
  rw [update, if_neg (by rw [h]; decide), if_pos ⟨h, ht⟩]

end SlotRecord

namespace Clean
variable {w : Fleet n nFile nBlock} {r : Record n nFile nBlock} {k : Fin n}
  {st' : State nFile nBlock} {s : Slot nFile nBlock} {cfg : Config}

/-- A slot that keeps its buffer moves to another stage. -/
theorem stage (h : Clean w r) {rec : SlotRecord} (hs : s ∉ (w.scheds k).pending)
    (hother : (w.scheds k).AgreesOff st'.sched s)
    (hjobs : st'.sched.fileCopyJobs = (w.scheds k).fileCopyJobs)
    (hpending : ∀ t ≠ s, t ∈ st'.sched.pending → t ∈ (w.scheds k).pending)
    (hdata : st'.sched.data s = w.data (k, s))
    (huse : (st'.sched.blockCopyJobs s).inUse = true)
    (halloc : st'.shared.allocated = w.shared.allocated)
    (hmem : ∀ q, w.data (k, s) ≠ some q → st'.shared.memory q = w.shared.memory q)
    (hslot : ∀ waits, Attested st'.shared (w.job k s.1) (st'.sched.blockCopyJobs s) rec waits) :
    Clean (w.put k st') (Function.update r (k, s) rec) := by
  refine h.put_slot _ hother.2 (fun t _ _ => ?_) hpending (fun q _ => hmem q) ?_ (fun hfree => ?_)
    ((h.current k).of_agreesOff hs hother) (fun x hx => Function.update_of_ne hx ..) fun _ => ?_
  · rw [hjobs]
    exact ⟨rfl, rfl⟩
  · rw [hdata, Function.update_eq_self, halloc]
    exact h.own
  · simp [huse] at hfree
  · rw [hjobs, Function.update_self]
    exact hslot _

theorem readFinished (h : Clean w r) (hl : Ledger (w.scheds k))
    (huse : ((w.scheds k).blockCopyJobs s).inUse = true)
    (ht : ((w.scheds k).blockCopyJobs s).type = .read)
    (hstatus : ((w.scheds k).blockCopyJobs s).status = 0)
    (hsource : Sourced w.shared (w.job k s.1) ((w.scheds k).blockCopyJobs s) (r (k, s))) :
    Clean (w.put k ((w.view k).readFinished cfg s))
      (Function.update r (k, s) ((r (k, s)).update ((w.scheds k).blockCopyJobs s))) := by
  have hs := hl.notMem_pending_of_status (s := s) (by rw [hstatus]; decide)
  have hparent := (hl.owner s huse).1
  obtain ⟨hdata, hlt, -⟩ := h.slot k s huse
  rw [State.readFinished]
  dsimp only
  split
  · refine h.stage hs ⟨rfl, fun t ht => ?_⟩ rfl (fun t _ => id) ?_ ?_ rfl (fun _ _ => rfl)
      fun waits => ⟨?_, ?_, ?_⟩
    · exact Function.update_of_ne ht ..
    · simp [CopyScheduler.data, Fleet.data, Fleet.view]
    · simpa [Fleet.view] using huse
    · simpa [Fleet.view] using hdata
    · simpa [Fleet.view] using hlt
    · exact .finished (by simp) (by simp)
  · refine h.stage hs ⟨rfl, fun t ht => ?_⟩ rfl (fun t hne hp => ?_) ?_ ?_ ?_ (fun q hq => ?_)
      fun waits => ⟨?_, ?_, ?_⟩
    · exact Function.update_of_ne ht ..
    · exact mem_pending_of_deferred hne hp
    · simp [CopyScheduler.data, Fleet.data, Fleet.view]
    · simpa [Fleet.view] using huse
    · exact SharedState.store_allocated
    · exact SharedState.store_memory hq
    · simpa [Fleet.view] using hdata
    · simpa [Fleet.view] using hlt
    · refine .writing (by simp) (by simp) ?_ ?_
      · simp [slotWrite, hparent, Fleet.view, Fleet.job]
      · obtain ⟨bytes, hrec, hload⟩ := hsource
        refine ⟨bytes, ?_, fun i hi => ?_⟩
        · rw [SlotRecord.update_source hstatus (.inl ht), hrec]
          simp [slotRead, Fleet.view]
        · simp only [Fleet.view, CopyScheduler.deferred_blockCopyJobs,
            CopyScheduler.setBlock_blockCopyJobs, Function.update_self] at hi ⊢
          rw [SharedState.memset, SharedState.store_load hdata, if_neg (by omega)]
          exact hload i hi

theorem writeFinished (h : Clean w r) (hl : Ledger (w.scheds k)) {rec : SlotRecord}
    (huse : ((w.scheds k).blockCopyJobs s).inUse = true)
    (hstatus : ((w.scheds k).blockCopyJobs s).status = 0) :
    Clean (w.put k ((w.view k).writeFinished cfg s)) (Function.update r (k, s) rec) := by
  have hs := hl.notMem_pending_of_status (s := s) (by rw [hstatus]; decide)
  have hparent := (hl.owner s huse).1
  obtain ⟨hdata, hlt, -⟩ := h.slot k s huse
  rw [State.writeFinished]
  dsimp only
  split
  · refine h.stage hs ⟨rfl, fun t ht => ?_⟩ rfl (fun t hne hp => ?_) ?_ ?_ ?_ (fun q hq => ?_)
      fun waits => ⟨?_, ?_, ?_⟩
    · exact Function.update_of_ne ht ..
    · exact mem_pending_of_deferred hne hp
    · simp [CopyScheduler.data, Fleet.data, Fleet.view]
    · simpa [Fleet.view] using huse
    · exact SharedState.store_allocated
    · exact SharedState.store_memory hq
    · simpa [Fleet.view] using hdata
    · simpa [Fleet.view] using hlt
    · refine .readingDst (by simp) (by simp) ?_
      simp [slotRead, hparent, Fleet.view, Fleet.job]
  · refine h.stage hs ⟨rfl, fun t ht => ?_⟩ rfl (fun t _ => id) ?_ ?_ rfl (fun _ _ => rfl)
      fun waits => ⟨?_, ?_, ?_⟩
    · exact Function.update_of_ne ht ..
    · simp [CopyScheduler.data, Fleet.data, Fleet.view]
    · simpa [Fleet.view] using huse
    · simpa [Fleet.view] using hdata
    · simpa [Fleet.view] using hlt
    · exact .finished (by simp) (by simp)

/-- The slot is cleared and its buffer given back. -/
theorem clear (h : Clean w r) {rec : SlotRecord} {d : CopyScheduler nFile nBlock}
    {sh : SharedState} (hs : s ∉ (w.scheds k).held.map Prod.fst)
    (hblocks : d.blockCopyJobs = Function.update (w.scheds k).blockCopyJobs s {})
    (hheld : d.held = (w.scheds k).held)
    (hjobs : ∀ f, (d.fileCopyJobs f).srcFd = (w.job k f).srcFd ∧
      (d.fileCopyJobs f).dstFd = (w.job k f).dstFd)
    (hpending : ∀ t ≠ s, t ∈ d.pending → t ∈ (w.scheds k).pending)
    (hmem : sh.memory = w.shared.memory)
    (halloc : sh.allocated = match w.data (k, s) with
      | none => w.shared.allocated
      | some p => Function.update w.shared.allocated p false) :
    Clean (w.put k ⟨d, sh⟩) (Function.update r (k, s) rec) := by
  have hother : (w.scheds k).AgreesOff d s :=
    ⟨hheld, fun t ht => by rw [hblocks, Function.update_of_ne ht]⟩
  have hnone : d.data s = none := by rw [CopyScheduler.data, hblocks, Function.update_self]
  refine h.put_slot ⟨d, sh⟩ hother.2 (fun t _ _ => hjobs t.1) hpending
    (fun q _ _ => by rw [hmem]) ?_ (fun _ => hnone) (fun e he => ?_)
    (fun x hx => Function.update_of_ne hx ..) fun huse => ?_
  · dsimp only
    rw [hnone]
    cases hd : w.data (k, s) with
    | none =>
      simp only [hd] at halloc
      rw [halloc, ← hd, Function.update_eq_self]
      exact h.own
    | some p =>
      simp only [hd] at halloc
      rw [halloc]
      exact h.own.free hd
  · rw [hheld] at he
    rw [hother.2 e.1 fun he' => hs (List.mem_map.mpr ⟨e, he, he'⟩)]
    exact h.current k e he
  · simp [hblocks] at huse

theorem issuedBlock_cb {st : State nFile nBlock} {f : Fin nFile} {data : Option Ptr} :
    (st.issuedBlock f s data).cb =
      slotRead (st.sched.fileCopyJobs f).srcFd (st.issuedBlock f s data) := by
  simp only [State.issuedBlock, slotRead]
  simp only [State.startBlock]

theorem issuedBlock_nbytes_lt {st : State nFile nBlock} {f : Fin nFile} {data : Option Ptr} :
    (st.issuedBlock f s data).nbytes < 2 ^ 63 := by
  have hsize := (st.sched.fileCopyJobs f).stx.size_lt
  have hle : (st.issuedBlock f s data).nbytes ≤ (st.sched.fileCopyJobs f).stx.stx_size := by
    simp only [State.issuedBlock, State.startBlock]
    exact (Nat.min_le_right ..).trans (Nat.sub_le ..)
  exact hle.trans_lt hsize

/-- A free slot, with the buffer it has got, takes up a block and reads it. -/
theorem issue (h : Clean w r) {rec : SlotRecord} {st : State nFile nBlock} {sh : SharedState}
    {data : Option Ptr} (hs : s ∉ (w.scheds k).pending) (hdata : data.isSome = true)
    (hblocks : ∀ t ≠ s, st.sched.blockCopyJobs t = (w.scheds k).blockCopyJobs t)
    (hqueues : st.sched.cbBatch = (w.scheds k).cbBatch ∧ st.sched.held = (w.scheds k).held)
    (hjobs : ∀ f, (st.sched.fileCopyJobs f).srcFd = (w.job k f).srcFd ∧
      (st.sched.fileCopyJobs f).dstFd = (w.job k f).dstFd)
    (hmem : ∀ q, w.shared.allocated q = true → w.data (k, s) ≠ some q →
      sh.memory q = w.shared.memory q)
    (hown : Owns (Function.update w.data (k, s) data) sh.allocated) :
    Clean (w.put k ⟨st.sched.issue s.1 s (st.startBlock s.1 s data), sh⟩)
      (Function.update r (k, s) rec) := by
  have hself : (st.sched.issue s.1 s (st.startBlock s.1 s data)).blockCopyJobs s =
      st.issuedBlock s.1 s data := by rw [State.issue_blockCopyJobs, Function.update_self]
  have hother : (w.scheds k).AgreesOff (st.sched.issue s.1 s (st.startBlock s.1 s data)) s :=
    ⟨hqueues.2, fun t ht => by rw [State.issue_blockCopyJobs, Function.update_of_ne ht, hblocks t ht]⟩
  have hfds : ∀ f, ((st.sched.issue s.1 s (st.startBlock s.1 s data)).fileCopyJobs f).srcFd =
      (w.job k f).srcFd ∧ ((st.sched.issue s.1 s (st.startBlock s.1 s data)).fileCopyJobs f).dstFd =
      (w.job k f).dstFd := by
    intro f
    by_cases hf : f = s.1
    · subst hf
      simpa [State.issue_fileCopyJobs] using hjobs s.1
    · simpa [State.issue_fileCopyJobs, hf] using hjobs f
  have hnew : (st.sched.issue s.1 s (st.startBlock s.1 s data)).data s = data := by
    rw [CopyScheduler.data, hself, State.issuedBlock_data]
  refine h.put_slot ⟨_, sh⟩ hother.2 (fun t _ _ => hfds t.1) (fun t ht hp => ?_) hmem ?_
    (fun hfree => ?_) ((h.current k).of_agreesOff hs hother)
    (fun x hx => Function.update_of_ne hx ..) fun _ => ⟨?_, ?_, ?_⟩
  · refine mem_pending_of_deferred (d := w.scheds k) ht ?_
    simpa only [CopyScheduler.pending, CopyScheduler.issue, CopyScheduler.setHistory_cbBatch,
      CopyScheduler.setFile_cbBatch, CopyScheduler.deferred_cbBatch,
      CopyScheduler.setBlock_cbBatch, CopyScheduler.setHistory_held, CopyScheduler.setFile_held,
      CopyScheduler.deferred_held, CopyScheduler.setBlock_held, hqueues.1, hqueues.2] using hp
  · rw [hnew]
    exact hown
  · simp [hself] at hfree
  · rw [hself]
    exact hdata
  · rw [hself]
    exact issuedBlock_nbytes_lt
  · rw [hself]
    refine .reading ?_ ?_ ?_
    · simp only [State.issuedBlock, State.startBlock, CopyScheduler.nextBlock]
    · simp only [State.issuedBlock, State.startBlock, CopyScheduler.nextBlock]
    · rw [(hfds s.1).1, ← (hjobs s.1).1, issuedBlock_cb]

/-- The allocated buffers after the buffer of a slot has been given back. -/
theorem freed_allocated {st : State nFile nBlock} (f : Fin nFile) :
    (st.freed f s).allocated = match st.sched.data s with
      | none => st.shared.allocated
      | some p => Function.update st.shared.allocated p false := by
  rw [State.freed, CopyScheduler.data]
  cases (st.sched.blockCopyJobs s).data <;> rfl

theorem freed_memory {st : State nFile nBlock} (f : Fin nFile) :
    (st.freed f s).memory = st.shared.memory := by
  rw [State.freed]
  cases (st.sched.blockCopyJobs s).data <;> rfl

theorem requestFailed (h : Clean w r) (hl : Ledger (w.scheds k)) {rec : SlotRecord}
    (hstatus : ((w.scheds k).blockCopyJobs s).status ≠ einprogress) :
    Clean (w.put k ((w.view k).requestFailed s.1 s)) (Function.update r (k, s) rec) := by
  have hs := hl.notMem_pending_of_status hstatus
  rw [State.requestFailed, State.clear_eq]
  refine h.clear (fun hm => hs (List.mem_append_right _ hm)) rfl rfl (fun f => ?_)
    (fun t _ => id) (freed_memory _) (freed_allocated _)
  by_cases hf : f = s.1
  · subst hf
    simp [Fleet.view, Fleet.job]
  · simp [Fleet.view, Fleet.job, hf]

/-- A slot that keeps its buffer takes up the next block, or gives the buffer back when
there is none. -/
theorem reschedule (h : Clean w r) {rec : SlotRecord} {st : State nFile nBlock}
    {b : BlockCopyJob nFile} (hs : s ∉ (w.scheds k).pending)
    (hblocks : st.sched.blockCopyJobs = Function.update (w.scheds k).blockCopyJobs s b)
    (hqueues : st.sched.cbBatch = (w.scheds k).cbBatch ∧ st.sched.held = (w.scheds k).held)
    (hjobs : ∀ f, (st.sched.fileCopyJobs f).srcFd = (w.job k f).srcFd ∧
      (st.sched.fileCopyJobs f).dstFd = (w.job k f).dstFd)
    (hshared : st.shared = w.shared) (hdata : b.data = w.data (k, s)) (hsome : b.data.isSome = true) :
    Clean (w.put k (st.schedulerScheduleBlockCopyJob s.1 s none true))
      (Function.update r (k, s) rec) := by
  have hb : st.sched.data s = w.data (k, s) := by
    rw [CopyScheduler.data, hblocks, Function.update_self, hdata]
  rw [State.schedule_preallocated]
  split
  · refine h.clear (fun hm => hs (List.mem_append_right _ hm)) ?_ hqueues.2 hjobs
      (fun t _ ht => ?_) ?_ ?_
    · rw [CopyScheduler.setBlock_blockCopyJobs, hblocks, Function.update_idem]
    · rwa [CopyScheduler.pending, CopyScheduler.setBlock_cbBatch, CopyScheduler.setBlock_held,
        hqueues.1, hqueues.2] at ht
    · rw [freed_memory, hshared]
    · rw [freed_allocated, hshared, hb]
  · refine h.issue hs ?_ (fun t ht => ?_) hqueues hjobs (fun q _ _ => by rw [hshared]) ?_
    · rwa [hblocks, Function.update_self]
    · rw [hblocks, Function.update_of_ne ht]
    · rw [hblocks, Function.update_self, hdata, Function.update_eq_self, hshared]
      exact h.own

theorem blockFinished (h : Clean w r) (hl : Ledger (w.scheds k)) {rec : SlotRecord}
    (huse : ((w.scheds k).blockCopyJobs s).inUse = true)
    (hstatus : ((w.scheds k).blockCopyJobs s).status = 0) :
    Clean (w.put k ((w.view k).blockFinished cfg s.1 s)) (Function.update r (k, s) rec) := by
  have hs := hl.notMem_pending_of_status (s := s) (by rw [hstatus]; decide)
  rw [State.blockFinished, State.clear_nofree_eq]
  refine h.reschedule hs rfl ⟨rfl, rfl⟩ (fun f => ?_) rfl rfl (h.slot k s huse).data
  by_cases hf : f = s.1
  · subst hf
    simp [Fleet.view, Fleet.job]
  · simp [Fleet.view, Fleet.job, hf]

theorem updateSlot (h : Clean w r) (hl : Ledger (w.scheds k))
    (huse : ((w.scheds k).blockCopyJobs s).inUse = true) :
    Clean (w.put k ((w.view k).schedulerUpdateBlockCopyJob cfg s.1 s))
      (Function.update r (k, s) ((r (k, s)).update ((w.scheds k).blockCopyJobs s))) := by
  have hbusy : ((w.scheds k).blockCopyJobs s).status = einprogress →
      Clean (w.put k ((w.view k).schedulerUpdateBlockCopyJob cfg s.1 s))
        (Function.update r (k, s) ((r (k, s)).update ((w.scheds k).blockCopyJobs s))) := by
    intro hstatus
    rw [State.update_busy hstatus, Fleet.put_view_self, SlotRecord.update_busy hstatus,
      Function.update_eq_self]
    exact h
  have hfinished : ((w.scheds k).blockCopyJobs s).status = 0 → ∀ rec,
      Clean (w.put k ((w.view k).blockFinished cfg s.1 s)) (Function.update r (k, s) rec) :=
    fun hstatus rec => h.blockFinished hl huse hstatus
  cases (h.slot k s huse).origin with
  | reading _ hstatus => exact hbusy hstatus
  | writing _ hstatus => exact hbusy hstatus
  | readingDst _ hstatus => exact hbusy hstatus
  | haveRead ht hstatus _ hsource =>
    rw [State.schedulerUpdateBlockCopyJob]
    simp only [Fleet.view, hstatus, ht, if_true]
    exact h.readFinished hl huse ht hstatus hsource
  | haveWritten ht hstatus =>
    rw [State.schedulerUpdateBlockCopyJob]
    simp only [Fleet.view, hstatus, ht, if_true]
    exact h.writeFinished hl huse hstatus
  | haveReadDst ht hstatus =>
    rw [State.schedulerUpdateBlockCopyJob]
    simp only [Fleet.view, hstatus, ht, if_true]
    exact hfinished hstatus _
  | finished ht hstatus =>
    rw [State.schedulerUpdateBlockCopyJob]
    simp only [Fleet.view, hstatus, ht, if_true]
    exact hfinished hstatus _
  | failed hstatus =>
    by_cases hprogress : ((w.scheds k).blockCopyJobs s).status = einprogress
    · exact hbusy hprogress
    · rw [State.schedulerUpdateBlockCopyJob]
      simp only [Fleet.view, hstatus, if_false, hprogress, ne_eq, not_false_eq_true, if_true]
      exact h.requestFailed hl hprogress

end Clean

/-- A status of success stands for a full count, unless the result was zero or wraps
around to zero. -/
theorem aioStatus_eq_zero {nbytes : ℕ} {res : ℤ} (hres : ¬ (res ≤ 0 ∧ (2 ^ 32 : ℤ) ∣ res))
    (h : aioStatus nbytes res = 0) : res = nbytes := by
  rw [aioStatus] at h
  split at h
  · rename_i hle
    have hdvd : ((2 ^ 32 : ℕ) : ℤ) ∣ -res := Int.dvd_of_bmod_eq_zero h
    exact absurd ⟨hle, by simpa using hdvd⟩ hres
  · split at h
    · simp [eio] at h
    · rename_i hne
      exact not_not.mp hne

section Transfer
variable {sh : SharedState} {cb : Iocb} {res : ℤ}

theorem transfer_allocated : (State.transfer sh cb res).allocated = sh.allocated := by
  rw [State.transfer]
  cases cb.opcode with
  | pread => exact SharedState.store_allocated
  | pwrite => rfl

theorem transfer_memory {q : Ptr} (hq : cb.buf ≠ some q) :
    (State.transfer sh cb res).memory q = sh.memory q := by
  rw [State.transfer]
  cases cb.opcode with
  | pread => exact SharedState.store_memory hq
  | pwrite => rfl

end Transfer

namespace Clean
variable {w : Fleet n nFile nBlock} {r : Record n nFile nBlock} {k : Fin n}
  {st' : State nFile nBlock} {s : Slot nFile nBlock} {cfg : Config} {res : ℤ} {cb : Iocb}

theorem record_complete (h : Clean w r) (hheld : (s, cb) ∈ (w.scheds k).held) :
    record w (k, .complete s res) r = Function.update r (k, s) ((r (k, s)).complete w.shared
      ((w.scheds k).blockCopyJobs s).type ((w.scheds k).blockCopyJobs s).cb res) := by
  rw [record]
  dsimp only
  cases hfind : (w.scheds k).held.find? fun e => e.1 = s with
  | none => simpa using List.find?_eq_none.mp hfind _ hheld
  | some e =>
    obtain ⟨t, cb'⟩ := e
    have ht : t = s := by simpa using List.find?_some hfind
    subst ht
    have hcb := h.current k _ (List.mem_of_find?_eq_some hfind)
    dsimp only at hcb ⊢
    rw [hcb]

/-- The slot whose request completes can account for the bytes it has then. -/
theorem attested_complete {sh : SharedState} {job : FileCopyJob} {b : BlockCopyJob nFile}
    {rec : SlotRecord} {waits waits' : Prop} (hres : ¬ (res ≤ 0 ∧ (2 ^ 32 : ℤ) ∣ res))
    (h : Attested sh job b rec waits) (hwaits : waits) (hidle : ¬ waits')
    (hbusy : b.status = einprogress) :
    Attested (State.transfer sh b.cb res) job { b with status := aioStatus b.cb.nbytes res }
      (rec.complete sh b.type b.cb res) waits' := by
  refine ⟨h.data, h.nbytes_lt, ?_⟩
  by_cases hzero : aioStatus b.cb.nbytes res = 0
  · have hfull := aioStatus_eq_zero hres hzero
    have hcomplete : FullyCompleted { b with status := aioStatus b.cb.nbytes res }
        (rec.complete sh b.type b.cb res) := by
      rw [hfull]
      rfl
    cases h.origin with
    | reading ht hs hcb =>
      refine .haveRead ht hzero hcomplete ⟨fun i => (sh.files b.cb.fd).byte (b.cb.offset + i), ?_, ?_⟩
      · rw [SlotRecord.complete, if_pos ⟨ht, hfull⟩, hcb]
        rfl
      · intro i hi
        dsimp only at hi ⊢
        rw [hfull, hcb, State.transfer]
        simp only [slotRead, Int.toNat_natCast, min_self]
        rw [SharedState.store_load h.data, if_pos ⟨Nat.zero_le i, hi⟩]
    | writing ht => exact .haveWritten ht hzero hcomplete
    | readingDst ht => exact .haveReadDst ht hzero hcomplete
    | haveRead _ hs => simp [hbusy, einprogress] at hs
    | haveWritten _ hs => simp [hbusy, einprogress] at hs
    | haveReadDst _ hs => simp [hbusy, einprogress] at hs
    | finished _ hs => simp [hbusy, einprogress] at hs
    | failed _ hno => exact absurd hwaits hno
  · exact .failed hzero hidle

theorem ioComplete (h : Clean w r) (hl : Ledger (w.scheds k))
    (hres : ¬ (res ≤ 0 ∧ (2 ^ 32 : ℤ) ∣ res)) (hc : (w.view k).ioComplete s res = some st') :
    Clean (w.put k st') (record w (k, .complete s res) r) := by
  obtain ⟨cb, hheld, hsh, hst⟩ := State.ioComplete_cases hc
  have hcb : cb = ((w.scheds k).blockCopyJobs s).cb := h.current k _ hheld
  have hmem : s ∈ (w.scheds k).held.map Prod.fst := List.mem_map.mpr ⟨_, hheld, rfl⟩
  obtain ⟨hgone, hsub⟩ := hl.pending_complete hmem
  obtain ⟨huse, hbusy⟩ := hl.pending s (List.mem_append_right _ hmem)
  have hslot := h.slot k s huse
  have hbuf : cb.buf = w.data (k, s) := by
    rw [hcb]
    cases hslot.origin with
    | reading _ _ hcb => rw [hcb]; rfl
    | writing _ _ hcb => rw [hcb]; rfl
    | readingDst _ _ hcb => rw [hcb]; rfl
    | haveRead _ hs => simp [hbusy, einprogress] at hs
    | haveWritten _ hs => simp [hbusy, einprogress] at hs
    | haveReadDst _ hs => simp [hbusy, einprogress] at hs
    | finished _ hs => simp [hbusy, einprogress] at hs
    | failed _ hno => exact absurd (List.mem_append_right _ hmem) hno
  obtain ⟨d', sh'⟩ := st'
  obtain rfl : sh' = _ := hsh
  obtain rfl : d' = _ := hst
  rw [h.record_complete hheld, hcb]
  refine h.put_slot (s := s) _ (fun t ht => ?_) (fun t _ _ => ⟨rfl, rfl⟩) (fun t _ ht => ?_)
    (fun q _ hq => ?_) ?_ (fun hfree => ?_) (fun e he => ?_)
    (fun x hx => Function.update_of_ne hx ..) fun _ => ?_
  · simp [Fleet.view, ht]
  · exact hsub.subset ht
  · exact transfer_memory (by rwa [← hcb, hbuf])
  · rw [transfer_allocated]
    have hsame : w.data (k, s) = ((w.scheds k).blockCopyJobs s).data := rfl
    simp only [CopyScheduler.data, Fleet.view, CopyScheduler.setHistory_blockCopyJobs,
      CopyScheduler.setBlock_blockCopyJobs, Function.update_self]
    rw [← hsame, Function.update_eq_self]
    exact h.own
  · simp [Fleet.view, huse] at hfree
  · have hne : e.1 ≠ s := fun he' =>
      hgone (List.mem_append_right _ (List.mem_map.mpr ⟨e, he, he'⟩))
    simp only [Fleet.view, CopyScheduler.setHistory_blockCopyJobs,
      CopyScheduler.setBlock_blockCopyJobs, Function.update_of_ne hne]
    exact h.current k e (List.mem_of_mem_eraseP he)
  · rw [Function.update_self]
    simp only [Fleet.view, CopyScheduler.setHistory_blockCopyJobs,
      CopyScheduler.setBlock_blockCopyJobs, Function.update_self]
    exact attested_complete hres hslot (List.mem_append_right _ hmem) hgone hbusy

/-- A step that touches no slot: requests move, and entries without slots change. -/
theorem put_quiet (h : Clean w r) {d : CopyScheduler nFile nBlock} {sh : SharedState}
    (hblocks : d.blockCopyJobs = (w.scheds k).blockCopyJobs)
    (hpending : ∀ t ∈ d.pending, t ∈ (w.scheds k).pending) (hcur : Current d)
    (hjobs : ∀ t, ((w.scheds k).blockCopyJobs t).inUse = true →
      d.fileCopyJobs t.1 = w.job k t.1)
    (hmem : sh.memory = w.shared.memory) (halloc : sh.allocated = w.shared.allocated) :
    Clean (w.put k ⟨d, sh⟩) r := by
  have hdata : (w.put k ⟨d, sh⟩).data = w.data := by
    funext x
    by_cases hx : x.1 = k
    · simp [Fleet.data, Fleet.put, CopyScheduler.data, hx, hblocks]
    · simp [Fleet.data, Fleet.put, hx]
  refine h.put ?_ (fun t ht => ?_) hcur (fun _ _ _ => rfl) (fun _ _ _ q _ => by rw [hmem])
    fun t ht => ?_
  · rw [hdata]
    exact halloc ▸ h.own
  · simp only [CopyScheduler.data, hblocks] at ht ⊢
    exact h.idle k t ht
  · simp only [hblocks] at ht ⊢
    rw [hjobs t ht]
    exact (h.slot k t ht).frame rfl rfl (fun q _ => by rw [hmem]) (hpending t)

/-- A free slot gets a buffer and takes up the next block, unless there is none of either. -/
theorem schedule (h : Clean w r) (hl : Ledger (w.scheds k))
    (hfree : ((w.scheds k).blockCopyJobs s).inUse = false) (malloc : Option (Ptr × (ℕ → UInt8))) :
    Clean (w.put k ((w.view k).schedulerScheduleBlockCopyJob s.1 s malloc false)) r := by
  have hs := hl.notMem_pending_of_free hfree
  have hnone : w.data (k, s) = none := h.idle k s hfree
  rw [← Function.update_eq_self (k, s) r]
  have hdata : ((w.view k).sched.blockCopyJobs s).data = none := hnone
  rcases State.schedule_cases (f := s.1) hdata malloc with
    ⟨sh, heq, halloc, hmem, -, -⟩ | ⟨-, p, bytes, sh, heq, hp, halloc, hmem, -, -⟩
  · rw [heq]
    refine h.clear (fun hm => hs (List.mem_append_right _ hm)) rfl rfl (fun f => ⟨rfl, rfl⟩)
      (fun t _ => id) hmem ?_
    simp only [hnone]
    exact halloc
  · rw [heq]
    refine h.issue hs rfl (fun t _ => rfl) ⟨rfl, rfl⟩ (fun f => ⟨rfl, rfl⟩) (fun q hq _ => ?_) ?_
    · have hqp : q ≠ p := by
        rintro rfl
        simp [Fleet.view, hq] at hp
      rw [hmem, Function.update_of_ne hqp]
      rfl
    · rw [halloc]
      exact h.own.alloc hp

theorem completeOrSchedule (h : Clean w r) (hl : Ledger (w.scheds k)) {f : Fin nFile}
    (hactive : ((w.scheds k).fileCopyJobs f).active = true)
    (malloc : Option (Ptr × (ℕ → UInt8))) :
    Clean (w.put k ((w.view k).completeOrSchedule f malloc)) r := by
  by_cases hdone : ((w.view k).sched.fileCopyJobs f).blockCount ≤
      ((w.view k).sched.fileCopyJobs f).nBlockJobsFinished
  · have hfree := hl.free_of_complete hactive hdone
    rw [State.completeOrSchedule_done malloc hdone hfree]
    refine h.put_quiet rfl (fun t => id) (h.current k) (fun t ht => ?_) rfl rfl
    have hne : t.1 ≠ f := fun he => by
      have hno := hfree t.2
      rw [← he] at hno
      simp [hno] at ht
    simp [Fleet.view, Fleet.job, hne]
  · rcases State.completeOrSchedule_cases malloc hdone with heq | ⟨j, hfree, heq⟩
    · rw [heq, Fleet.put_view_self]
      exact h
    · rw [heq]
      exact h.schedule (s := (f, j)) hl hfree malloc

theorem acceptJob (h : Clean w r) (hl : Ledger (w.scheds k)) {f : Fin nFile}
    (hactive : ((w.scheds k).fileCopyJobs f).active = false) (newJob : FileCopyJob) :
    Clean (w.put k ((w.view k).acceptJob f newJob)) r := by
  refine h.put_quiet rfl (fun t => id) (h.current k) (fun t ht => ?_) rfl rfl
  have hne : t.1 ≠ f := fun he => by
    have hno := (hl.owner t ht).2
    rw [he, hactive] at hno
    cases hno
  simp [Fleet.view, Fleet.job, hne]

/-- The first request of the batch is failed: its slot is cleared and leaves the batch. -/
theorem failRequest {st : State nFile nBlock} {l : List (Slot nFile nBlock)}
    (h : Clean (w.put k ⟨{ st.sched with cbBatch := s :: l }, st.shared⟩) r)
    (hl : Ledger { st.sched with cbBatch := s :: l }) :
    Clean (w.put k ⟨{ (st.failRequest s).sched with cbBatch := l }, (st.failRequest s).shared⟩)
      r := by
  have hparent := (hl.owner s (hl.pending s (by simp [CopyScheduler.pending])).1).1
  have hn := hl.nodup
  rw [CopyScheduler.pending] at hn
  dsimp only at hparent hn
  rw [List.cons_append, List.nodup_cons] at hn
  have hsched : (w.put k ⟨{ st.sched with cbBatch := s :: l }, st.shared⟩).scheds k =
      { st.sched with cbBatch := s :: l } := by simp [Fleet.put]
  rw [State.failRequest, hparent, ← Function.update_eq_self (k, s) r,
    ← Fleet.put_put w k ⟨{ st.sched with cbBatch := s :: l }, st.shared⟩]
  dsimp only
  rw [State.clear_eq]
  refine h.clear (fun hm => ?_) ?_ ?_ (fun f => ?_) (fun t _ ht => ?_) (freed_memory _) ?_
  · rw [hsched] at hm
    exact hn.1 (List.mem_append_right _ hm)
  · rw [hsched]
    rfl
  · rw [hsched]
    rfl
  · rw [Fleet.job, hsched]
    by_cases hf : f = s.1
    · subst hf
      simp
    · simp [hf]
  · rw [hsched]
    exact List.mem_cons_of_mem s ht
  · rw [Fleet.data, hsched]
    exact freed_allocated _

theorem failBatch (l : List (Slot nFile nBlock)) {st : State nFile nBlock}
    (h : Clean (w.put k ⟨{ st.sched with cbBatch := l }, st.shared⟩) r)
    (hl : Ledger { st.sched with cbBatch := l }) :
    Clean (w.put k ⟨{ (l.foldl State.failRequest st).sched with cbBatch := [] },
      (l.foldl State.failRequest st).shared⟩) r := by
  induction l generalizing st with
  | nil => exact h
  | cons s l ih => exact ih (failRequest h hl) hl.failRequest

theorem submit (h : Clean w r) (hl : Ledger (w.scheds k)) (submitted : ℤ) :
    Clean (w.put k ((w.view k).schedIOSubmitBatch submitted).2) r := by
  have hself : Clean (w.put k (w.view k)) r := by rwa [Fleet.put_view_self]
  rw [State.schedIOSubmitBatch]
  dsimp only
  split
  · exact hself
  · split
    · exact failBatch _ hself hl
    · refine h.put_quiet rfl (fun t ht => ?_) (fun e he => ?_) (fun t _ => rfl) rfl rfl
      · simp only [CopyScheduler.pending, List.mem_append, List.map_append, List.map_map] at ht ⊢
        rcases ht with ht | ht | ht
        · exact .inl (List.mem_of_mem_drop ht)
        · exact .inr ht
        · exact .inl (List.mem_of_mem_take (by simpa [Function.comp_def, Fleet.view] using ht))
      · rcases List.mem_append.mp he with he | he
        · exact h.current k e he
        · obtain ⟨t, -, rfl⟩ := List.mem_map.mp he
          rfl

end Clean

end Copy2.Scheduler
