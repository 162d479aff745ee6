import Copy2.Scheduler.Answered
import Copy2.Scheduler.Kept
import Copy2.Scheduler.Offsets
import Copy2.Scheduler.Buffers

/-! # Every copy arrives

As long as an entry has blocks before it, some step of its scheduler lowers what remains: a
request is answered, a slot that has its answer goes on, or a free slot takes up a block. So
every file job can be brought to the finish queue. -/
namespace Copy2.Scheduler
open FileJob Lib

variable {nFile nBlock n : ℕ} {cfg : Config}

/-- The requests that a block still has before it, at most. -/
def stages : RW → ℕ
  | .read => 3
  | .write => 2
  | .readDst | .finish => 1

/-- What remains to be done about the block of a slot: its requests and their evaluations. -/
def weight (b : BlockCopyJob nFile) : ℕ :=
  if b.inUse then 2 * stages b.type - 1 + (if b.status = einprogress then 1 else 0) else 0

/-- What remains to be done about a file: a block that no slot has taken up weighs more than
any slot. -/
def remaining (d : CopyScheduler nFile nBlock) (f : Fin nFile) : ℕ :=
  7 * ((d.fileCopyJobs f).blockCount - d.total f) + ∑ j, weight (d.blockCopyJobs (f, j))

section Weight
variable {d d' : CopyScheduler nFile nBlock} {s : Slot nFile nBlock} {b : BlockCopyJob nFile}

theorem weight_free (h : b.inUse = false) : weight b = 0 := by
  rw [weight, h, if_neg Bool.false_ne_true]

theorem weight_pos (h : b.inUse = true) : 0 < weight b := by
  rw [weight, if_pos h]
  cases b.type <;> simp [stages]

theorem weight_le (b : BlockCopyJob nFile) : weight b ≤ 6 := by
  rw [weight]
  split
  · cases b.type <;> simp only [stages] <;> split <;> omega
  · omega

theorem sum_weight (hoff : ∀ t ≠ s, d'.blockCopyJobs t = d.blockCopyJobs t) :
    ∑ j, weight (d'.blockCopyJobs (s.1, j)) + weight (d.blockCopyJobs s) =
      ∑ j, weight (d.blockCopyJobs (s.1, j)) + weight (d'.blockCopyJobs s) :=
  sum_add_of_one (f := fun j => weight (d.blockCopyJobs (s.1, j)))
    (g := fun j => weight (d'.blockCopyJobs (s.1, j))) s.2 fun j hj => by
      rw [hoff (s.1, j) fun he => hj (congrArg Prod.snd he)]

/-- The block of one slot comes further, and the sum of the counters stays. -/
theorem remaining_lt_of_stage (hoff : ∀ t ≠ s, d'.blockCopyJobs t = d.blockCopyJobs t)
    (hcount : (d'.fileCopyJobs s.1).blockCount = (d.fileCopyJobs s.1).blockCount)
    (htotal : d'.total s.1 = d.total s.1)
    (hw : weight (d'.blockCopyJobs s) < weight (d.blockCopyJobs s)) :
    remaining d' s.1 < remaining d s.1 := by
  have hsum := sum_weight hoff
  rw [remaining, remaining, hcount, htotal]
  omega

/-- One slot takes up another block of the file. -/
theorem remaining_lt_of_issue (hoff : ∀ t ≠ s, d'.blockCopyJobs t = d.blockCopyJobs t)
    (hcount : (d'.fileCopyJobs s.1).blockCount = (d.fileCopyJobs s.1).blockCount)
    (htotal : d'.total s.1 = d.total s.1 + 1)
    (hlt : d.total s.1 < (d.fileCopyJobs s.1).blockCount) :
    remaining d' s.1 < remaining d s.1 := by
  have hsum := sum_weight hoff
  have hw := weight_le (d'.blockCopyJobs s)
  rw [remaining, remaining, hcount, htotal]
  omega

end Weight

section Progress
variable {st : State nFile nBlock} {s : Slot nFile nBlock} {f : Fin nFile}

/-- The slot is given its next block or gives its place up; either way less remains of the file
than with the block that is counted now. -/
theorem blockFinished_remaining (h : Ledger st.sched)
    (huse : (st.sched.blockCopyJobs s).inUse = true)
    (hstatus : (st.sched.blockCopyJobs s).status = 0) :
    remaining (st.blockFinished cfg s.1 s).sched s.1 < remaining st.sched s.1 := by
  have hs := h.notMem_pending_of_status (s := s) (by rw [hstatus]; decide)
  set st₁ := counted cfg st s with hst₁
  have hledger : Ledger st₁.sched := by
    rw [hst₁, counted, State.clear_nofree_eq]
    exact h.release hs huse rfl rfl
  have htotal : st₁.sched.total s.1 = st.sched.total s.1 := by
    rw [hst₁, counted, State.clear_nofree_eq]
    exact h.total_setFile_release huse rfl s.1
  have hfixed : st₁.sched.fixed s.1 = st.sched.fixed s.1 := by
    rw [hst₁, counted, State.clear_nofree_eq]
    exact CopyScheduler.fixed_setFile (d := st.sched) rfl
  have hcount : (st₁.sched.fileCopyJobs s.1).blockCount = (st.sched.fileCopyJobs s.1).blockCount :=
    (congrArg FileCopyJob.blockCount hfixed :)
  have hactive : (st₁.sched.fileCopyJobs s.1).active = true :=
    (congrArg FileCopyJob.active hfixed :).trans (h.owner s huse).2
  have hsize : (st₁.sched.fileCopyJobs s.1).blockSize = (st.sched.fileCopyJobs s.1).blockSize :=
    (congrArg FileCopyJob.blockSize hfixed :)
  have hpos : 0 < (st₁.sched.fileCopyJobs s.1).blockSize := hsize ▸ h.blockSize_pos huse
  have hoff : ∀ t ≠ s, st₁.sched.blockCopyJobs t = st.sched.blockCopyJobs t := fun t ht => by
    rw [hst₁, counted, State.clear_nofree_eq]
    simp [ht]
  have hfree : weight (st₁.sched.blockCopyJobs s) = 0 := by
    rw [hst₁, counted, State.clear_nofree_eq]
    exact weight_free (by simp)
  have hlower : remaining st₁.sched s.1 < remaining st.sched s.1 :=
    remaining_lt_of_stage hoff hcount htotal (hfree ▸ weight_pos huse)
  rw [blockFinished_eq, ← hst₁]
  rcases st₁.schedule_sched s.1 s none true with heq | ⟨hlt, data, heq⟩ <;> rw [heq]
  · refine remaining_lt_of_stage (fun t ht => ?_) hcount htotal ?_
    · rw [CopyScheduler.setBlock_blockCopyJobs, Function.update_of_ne ht, hoff t ht]
    · rw [CopyScheduler.setBlock_blockCopyJobs, Function.update_self, weight_free rfl]
      exact weight_pos huse
  · refine (remaining_lt_of_issue (s := s) (d := st₁.sched) (fun t ht => ?_) ?_ ?_ ?_).trans hlower
    · rw [State.issue_blockCopyJobs, Function.update_of_ne ht]
    · rw [State.issue_fileCopyJobs, Function.update_self]
      rfl
    · rw [CopyScheduler.total_issue, if_pos rfl]
    · exact (hledger.total_lt hactive hpos hlt).1

theorem updateSlot_remaining (h : Ledger st.sched) (huse : (st.sched.blockCopyJobs s).inUse = true)
    (hstatus : (st.sched.blockCopyJobs s).status ≠ einprogress) :
    remaining (st.schedulerUpdateBlockCopyJob cfg s.1 s).sched s.1 < remaining st.sched s.1 := by
  obtain ⟨-, hoff⟩ : st.sched.AgreesOff (st.schedulerUpdateBlockCopyJob cfg s.1 s).sched s :=
    updateSlot_others cfg
  rw [State.schedulerUpdateBlockCopyJob] at hoff ⊢
  by_cases hzero : (st.sched.blockCopyJobs s).status = 0
  · rw [if_pos hzero] at hoff ⊢
    cases htype : (st.sched.blockCopyJobs s).type with
    | read =>
      have hw : weight (st.sched.blockCopyJobs s) = 5 := by
        simp [weight, stages, huse, htype, hzero, einprogress]
      rw [htype] at hoff
      dsimp only [State.readFinished] at hoff ⊢
      split at hoff <;> rename_i hcond
      · rw [if_pos hcond]
        exact remaining_lt_of_stage hoff rfl rfl
          (by rw [hw]; simp [weight, stages, huse, einprogress])
      · rw [if_neg hcond]
        exact remaining_lt_of_stage hoff rfl rfl (by rw [hw]; simp [weight, stages, huse])
    | write =>
      have hw : weight (st.sched.blockCopyJobs s) = 3 := by
        simp [weight, stages, huse, htype, hzero, einprogress]
      rw [htype] at hoff
      dsimp only [State.writeFinished] at hoff ⊢
      split at hoff <;> rename_i hcond
      · rw [if_pos hcond]
        exact remaining_lt_of_stage hoff rfl rfl (by rw [hw]; simp [weight, stages, huse])
      · rw [if_neg hcond]
        exact remaining_lt_of_stage hoff rfl rfl
          (by rw [hw]; simp [weight, stages, huse, einprogress])
    | readDst => exact blockFinished_remaining h huse hzero
    | finish => exact blockFinished_remaining h huse hzero
  · rw [if_neg hzero, if_pos hstatus] at hoff ⊢
    rw [State.requestFailed, State.clear_eq] at hoff ⊢
    refine remaining_lt_of_stage hoff ?_ (h.total_setFile_release huse rfl s.1) ?_
    · rw [CopyScheduler.setBlock_fileCopyJobs, CopyScheduler.setFile_fileCopyJobs,
        Function.update_self]
      rfl
    · rw [CopyScheduler.setBlock_blockCopyJobs, Function.update_self, weight_free rfl]
      exact weight_pos huse

theorem aioStatus_self (nbytes : ℕ) : aioStatus nbytes nbytes = 0 := by
  rcases Nat.eq_zero_or_pos nbytes with rfl | hpos
  · simp [aioStatus, toInt]
  · exact aioStatus_full hpos

/-- `io_submit` can take the whole batch. -/
theorem exists_held (cfg : Config) (hs : s ∈ st.sched.pending) : ∃ st' : State nFile nBlock,
    (scheduler cfg).next st (.submit st.sched.cbBatch.length) = some st' ∧
      st'.sched.fileCopyJobs = st.sched.fileCopyJobs ∧ Grows st.sched st'.sched ∧
      st'.sched.blockCopyJobs = st.sched.blockCopyJobs ∧ s ∈ st'.sched.held.map Prod.fst := by
  refine ⟨_, rfl, ?_, submit_grows _, ?_, ?_⟩ <;> rw [State.schedIOSubmitBatch] <;> dsimp only <;>
    split
  · rfl
  · rw [if_neg (by omega)]
  · rfl
  · rw [if_neg (by omega)]
  · rename_i hempty
    simpa [CopyScheduler.pending, hempty] using hs
  · rw [if_neg (by omega)]
    rw [CopyScheduler.pending, List.mem_append] at hs
    simp only [Int.toNat_natCast, List.take_length, List.map_append, List.map_map,
      List.mem_append]
    exact hs.symm.imp_right fun hbatch => List.mem_map.mpr ⟨s, hbatch, rfl⟩

/-- A request on its way can be answered in full. -/
theorem exists_answer (cfg : Config) (hs : s ∈ st.sched.pending) : ∃ st' : State nFile nBlock,
    (scheduler cfg).Run (fun _ op => op.Definite) st st' ∧
      st'.sched.fileCopyJobs = st.sched.fileCopyJobs ∧ Grows st.sched st'.sched ∧
      (∀ t ≠ s, st'.sched.blockCopyJobs t = st.sched.blockCopyJobs t) ∧
      st'.sched.blockCopyJobs s = { st.sched.blockCopyJobs s with status := 0 } := by
  obtain ⟨st₁, hsubmit, hjobs, hgrows, hblocks, hheld⟩ := exists_held cfg hs
  set nbytes := (st₁.sched.blockCopyJobs s).cb.nbytes with hn
  obtain ⟨st₂, hanswer⟩ : ∃ st₂, st₁.ioComplete s nbytes = some st₂ := by
    rw [State.ioComplete]
    cases hfind : st₁.sched.held.find? fun e => e.1 = s with
    | none =>
      obtain ⟨e, he, hes⟩ := List.mem_map.mp hheld
      exact absurd hes (by simpa using List.find?_eq_none.mp hfind e he)
    | some e => exact ⟨_, rfl⟩
  have hdefinite : (Op.complete s (nbytes : ℤ) : Op nFile nBlock).Definite := by
    rintro ⟨hle, hto⟩
    obtain hzero : nbytes = 0 := by omega
    rw [hzero] at hto
    exact absurd hto (by decide)
  obtain ⟨cb, -, -, hsched⟩ := State.ioComplete_cases hanswer
  refine ⟨st₂, .snoc (.single (a := .submit st.sched.cbBatch.length) trivial hsubmit)
    (a := .complete s nbytes) hdefinite hanswer, ?_, ?_, fun t ht => ?_, ?_⟩
  · rw [hsched, ← hjobs]
    rfl
  · exact fun f => (hgrows f).trans (ioComplete_grows hanswer f)
  · rw [hsched, ← hblocks]
    simp [ht]
  · rw [hsched, ← hblocks, ← hn, aioStatus_self]
    simp

/-- The entry still has its job, its history has lost nothing, and less remains to be done. -/
structure Closer (st st' : State nFile nBlock) (f : Fin nFile) : Prop where
  fixed : st'.sched.fixed f = st.sched.fixed f
  history : (st.sched.history f).Within (st'.sched.history f)
  less : remaining st'.sched f < remaining st.sched f

/-- A slot in use comes further. -/
theorem exists_closer_of_use (h : Answered st.sched)
    (huse : (st.sched.blockCopyJobs s).inUse = true) : ∃ st' : State nFile nBlock,
    (scheduler cfg).Run (fun _ op => op.Definite) st st' ∧ Closer st st' s.1 := by
  by_cases hstatus : (st.sched.blockCopyJobs s).status = einprogress
  · obtain ⟨st', hrun, hjobs, hgrows, hoff, hself⟩ :=
      exists_answer cfg (h.waits s huse hstatus)
    refine ⟨st', hrun, ?_, hgrows s.1, remaining_lt_of_stage hoff ?_ ?_ ?_⟩
    · rw [CopyScheduler.fixed, CopyScheduler.fixed, hjobs]
    · rw [hjobs]
    · rw [CopyScheduler.total, CopyScheduler.total, hjobs]
    · rw [hself, weight, weight, if_pos huse, if_pos huse, if_pos hstatus]
      exact Nat.lt_succ_self _
  · have hactive := (h.ledger.owner s huse).2
    have hnext : (scheduler cfg).next st (.updateSlot s) =
        some (st.schedulerUpdateBlockCopyJob cfg s.1 s) := if_pos (by rw [hactive, huse]; rfl)
    exact ⟨_, .single (a := .updateSlot s) trivial hnext, updateSlot_fixed cfg,
      updateSlot_grows cfg s.1, updateSlot_remaining h.ledger huse hstatus⟩

/-- A file without a slot in use takes one up, as the allocator has a buffer for it. -/
theorem exists_closer_of_free (h : Answered st.sched) (j : Fin nBlock)
    (hactive : (st.sched.fileCopyJobs f).active = true)
    (hmore : (st.sched.fileCopyJobs f).nBlockJobsFinished < (st.sched.fileCopyJobs f).blockCount)
    (hfree : ∀ j, (st.sched.blockCopyJobs (f, j)).inUse = false) {p : Ptr}
    (hp : st.shared.allocated p = false) : ∃ st' : State nFile nBlock,
    (scheduler cfg).Run (fun _ op => op.Definite) st st' ∧ Closer st st' f := by
  have hscheduled : (st.sched.fileCopyJobs f).nBlockJobsScheduled = 0 := by
    rw [h.ledger.scheduled f]
    exact count_eq_zero.mpr hfree
  have htotal : st.sched.total f = (st.sched.fileCopyJobs f).nBlockJobsFinished := by
    rw [CopyScheduler.total, hscheduled, Nat.add_zero]
  have hlt : st.sched.total f < (st.sched.fileCopyJobs f).blockCount := htotal ▸ hmore
  have hpos : 0 < (st.sched.fileCopyJobs f).blockSize :=
    blockSize_pos_of_incomplete (Nat.not_le.mpr hmore)
  have hfile := (lt_blockCount_iff hpos).mp hlt
  have hnumber : st.sched.total f < 2 ^ 31 := hlt.trans_le (h.count_le f hactive)
  let malloc : Option (Ptr × (ℕ → UInt8)) := some (p, fun _ => 0)
  obtain ⟨j', hj'⟩ := Option.isSome_iff_exists.mp (List.find?_isSome.mpr
    ⟨j, List.mem_finRange j, by simp [hfree j]⟩ :
      ((List.finRange nBlock).find? fun j => !(st.sched.blockCopyJobs (f, j)).inUse).isSome = true)
  have hnext : (scheduler cfg).next st (.updateFile f malloc) =
      some (st.schedulerScheduleBlockCopyJob f (f, j') malloc false) := by
    change State.apply cfg st (.updateFile f malloc) = _
    rw [State.apply, if_pos hactive, State.completeOrSchedule]
    simp only [hj', hscheduled]
    rw [if_neg (by omega), if_pos (by omega)]
  have hbuf : GetsBuffer st malloc false := .inr (by
    simp [SharedState.buddyMalloc, malloc, Option.filter, hp])
  have hoff : (st.sched.nextBlock f (f, j')).offset < (st.sched.fileCopyJobs f).stx.stx_size := by
    rw [nextBlock_offset_eq, FileJob.blockOffset_of_lt hfile (Statx.size_lt _) hnumber]
    exact hfile
  refine ⟨_, .single (a := .updateFile f malloc) trivial hnext, schedule_fixed ..,
    schedule_grows malloc false f, ?_⟩
  obtain ⟨data, hs⟩ := schedule_issued (s := (f, j')) hbuf hoff
  rw [hs]
  refine remaining_lt_of_issue (s := (f, j')) (fun t ht => ?_) ?_ ?_ hlt
  · rw [State.issue_blockCopyJobs, Function.update_of_ne ht]
  · rw [State.issue_fileCopyJobs, Function.update_self]
    rfl
  · rw [CopyScheduler.total_issue st.sched (f, j'), if_pos rfl]

end Progress
end Copy2.Scheduler
