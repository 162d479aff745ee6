import Copy2.Scheduler.Ledger

/-! # The ledger of every run

Each loop body of a pass keeps the ledger of its scheduler, and no step touches the
tables of another one, so the ledger is right in every reachable fleet. -/
namespace Copy2.Scheduler
open FileJob Lib

variable {nFile nBlock : ℕ}

/-- A file that is not complete has blocks of a positive size. -/
theorem blockSize_pos_of_incomplete {job : FileCopyJob}
    (h : ¬ job.blockCount ≤ job.nBlockJobsFinished) : 0 < job.blockSize := by
  refine Nat.pos_of_ne_zero fun hzero => h ?_
  rw [FileCopyJob.blockCount, FileJob.blockCount, if_pos hzero]
  exact Nat.zero_le _

namespace Ledger
variable {d : CopyScheduler nFile nBlock} {s : Slot nFile nBlock}

/-- Requests may move between the batch and the kernel, or leave both. -/
theorem requeue (h : Ledger d) (cbBatch : List (Slot nFile nBlock))
    (held : List (Slot nFile nBlock × Iocb))
    (hn : (cbBatch ++ held.map Prod.fst).Nodup)
    (hsub : ∀ t ∈ cbBatch ++ held.map Prod.fst, t ∈ d.pending) :
    Ledger { d with cbBatch, held } :=
  { h with nodup := hn, pending := fun t ht => h.pending t (hsub t ht) }

theorem setHistory (h : Ledger d) (f : Fin nFile) (hist : JobHistory) :
    Ledger (d.setHistory f hist) :=
  { h with }

/-- The next block number is the sum of the counters, as an `int`. -/
theorem nextBlock_number (d : CopyScheduler nFile nBlock) (s : Slot nFile nBlock) :
    (d.nextBlock s.1 s).jobno = toInt (d.total s.1 : ℕ) ∧
      (d.nextBlock s.1 s).offset =
        mulInt (d.fileCopyJobs s.1).blockSize (toInt (d.total s.1 : ℕ)) := by
  have hcomm : (d.fileCopyJobs s.1).nBlockJobsScheduled +
      (d.fileCopyJobs s.1).nBlockJobsFinished = d.total s.1 := Nat.add_comm _ _
  simp only [CopyScheduler.nextBlock, hcomm, and_self]

/-- A block that starts inside the file is one of its blocks, and its number is an `int`. -/
theorem total_lt (h : Ledger d) (hactive : (d.fileCopyJobs s.1).active = true)
    (hbs : 0 < (d.fileCopyJobs s.1).blockSize)
    (hlt : (d.nextBlock s.1 s).offset < (d.fileCopyJobs s.1).stx.stx_size) :
    d.total s.1 < (d.fileCopyJobs s.1).blockCount ∧ d.total s.1 < 2 ^ 31 := by
  obtain ⟨hle, hint⟩ := h.total_le s.1 hactive
  obtain ⟨hsize, hwrap⟩ := h.fits s.1 hactive
  rw [(nextBlock_number d s).2] at hlt
  have hlt' : d.total s.1 < 2 ^ 31 := by
    refine lt_of_le_of_ne hint fun heq => ?_
    rw [heq] at hle hlt
    rcases hwrap with hcount | hend
    · omega
    · omega
  have hmul := mul_lt_of_le_blockCount hbs hsize (d.fileCopyJobs s.1).stx.size_lt hle
  rw [mulInt_toInt hlt' hmul] at hlt
  exact ⟨(lt_blockCount_iff hbs).mpr hlt, hlt'⟩

/-- Starting the next block in a free slot, whatever the allocator answers. -/
theorem schedule {st : State nFile nBlock} (h : Ledger st.sched)
    (hfree : (st.sched.blockCopyJobs s).inUse = false)
    (hactive : (st.sched.fileCopyJobs s.1).active = true)
    (hbs : 0 < (st.sched.fileCopyJobs s.1).blockSize)
    (malloc : Option (Ptr × (ℕ → UInt8))) (pre : Bool) :
    Ledger (st.schedulerScheduleBlockCopyJob s.1 s malloc pre).sched := by
  rcases st.schedule_sched s.1 s malloc pre with heq | ⟨hlt, data, heq⟩
  · rw [heq]
    exact h.touch (h.notMem_pending_of_free hfree) hfree.symm (by simp)
  · rw [heq]
    exact h.issue hfree hactive (h.total_lt hactive hbs hlt)
      (by simp [State.startBlock, CopyScheduler.nextBlock])
      (by simp [State.startBlock, CopyScheduler.nextBlock])

/-- A file that has a block in some slot has blocks. -/
theorem blockSize_pos (h : Ledger d) (huse : (d.blockCopyJobs s).inUse = true) :
    0 < (d.fileCopyJobs s.1).blockSize := by
  have hpos := count_pos (p := d.inUse s.1) (i := s.2) huse
  have hsched := h.scheduled s.1
  have hle := (h.total_le s.1 (h.owner s huse).2).1
  refine Nat.pos_of_ne_zero fun hzero => ?_
  rw [CopyScheduler.total, FileCopyJob.blockCount, FileJob.blockCount, if_pos hzero] at hle
  omega

theorem readFinished {st : State nFile nBlock} (cfg : Config) (h : Ledger st.sched)
    (huse : (st.sched.blockCopyJobs s).inUse = true)
    (hstatus : (st.sched.blockCopyJobs s).status = 0) :
    Ledger (st.readFinished cfg s).sched := by
  have hs := h.notMem_pending_of_status (s := s) (by rw [hstatus]; decide)
  have hparent := (h.owner s huse).1
  rw [State.readFinished]
  dsimp only
  split
  · exact h.touch hs rfl fun _ => hparent
  · refine defer (h.touch hs ?_ fun _ => ?_) hs ?_ ?_
    · rfl
    · exact hparent
    · simpa using huse
    · simp

theorem writeFinished {st : State nFile nBlock} (cfg : Config) (h : Ledger st.sched)
    (huse : (st.sched.blockCopyJobs s).inUse = true)
    (hstatus : (st.sched.blockCopyJobs s).status = 0) :
    Ledger (st.writeFinished cfg s).sched := by
  have hs := h.notMem_pending_of_status (s := s) (by rw [hstatus]; decide)
  have hparent := (h.owner s huse).1
  rw [State.writeFinished]
  dsimp only
  split
  · refine defer (h.touch hs ?_ fun _ => ?_) hs ?_ ?_
    · rfl
    · exact hparent
    · simpa using huse
    · simp
  · exact h.touch hs rfl fun _ => hparent

theorem blockFinished {st : State nFile nBlock} (cfg : Config) (h : Ledger st.sched)
    (huse : (st.sched.blockCopyJobs s).inUse = true)
    (hstatus : (st.sched.blockCopyJobs s).status = 0) :
    Ledger (st.blockFinished cfg s.1 s).sched := by
  have hs := h.notMem_pending_of_status (s := s) (by rw [hstatus]; decide)
  have hactive := (h.owner s huse).2
  rw [State.blockFinished, State.clear_nofree_eq]
  apply schedule
  · exact h.release hs huse rfl rfl
  · simp
  · simpa using hactive
  · simpa using h.blockSize_pos huse

theorem requestFailed {st : State nFile nBlock} (h : Ledger st.sched)
    (huse : (st.sched.blockCopyJobs s).inUse = true)
    (hstatus : (st.sched.blockCopyJobs s).status ≠ einprogress) :
    Ledger (st.requestFailed s.1 s).sched := by
  have hrel := h.release (h.notMem_pending_of_status hstatus) huse (b := {}) rfl
    (e := (st.sched.fileCopyJobs s.1).nErrors) (g := st.sched.history s.1) rfl
  have hself : ∀ job, (st.sched.setFile s.1 job).setHistory s.1 (st.sched.history s.1) =
      st.sched.setFile s.1 job := by
    intro job
    simp [CopyScheduler.setHistory, CopyScheduler.setFile]
  rw [hself] at hrel
  rw [State.requestFailed, State.clear_eq]
  exact hrel

theorem updateSlot {st : State nFile nBlock} (cfg : Config) (h : Ledger st.sched)
    (huse : (st.sched.blockCopyJobs s).inUse = true) :
    Ledger (st.schedulerUpdateBlockCopyJob cfg s.1 s).sched := by
  rw [State.schedulerUpdateBlockCopyJob]
  split
  · rename_i hstatus
    cases (st.sched.blockCopyJobs s).type with
    | read => exact h.readFinished cfg huse hstatus
    | write => exact h.writeFinished cfg huse hstatus
    | readDst => exact h.blockFinished cfg huse hstatus
    | finish => exact h.blockFinished cfg huse hstatus
  · split
    · rename_i hstatus
      exact h.requestFailed huse hstatus
    · exact h

/-- A file job is complete only when none of its slots is in use. -/
theorem free_of_complete (h : Ledger d) {f : Fin nFile}
    (hactive : (d.fileCopyJobs f).active = true)
    (hdone : (d.fileCopyJobs f).blockCount ≤ (d.fileCopyJobs f).nBlockJobsFinished) (j : Fin nBlock) :
    (d.blockCopyJobs (f, j)).inUse = false := by
  have hle := (h.total_le f hactive).1
  have hsched := h.scheduled f
  have hzero : count (d.inUse f) = 0 := by
    rw [CopyScheduler.total] at hle
    omega
  exact count_eq_zero.mp hzero j

/-- The entry of a file none of whose slots is in use may be replaced by one that has
no blocks yet. -/
theorem replaceFile (h : Ledger d) {f : Fin nFile} {job : FileCopyJob}
    (hfree : ∀ j, (d.blockCopyJobs (f, j)).inUse = false)
    (hfits : job.active = true → Fits job) (hs : job.nBlockJobsScheduled = 0)
    (hf : job.nBlockJobsFinished = 0) : Ledger ((d.setFile f job).setHistory f {}) where
  fits g hg := by
    by_cases hgf : g = f
    · subst hgf
      simp only [CopyScheduler.setHistory_fileCopyJobs, CopyScheduler.setFile_fileCopyJobs,
        Function.update_self] at hg ⊢
      exact hfits hg
    · simpa [hgf] using h.fits g (by simpa [hgf] using hg)
  scheduled g := by
    by_cases hgf : g = f
    · subst hgf
      have hzero : count (d.inUse g) = 0 := count_eq_zero.mpr hfree
      simp [hs, hzero]
    · simpa [hgf] using h.scheduled g
  total_le g hg := by
    by_cases hgf : g = f
    · subst hgf
      simp [CopyScheduler.total, hs, hf]
    · simpa [CopyScheduler.total, hgf] using h.total_le g (by simpa [hgf] using hg)
  nodup := h.nodup
  pending := h.pending
  owner t ht := by
    have hne : t.1 ≠ f := fun he => by
      have := hfree t.2
      rw [← he] at this
      simp [this] at ht
    simpa [hne] using h.owner t ht
  asserts := h.asserts

theorem completeOrSchedule {st : State nFile nBlock} (h : Ledger st.sched) {f : Fin nFile}
    (hactive : (st.sched.fileCopyJobs f).active = true)
    (malloc : Option (Ptr × (ℕ → UInt8))) :
    Ledger (st.completeOrSchedule f malloc).sched := by
  rw [State.completeOrSchedule]
  dsimp only
  split
  · rename_i hdone
    have hfree := h.free_of_complete hactive hdone
    rw [State.clearFile_eq (by simpa using hfree)]
    exact h.replaceFile hfree (by simp) rfl rfl
  · rename_i hdone
    split
    · cases hfind : (List.finRange nBlock).find? fun j => !(st.sched.blockCopyJobs (f, j)).inUse with
      | none => exact h
      | some j =>
        have hfree := List.find?_some hfind
        exact h.schedule (s := (f, j)) (by simpa using hfree) hactive
          (blockSize_pos_of_incomplete hdone) malloc false
    · exact h

theorem acceptJob {st : State nFile nBlock} (h : Ledger st.sched) {f : Fin nFile}
    (hactive : (st.sched.fileCopyJobs f).active = false) {newJob : FileCopyJob}
    (hfits : Fits newJob) : Ledger (st.acceptJob f newJob).sched := by
  refine h.replaceFile (fun j => ?_) (fun _ => hfits.congr rfl rfl) rfl rfl
  by_contra huse
  have := (h.owner (f, j) (by simpa using huse)).2
  simp [hactive] at this

/-- The first request of the batch is failed: its slot is released and leaves the batch. -/
theorem failRequest {st : State nFile nBlock} {l : List (Slot nFile nBlock)}
    (h : Ledger { st.sched with cbBatch := s :: l }) :
    Ledger { (st.failRequest s).sched with cbBatch := l } := by
  have hs := h.pending s (by simp [CopyScheduler.pending])
  have hparent := (h.owner s hs.1).1
  have hn := h.nodup
  rw [CopyScheduler.pending] at hn
  dsimp only at hs hparent hn
  rw [List.cons_append, List.nodup_cons] at hn
  have h' : Ledger { st.sched with cbBatch := l } :=
    h.requeue l st.sched.held hn.2 fun t ht => List.mem_cons_of_mem s ht
  rw [State.failRequest, hparent]
  dsimp only
  rw [State.clear_eq]
  exact h'.release hn.1 hs.1 (b := {}) rfl rfl

theorem failBatch (l : List (Slot nFile nBlock)) {st : State nFile nBlock}
    (h : Ledger { st.sched with cbBatch := l }) :
    Ledger { (l.foldl State.failRequest st).sched with cbBatch := [] } := by
  induction l generalizing st with
  | nil => exact h
  | cons s l ih => exact ih h.failRequest

theorem submit {st : State nFile nBlock} (h : Ledger st.sched) (submitted : ℤ) :
    Ledger (st.schedIOSubmitBatch submitted).2.sched := by
  rw [State.schedIOSubmitBatch]
  dsimp only
  split
  · exact h
  · split
    · exact failBatch _ h
    · have hmap : (List.map (fun s => (s, (st.sched.blockCopyJobs s).cb))
          (st.sched.cbBatch.take submitted.toNat)).map Prod.fst =
          st.sched.cbBatch.take submitted.toNat := by simp [Function.comp_def]
      have hp : (st.sched.cbBatch.drop submitted.toNat ++ (st.sched.held ++ List.map
          (fun s => (s, (st.sched.blockCopyJobs s).cb))
          (st.sched.cbBatch.take submitted.toNat)).map Prod.fst).Perm st.sched.pending := by
        rw [List.map_append, hmap, CopyScheduler.pending, ← List.append_assoc]
        refine List.perm_append_comm.trans ?_
        rw [← List.append_assoc, List.take_append_drop]
      exact h.requeue _ _ (hp.nodup_iff.mpr h.nodup) fun t ht => hp.mem_iff.mp ht

theorem map_fst_eraseP (l : List (Slot nFile nBlock × Iocb)) (s : Slot nFile nBlock) :
    (l.eraseP fun e => e.1 = s).map Prod.fst = (l.map Prod.fst).erase s := by
  induction l with
  | nil => rfl
  | cons e l ih =>
    by_cases he : e.1 = s
    · simp [he]
    · simp [he, ih]

/-- A completed request leaves the kernel, and its slot waits for nothing. -/
theorem pending_complete (h : Ledger d) (hs : s ∈ d.held.map Prod.fst) :
    let d' := { d with held := d.held.eraseP fun e => e.1 = s }
    s ∉ d'.pending ∧ d'.pending.Sublist d.pending := by
  have hn := h.nodup
  rw [CopyScheduler.pending, List.nodup_append] at hn
  dsimp only [CopyScheduler.pending]
  rw [map_fst_eraseP]
  refine ⟨fun hm => ?_, List.Sublist.append_left (List.erase_sublist ..) _⟩
  rcases List.mem_append.mp hm with hb | hh
  · exact hn.2.2 s hb s hs rfl
  · exact hn.2.1.not_mem_erase hh

theorem ioComplete {st st' : State nFile nBlock} (h : Ledger st.sched) {res : ℤ}
    (hc : st.ioComplete s res = some st') : Ledger st'.sched := by
  obtain ⟨cb, hheld, -, hst⟩ := State.ioComplete_cases hc
  have hmem : s ∈ st.sched.held.map Prod.fst := List.mem_map.mpr ⟨_, hheld, rfl⟩
  obtain ⟨hrest, hsub⟩ := h.pending_complete hmem
  have huse := (h.pending s (List.mem_append_right _ hmem)).1
  rw [hst]
  refine setHistory (touch (h.requeue _ _ (hsub.nodup h.nodup) fun t ht => hsub.subset ht)
    hrest ?_ fun _ => ?_) s.1 _
  · rfl
  · exact (h.owner s huse).1

end Ledger

def Op.Feeds (P : FileCopyJob → Prop) : Op nFile nBlock → Prop
  | .accept _ newJob => P newJob
  | _ => True

theorem Op.Feeds.mono {P Q : FileCopyJob → Prop} {op : Op nFile nBlock} (h : op.Feeds P)
    (hPQ : ∀ job, P job → Q job) : op.Feeds Q := by
  cases op with
  | accept f newJob => exact hPQ newJob h
  | _ => trivial

theorem Ledger.apply {cfg : Config} {st st' : State nFile nBlock} {op : Op nFile nBlock}
    (h : Ledger st.sched) (hop : op.Feeds Fits) (hst : st.apply cfg op = some st') :
    Ledger st'.sched := by
  cases op with
  | updateSlot s =>
    simp only [State.apply, Bool.and_eq_true, Option.ite_none_right_eq_some,
      Option.some.injEq] at hst
    obtain ⟨⟨-, huse⟩, rfl⟩ := hst
    exact h.updateSlot cfg huse
  | updateFile f malloc =>
    simp only [State.apply, Option.ite_none_right_eq_some, Option.some.injEq] at hst
    obtain ⟨hactive, rfl⟩ := hst
    exact h.completeOrSchedule hactive malloc
  | accept f newJob =>
    simp only [State.apply, Option.ite_none_left_eq_some, Bool.not_eq_true,
      Option.some.injEq] at hst
    obtain ⟨hactive, rfl⟩ := hst
    exact h.acceptJob hactive hop
  | submit submitted =>
    obtain rfl := Option.some.inj hst
    exact h.submit submitted
  | complete s res => exact h.ioComplete hst
  | environment files =>
    obtain rfl := Option.some.inj hst
    exact h
  | finish i =>
    simp only [State.apply, Option.ite_none_right_eq_some, Option.some.injEq] at hst
    obtain ⟨-, rfl⟩ := hst
    exact h

section Fleet
variable {cfg : Config} {n : ℕ} {w : Fleet n nFile nBlock}
  {C : Fleet n nFile nBlock → Fin n × Op nFile nBlock → Prop}

/-- The ledger of every scheduler is right in every reachable fleet. -/
theorem ledger_of_reach (hC : ∀ w a, C w a → a.2.Feeds Fits)
    (h : (system cfg n nFile nBlock).Reach C w) (k : Fin n) : Ledger (w.scheds k) := by
  refine h.invariant (I := fun w => ∀ k, Ledger (w.scheds k)) ?_ ?_ k
  · intro w hw k
    rw [hw.1 k]
    exact .initial
  · intro w a w' hw hop hnext k
    obtain ⟨st, hst, rfl⟩ := Option.map_eq_some_iff.mp hnext
    by_cases hk : k = a.1
    · subst hk
      simpa [Fleet.put] using (hw a.1).apply (hC w a hop) hst
    · simpa [Fleet.put, hk] using hw k

end Fleet
end Copy2.Scheduler
