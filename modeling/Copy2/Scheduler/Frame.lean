import Copy2.Scheduler.Shapes

/-! # What the scheduler functions leave alone

Between its start and its completion a scheduler changes nothing of a file job but the
three counters, and only the completion of a file job puts something on the finish
queue. -/
namespace Copy2.Scheduler
open FileJob Lib

variable {nFile nBlock : ℕ}

section Fixed
variable {st : State nFile nBlock} {f g : Fin nFile} {s : Slot nFile nBlock}

def CopyScheduler.fixed (d : CopyScheduler nFile nBlock) (f : Fin nFile) : FileCopyJob :=
  { d.fileCopyJobs f with nBlockJobsScheduled := 0, nBlockJobsFinished := 0, nErrors := 0 }

theorem CopyScheduler.fixed_setFile {d : CopyScheduler nFile nBlock} {job : FileCopyJob}
    (h : { job with nBlockJobsScheduled := 0, nBlockJobsFinished := 0, nErrors := 0 } =
      d.fixed g) : (d.setFile g job).fixed f = d.fixed f := by
  by_cases hf : f = g
  · subst hf
    simpa [fixed] using h
  · simp [fixed, hf]

theorem CopyScheduler.fixed_issue (d : CopyScheduler nFile nBlock) (b : BlockCopyJob nFile) :
    (d.issue g s b).fixed f = d.fixed f :=
  fixed_setFile (d := d) rfl

theorem schedule_fixed (malloc : Option (Ptr × (ℕ → UInt8))) (pre : Bool) :
    (st.schedulerScheduleBlockCopyJob g s malloc pre).sched.fixed f = st.sched.fixed f := by
  rcases st.schedule_sched g s malloc pre with heq | ⟨-, data, heq⟩ <;> rw [heq]
  · rfl
  · exact CopyScheduler.fixed_issue ..

theorem updateSlot_fixed (cfg : Config) :
    (st.schedulerUpdateBlockCopyJob cfg g s).sched.fixed f = st.sched.fixed f := by
  rw [State.schedulerUpdateBlockCopyJob]
  split
  · cases (st.sched.blockCopyJobs s).type with
    | read =>
      dsimp only [State.readFinished]
      split <;> rfl
    | write =>
      dsimp only [State.writeFinished]
      split <;> rfl
    | readDst => exact (schedule_fixed ..).trans (CopyScheduler.fixed_setFile rfl)
    | finish => exact (schedule_fixed ..).trans (CopyScheduler.fixed_setFile rfl)
  · split
    · rw [State.requestFailed, State.clear_eq]
      exact CopyScheduler.fixed_setFile (d := st.sched) rfl
    · rfl

theorem failRequest_fixed : (st.failRequest s).sched.fixed f = st.sched.fixed f := by
  rw [State.failRequest]
  cases (st.sched.blockCopyJobs s).parent with
  | none => rfl
  | some g =>
    dsimp only
    rw [State.clear_eq]
    exact CopyScheduler.fixed_setFile (d := st.sched) rfl

theorem submit_fixed (submitted : ℤ) :
    (st.schedIOSubmitBatch submitted).2.sched.fixed f = st.sched.fixed f := by
  have hfold : ∀ (l : List (Slot nFile nBlock)) (st : State nFile nBlock),
      (l.foldl State.failRequest st).sched.fixed f = st.sched.fixed f := by
    intro l
    induction l with
    | nil => exact fun st => rfl
    | cons s l ih => exact fun st => (ih _).trans failRequest_fixed
  rw [State.schedIOSubmitBatch]
  dsimp only
  split
  · rfl
  · split
    · exact hfold _ st
    · rfl

theorem ioComplete_fixed {st' : State nFile nBlock} {res : ℤ}
    (hc : st.ioComplete s res = some st') : st'.sched.fixed f = st.sched.fixed f := by
  obtain ⟨cb, -, -, hst⟩ := State.ioComplete_cases hc
  rw [hst]
  rfl

/-- A file job leaves the table only complete, and enters it only as the job accepted. -/
theorem apply_fixed {cfg : Config} {op : Op nFile nBlock} {st' : State nFile nBlock}
    (h : st.apply cfg op = some st') (f : Fin nFile) :
    st'.sched.fixed f = st.sched.fixed f ∨
    (∃ malloc, op = .updateFile f malloc ∧ (st.sched.fileCopyJobs f).active = true ∧
      (st.sched.fileCopyJobs f).blockCount ≤ (st.sched.fileCopyJobs f).nBlockJobsFinished ∧
      st'.sched.fileCopyJobs f = {}) ∨
    (∃ newJob, op = .accept f newJob ∧ (st.sched.fileCopyJobs f).active = false ∧
      st'.sched.fixed f = { newJob with
        nBlockJobsScheduled := 0, nBlockJobsFinished := 0, nErrors := 0, active := true }) := by
  cases op with
  | updateSlot s =>
    simp only [State.apply, Option.ite_none_right_eq_some, Option.some.injEq] at h
    obtain ⟨-, rfl⟩ := h
    exact .inl (updateSlot_fixed cfg)
  | updateFile g malloc =>
    simp only [State.apply, Option.ite_none_right_eq_some, Option.some.injEq] at h
    obtain ⟨hactive, rfl⟩ := h
    rw [State.completeOrSchedule]
    dsimp only
    split
    · rename_i hdone
      obtain ⟨st₁, heq, hjobs, -, -⟩ := (st.enqueued g).clearFile_cases g
      change (State.schedulerClearFileCopyJob (st.enqueued g) g).sched.fixed f = _ ∨
        (∃ malloc, _ ∧ _ ∧ _ ∧
          (State.schedulerClearFileCopyJob (st.enqueued g) g).sched.fileCopyJobs f = {}) ∨ _
      rw [heq]
      by_cases hf : f = g
      · subst hf
        exact .inr (.inl ⟨malloc, rfl, hactive, hdone, by simp⟩)
      · exact .inl (by simp [CopyScheduler.fixed, hf, hjobs, State.enqueued])
    · refine .inl ?_
      split
      · split
        · exact schedule_fixed ..
        · rfl
      · rfl
  | accept g newJob =>
    simp only [State.apply, Option.ite_none_left_eq_some, Bool.not_eq_true,
      Option.some.injEq] at h
    obtain ⟨hactive, rfl⟩ := h
    by_cases hf : f = g
    · subst hf
      exact .inr (.inr ⟨newJob, rfl, hactive, by simp [State.acceptJob, CopyScheduler.fixed]⟩)
    · refine .inl ?_
      simp [State.acceptJob, CopyScheduler.fixed, hf]
  | submit submitted =>
    obtain rfl := Option.some.inj h
    exact .inl (submit_fixed submitted)
  | complete s res => exact .inl (ioComplete_fixed h)
  | environment files =>
    obtain rfl := Option.some.inj h
    exact .inl rfl
  | finish i =>
    simp only [State.apply, Option.ite_none_right_eq_some, Option.some.injEq] at h
    obtain ⟨-, rfl⟩ := h
    exact .inl rfl

end Fixed

/-! Working on one slot leaves the other slots and the requests of the kernel alone. -/
section Others
variable {st : State nFile nBlock} {f : Fin nFile} {s : Slot nFile nBlock}

def CopyScheduler.AgreesOff (d d' : CopyScheduler nFile nBlock) (s : Slot nFile nBlock) : Prop :=
  d'.held = d.held ∧ ∀ t ≠ s, d'.blockCopyJobs t = d.blockCopyJobs t

theorem CopyScheduler.AgreesOff.setBlock {d d' : CopyScheduler nFile nBlock}
    (h : d.AgreesOff d' s) (b : BlockCopyJob nFile) : d.AgreesOff (d'.setBlock s b) s :=
  ⟨h.1, fun t ht => by simp [ht, h.2 t ht]⟩

theorem schedule_others {d : CopyScheduler nFile nBlock} (h : d.AgreesOff st.sched s)
    (malloc : Option (Ptr × (ℕ → UInt8))) (pre : Bool) :
    d.AgreesOff (st.schedulerScheduleBlockCopyJob f s malloc pre).sched s := by
  rcases st.schedule_sched f s malloc pre with heq | ⟨-, data, heq⟩ <;> rw [heq]
  · exact h.setBlock {}
  · exact ⟨h.1, fun t ht => by simp [State.issue_blockCopyJobs, ht, h.2 t ht]⟩

theorem updateSlot_others (cfg : Config) :
    st.sched.AgreesOff (st.schedulerUpdateBlockCopyJob cfg f s).sched s := by
  have hrefl : st.sched.AgreesOff st.sched s := ⟨rfl, fun _ _ => rfl⟩
  rw [State.schedulerUpdateBlockCopyJob]
  split
  · cases (st.sched.blockCopyJobs s).type with
    | read =>
      dsimp only [State.readFinished]
      split <;> exact hrefl.setBlock _
    | write =>
      dsimp only [State.writeFinished]
      split <;> exact hrefl.setBlock _
    | readDst => exact schedule_others (hrefl.setBlock _) none true
    | finish => exact schedule_others (hrefl.setBlock _) none true
  · split
    · rw [State.requestFailed, State.clear_eq]
      exact hrefl.setBlock {}
    · exact hrefl

end Others

section FinishQueue
variable {st : State nFile nBlock} {f : Fin nFile} {s : Slot nFile nBlock}

theorem clear_finishQueue (nofree : Bool) :
    (st.schedulerClearBlockCopyJob f s nofree).shared.finishQueue = st.shared.finishQueue := by
  cases nofree with
  | true => rfl
  | false =>
    rw [State.clear_eq, State.freed]
    cases (st.sched.blockCopyJobs s).data <;> rfl

theorem schedule_finishQueue (malloc : Option (Ptr × (ℕ → UInt8))) (pre : Bool) :
    (st.schedulerScheduleBlockCopyJob f s malloc pre).shared.finishQueue =
      st.shared.finishQueue := by
  rw [State.schedulerScheduleBlockCopyJob]
  split
  · exact clear_finishQueue false
  · dsimp only
    split
    · rfl
    · cases st.shared.buddyMalloc malloc with
      | none => exact clear_finishQueue false
      | some c => rfl

theorem store_finishQueue {sh : SharedState} (data : Option Ptr) (lo hi : ℕ) (v : ℕ → UInt8) :
    (sh.store data lo hi v).finishQueue = sh.finishQueue := by
  cases data <;> rfl

theorem updateSlot_finishQueue (cfg : Config) :
    (st.schedulerUpdateBlockCopyJob cfg f s).shared.finishQueue = st.shared.finishQueue := by
  rw [State.schedulerUpdateBlockCopyJob]
  split
  · cases (st.sched.blockCopyJobs s).type with
    | read =>
      dsimp only [State.readFinished]
      split
      · rfl
      · exact store_finishQueue ..
    | write =>
      dsimp only [State.writeFinished]
      split
      · exact store_finishQueue ..
      · rfl
    | readDst => exact schedule_finishQueue none true
    | finish => exact schedule_finishQueue none true
  · split
    · exact clear_finishQueue false
    · rfl

theorem submit_finishQueue (submitted : ℤ) :
    (st.schedIOSubmitBatch submitted).2.shared.finishQueue = st.shared.finishQueue := by
  have hfail : ∀ (st : State nFile nBlock) s,
      (st.failRequest s).shared.finishQueue = st.shared.finishQueue := by
    intro st s
    rw [State.failRequest]
    cases (st.sched.blockCopyJobs s).parent with
    | none => rfl
    | some f => exact clear_finishQueue false
  have hfold : ∀ (l : List (Slot nFile nBlock)) (st : State nFile nBlock),
      (l.foldl State.failRequest st).shared.finishQueue = st.shared.finishQueue := by
    intro l
    induction l with
    | nil => exact fun st => rfl
    | cons s l ih => exact fun st => (ih _).trans (hfail st s)
  rw [State.schedIOSubmitBatch]
  dsimp only
  split
  · rfl
  · split
    · exact hfold _ st
    · rfl

theorem ioComplete_finishQueue {st' : State nFile nBlock} {res : ℤ}
    (hc : st.ioComplete s res = some st') : st'.shared.finishQueue = st.shared.finishQueue := by
  obtain ⟨cb, -, hsh, -⟩ := State.ioComplete_cases hc
  rw [hsh, State.transfer]
  cases cb.opcode with
  | pread => exact store_finishQueue ..
  | pwrite => rfl

theorem apply_finishQueue {cfg : Config} {op : Op nFile nBlock} {st' : State nFile nBlock}
    (h : st.apply cfg op = some st') :
    st'.shared.finishQueue.Sublist st.shared.finishQueue ∨
    ∃ f malloc, op = .updateFile f malloc ∧ (st.sched.fileCopyJobs f).active = true ∧
      (st.sched.fileCopyJobs f).blockCount ≤ (st.sched.fileCopyJobs f).nBlockJobsFinished ∧
      st'.shared.finishQueue = st.shared.finishQueue ++
        [({ st.sched.fileCopyJobs f with actuallyTransferred := true }, st.sched.history f)] := by
  cases op with
  | updateSlot s =>
    simp only [State.apply, Option.ite_none_right_eq_some, Option.some.injEq] at h
    obtain ⟨-, rfl⟩ := h
    exact .inl (by rw [updateSlot_finishQueue])
  | updateFile f malloc =>
    simp only [State.apply, Option.ite_none_right_eq_some, Option.some.injEq] at h
    obtain ⟨hactive, rfl⟩ := h
    rw [State.completeOrSchedule]
    dsimp only
    split
    · rename_i hdone
      obtain ⟨st₁, heq, -, -, hqueue⟩ := (st.enqueued f).clearFile_cases f
      exact .inr ⟨f, malloc, rfl, hactive, hdone, by
        change (State.schedulerClearFileCopyJob (st.enqueued f) f).shared.finishQueue = _
        rw [heq, hqueue]
        rfl⟩
    · refine .inl ?_
      split
      · split
        · rw [schedule_finishQueue]
        · exact .refl _
      · exact .refl _
  | accept f newJob =>
    simp only [State.apply, Option.ite_none_left_eq_some, Option.some.injEq] at h
    obtain ⟨-, rfl⟩ := h
    exact .inl (.refl _)
  | submit submitted =>
    obtain rfl := Option.some.inj h
    exact .inl (by rw [submit_finishQueue])
  | complete s res => exact .inl (by rw [ioComplete_finishQueue h])
  | environment files =>
    obtain rfl := Option.some.inj h
    exact .inl (.refl _)
  | finish i =>
    simp only [State.apply, Option.ite_none_right_eq_some, Option.some.injEq] at h
    obtain ⟨-, rfl⟩ := h
    exact .inl (List.eraseIdx_sublist ..)

end FinishQueue
end Copy2.Scheduler
