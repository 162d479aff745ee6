import Copy2.Scheduler.Arrival
import Copy2.Finish.Processor

/-! # Which failures a file job remembers

Every file job comes to the finish queue. The error counter with which it comes there counts
the requests that `io_submit` dropped and the blocks whose hash differed after the readback,
and nothing else: a request that completed with an error leaves no trace in it. -/
namespace Copy2.Scheduler
open FileJob Lib

variable {nFile nBlock : ℕ}

/-- What the error counter of a job accounts for. -/
def JobHistory.counted (h : JobHistory) : ℕ := h.dropped + h.mismatched

/-- Some request of the file moved less than it was asked to, was dropped, or brought
back other bytes than were written. -/
def JobHistory.Failed (h : JobHistory) : Prop := 0 < h.damaged ∨ 0 < h.dropped ∨ 0 < h.mismatched

def ErrorsCounted (d : CopyScheduler nFile nBlock) : Prop :=
  ∀ f, (d.fileCopyJobs f).nErrors = (d.history f).counted

namespace ErrorsCounted
variable {st : State nFile nBlock} {f : Fin nFile} {s : Slot nFile nBlock}

theorem set {d : CopyScheduler nFile nBlock} (h : ErrorsCounted d) {job : FileCopyJob}
    {g : JobHistory} (hg : job.nErrors = g.counted) :
    ErrorsCounted ((d.setFile f job).setHistory f g) := by
  intro f'
  by_cases hf : f' = f
  · subst hf
    simpa using hg
  · simpa [hf] using h f'

theorem issue {d : CopyScheduler nFile nBlock} (h : ErrorsCounted d) (b : BlockCopyJob nFile) :
    ErrorsCounted (d.issue f s b) :=
  h.set (h f)

theorem schedule (h : ErrorsCounted st.sched) (malloc : Option (Ptr × (ℕ → UInt8))) (pre : Bool) :
    ErrorsCounted (st.schedulerScheduleBlockCopyJob f s malloc pre).sched := by
  rcases st.schedule_sched f s malloc pre with heq | ⟨-, data, heq⟩ <;> rw [heq]
  · exact h
  · exact h.issue _

theorem blockFinished (cfg : Config) (h : ErrorsCounted st.sched) :
    ErrorsCounted (st.blockFinished cfg f s).sched := by
  rw [State.blockFinished, State.clear_nofree_eq]
  refine schedule (h.set ?_) none true
  have hf := h f
  simp only [JobHistory.counted] at hf ⊢
  omega

theorem requestFailed (h : ErrorsCounted st.sched) :
    ErrorsCounted (st.requestFailed f s).sched := by
  rw [State.requestFailed, State.clear_eq]
  intro f'
  by_cases hf : f' = f
  · subst hf
    simpa using h f'
  · simpa [hf] using h f'

theorem updateSlot (cfg : Config) (h : ErrorsCounted st.sched) :
    ErrorsCounted (st.schedulerUpdateBlockCopyJob cfg f s).sched := by
  rw [State.schedulerUpdateBlockCopyJob]
  split
  · cases (st.sched.blockCopyJobs s).type with
    | read =>
      dsimp only [State.readFinished]
      split <;> exact h
    | write =>
      dsimp only [State.writeFinished]
      split <;> exact h
    | readDst => exact h.blockFinished cfg
    | finish => exact h.blockFinished cfg
  · split
    · exact h.requestFailed
    · exact h

theorem completeOrSchedule (h : ErrorsCounted st.sched) (malloc : Option (Ptr × (ℕ → UInt8))) :
    ErrorsCounted (st.completeOrSchedule f malloc).sched := by
  rw [State.completeOrSchedule]
  dsimp only
  split
  · obtain ⟨st₁, heq, hjobs, hhist, -⟩ := (st.enqueued f).clearFile_cases f
    change ErrorsCounted (State.schedulerClearFileCopyJob (st.enqueued f) f).sched
    rw [heq]
    refine set (fun g => ?_) rfl
    rw [hjobs, hhist]
    exact h g
  · split
    · split
      · exact h.schedule malloc false
      · exact h
    · exact h

theorem failRequest (h : ErrorsCounted st.sched) : ErrorsCounted (st.failRequest s).sched := by
  rw [State.failRequest]
  cases (st.sched.blockCopyJobs s).parent with
  | none => exact h
  | some f =>
    dsimp only
    rw [State.clear_eq]
    refine set (d := st.sched.setBlock s {}) h ?_
    have hf := h f
    simp only [JobHistory.counted, CopyScheduler.setBlock_fileCopyJobs,
      CopyScheduler.setBlock_history] at hf ⊢
    omega

theorem submit (h : ErrorsCounted st.sched) (submitted : ℤ) :
    ErrorsCounted (st.schedIOSubmitBatch submitted).2.sched := by
  have hfold : ∀ (l : List (Slot nFile nBlock)) (st : State nFile nBlock),
      ErrorsCounted st.sched → ErrorsCounted (l.foldl State.failRequest st).sched := by
    intro l
    induction l with
    | nil => exact fun st h => h
    | cons s l ih => exact fun st h => ih _ h.failRequest
  rw [State.schedIOSubmitBatch]
  dsimp only
  split
  · exact h
  · split
    · exact hfold _ st h
    · exact h

theorem ioComplete {st' : State nFile nBlock} (h : ErrorsCounted st.sched) {res : ℤ}
    (hc : st.ioComplete s res = some st') : ErrorsCounted st'.sched := by
  obtain ⟨cb, -, -, hst⟩ := State.ioComplete_cases hc
  rw [hst]
  intro f
  by_cases hf : f = s.1
  · subst hf
    simpa [JobHistory.counted] using h s.1
  · simpa [hf] using h f

theorem apply {cfg : Config} {st' : State nFile nBlock} {op : Op nFile nBlock}
    (h : ErrorsCounted st.sched) (hst : st.apply cfg op = some st') :
    ErrorsCounted st'.sched := by
  cases op with
  | updateSlot s =>
    simp only [State.apply, Option.ite_none_right_eq_some, Option.some.injEq] at hst
    obtain ⟨-, rfl⟩ := hst
    exact h.updateSlot cfg
  | updateFile f malloc =>
    simp only [State.apply, Option.ite_none_right_eq_some, Option.some.injEq] at hst
    obtain ⟨-, rfl⟩ := hst
    exact h.completeOrSchedule malloc
  | accept f newJob =>
    simp only [State.apply, Option.ite_none_left_eq_some, Option.some.injEq] at hst
    obtain ⟨-, rfl⟩ := hst
    exact h.set rfl
  | submit submitted =>
    obtain rfl := Option.some.inj hst
    exact h.submit submitted
  | complete s res => exact h.ioComplete hst
  | environment files =>
    obtain rfl := Option.some.inj hst
    exact h
  | finish i =>
    simp only [State.apply, Option.ite_none_right_eq_some, Option.some.injEq] at hst
    obtain ⟨-, rfl⟩ := hst
    exact h

end ErrorsCounted

/-- A job on the finish queue carries the errors its history has counted. -/
theorem finishQueue_counted {cfg : Config} {n : ℕ} {w : Fleet n nFile nBlock}
    (h : (system cfg n nFile nBlock).Reach (fun _ _ => True) w) :
    (∀ k, ErrorsCounted (w.scheds k)) ∧ ∀ e ∈ w.shared.finishQueue, e.1.nErrors = e.2.counted := by
  refine h.invariant (I := fun w => (∀ k, ErrorsCounted (w.scheds k)) ∧
    ∀ e ∈ w.shared.finishQueue, e.1.nErrors = e.2.counted) ?_ ?_
  · intro w hw
    refine ⟨fun k => ?_, by simp [hw.2.2.2.1]⟩
    rw [hw.1 k]
    exact fun _ => rfl
  · rintro w a w' ⟨hcount, hqueue⟩ - hnext
    obtain ⟨st, hst, rfl⟩ := Option.map_eq_some_iff.mp hnext
    refine ⟨fun k => ?_, fun e he => ?_⟩
    · by_cases hk : k = a.1
      · subst hk
        simpa [Fleet.put] using (hcount a.1).apply hst
      · simpa [Fleet.put, hk] using hcount k
    · replace he : e ∈ st.shared.finishQueue := he
      rcases apply_finishQueue hst with hsub | ⟨f, malloc, -, -, -, heq⟩
      · exact hqueue e (hsub.subset he)
      · rw [heq] at he
        rcases List.mem_append.mp he with he | he
        · exact hqueue e he
        · rw [List.mem_singleton.mp he]
          exact hcount a.1 f

/-- The job has errors, and finishing it, whatever the system calls answer, leaves the
entry under its final name alone. -/
def Unpublished (job : FileCopyJob) : Prop :=
  0 < job.nErrors ∧ ∀ preserveAtime env,
    ∀ e ∈ ((Finish.finishProcessorOne preserveAtime job).run env []).2, ¬ Finish.Publishes e.1

def source (job : FileCopyJob) : FileCopyJob :=
  { job with
    nBlockJobsScheduled := 0, nBlockJobsFinished := 0, nErrors := 0, actuallyTransferred := false }

/-- An entry is at work on the job, and its history has the failures of `h`. -/
def Fleet.Copies {n : ℕ} (w : Fleet n nFile nBlock) (k : Fin n) (f : Fin nFile)
    (job : FileCopyJob) (h : JobHistory) : Prop :=
  (w.job k f).active = true ∧ source (w.job k f) = job ∧ h.Within ((w.scheds k).history f)

def Fleet.HandedOver {n : ℕ} (w : Fleet n nFile nBlock) (job : FileCopyJob) (h : JobHistory) :
    Prop :=
  ∃ e ∈ w.shared.finishQueue, source e.1 = job ∧ h.Within e.2

section Arrival
variable {n : ℕ} {cfg : Config} {w w' : Fleet n nFile nBlock} {k : Fin n} {f : Fin nFile}

/-- A step leaves an active entry its job, or hands the job over. -/
theorem step_kept {a : Fin n × Op nFile nBlock} (hactive : (w.job k f).active = true)
    (hnext : (system cfg n nFile nBlock).next w a = some w') :
    w'.Copies k f (source (w.job k f)) ((w.scheds k).history f) ∨
      w'.HandedOver (source (w.job k f)) ((w.scheds k).history f) := by
  obtain ⟨st, hst, rfl⟩ := Option.map_eq_some_iff.mp hnext
  by_cases hk : k = a.1
  · subst hk
    rcases apply_kept hst hactive with ⟨hfixed, hwithin⟩ | hqueue
    · refine .inl ⟨?_, ?_, ?_⟩ <;> simp only [Fleet.job, Fleet.put, Function.update_self]
      · exact (congrArg FileCopyJob.active hfixed :).trans hactive
      · exact (congrArg source hfixed :)
      · exact hwithin
    · refine .inr ⟨({ w.job a.1 f with actuallyTransferred := true }, (w.scheds a.1).history f), ?_,
        rfl, .refl _⟩
      change _ ∈ st.shared.finishQueue
      rw [hqueue]
      exact List.mem_append_right _ (List.mem_singleton.mpr rfl)
  · refine .inl ⟨?_, ?_, ?_⟩ <;> simp only [Fleet.job, Fleet.put, Function.update_of_ne hk]
    · exact hactive
    · exact .refl _

/-- The slots hold only finitely many buffers, so some are left. -/
theorem exists_not_allocated (h : (system cfg n nFile nBlock).Reach (fun _ _ => True) w) :
    ∃ p, w.shared.allocated p = false := by
  obtain ⟨p, hp⟩ := Infinite.exists_notMem_finset (Finset.univ.image fun x => (w.data x).getD 0)
  refine ⟨p, Bool.eq_false_iff.mpr fun halloc => hp ?_⟩
  obtain ⟨x, hx, -⟩ := (Conserved.reachable h).own.allocated_iff.mp halloc
  exact Finset.mem_image.mpr ⟨x, Finset.mem_univ x, by rw [hx]; rfl⟩

/-- From every state that a run leads to, the job of an active entry can be brought to the finish
queue. -/
theorem arrives (j : Fin nBlock) (h : (system cfg n nFile nBlock).Reach (fun _ a => a.2.Definite) w)
    (hactive : (w.job k f).active = true) :
    ∃ w', (system cfg n nFile nBlock).Run (fun _ a => a.2.Definite) w w' ∧
      w'.HandedOver (source (w.job k f)) ((w.scheds k).history f) := by
  induction hn : remaining (w.scheds k) f using Nat.strong_induction_on generalizing w with
  | _ m ih =>
    have hanswered : Answered (w.view k).sched := .of_reach h k
    by_cases hdone : (w.job k f).blockCount ≤ (w.job k f).nBlockJobsFinished
    · have hnext : (system cfg n nFile nBlock).next w (k, .updateFile f none) =
          some (w.put k ((w.view k).completeOrSchedule f none)) := by
        have hstep : (w.view k).apply cfg (.updateFile f none) =
            some ((w.view k).completeOrSchedule f none) := if_pos hactive
        simp [system, hstep]
      refine ⟨_, .single (a := (k, .updateFile f none)) trivial hnext,
        ({ w.job k f with actuallyTransferred := true }, (w.scheds k).history f), ?_, rfl, .refl _⟩
      change _ ∈ ((w.view k).completeOrSchedule f none).shared.finishQueue
      rw [State.completeOrSchedule_done none hdone (hanswered.ledger.free_of_complete hactive hdone)]
      exact List.mem_append_right _ (List.mem_singleton.mpr rfl)
    · obtain ⟨st', hrun, hcloser⟩ : ∃ st', (scheduler cfg).Run (fun _ op => op.Definite)
          (w.view k) st' ∧ Closer (w.view k) st' f := by
        by_cases huse : ∃ j, ((w.view k).sched.blockCopyJobs (f, j)).inUse = true
        · obtain ⟨j, huse⟩ := huse
          exact exists_closer_of_use hanswered huse
        · obtain ⟨p, hp⟩ := exists_not_allocated (h.mono fun _ _ _ => trivial)
          exact exists_closer_of_free hanswered j hactive (Nat.not_le.mp hdone)
            (fun j => Bool.eq_false_iff.mpr fun hj => huse ⟨j, hj⟩) hp
      have hlift := run_lift w k hrun
      rw [Fleet.put_view_self] at hlift
      have hsched : (w.put k st').scheds k = st'.sched := Function.update_self ..
      have hactive' : ((w.put k st').job k f).active = true := by
        rw [Fleet.job, hsched]
        exact (congrArg FileCopyJob.active hcloser.fixed :).trans hactive
      obtain ⟨w', hrun', e, he, hsource, hwithin⟩ :=
        ih _ (by rw [← hn, hsched]; exact hcloser.less) (h.run hlift) hactive' rfl
      refine ⟨w', hlift.trans hrun', e, he, hsource.trans ?_, ?_⟩
      · rw [Fleet.job, hsched]
        exact (congrArg source hcloser.fixed :)
      · rw [hsched] at hwithin
        exact hcloser.history.trans hwithin

end Arrival

/-- No step loses a job that is being copied, nor a failure of it, and from every state the job
can still be brought to the finish queue. When it has come there after a failure, it is kept
from being published exactly if its failures are not only damaged completions: another request
of the file was dropped, or a block differed. -/
theorem failed_unpublished_iff {cfg : Config} {n : ℕ} {w : Fleet n nFile nBlock} (j : Fin nBlock)
    (h : (system cfg n nFile nBlock).Reach (fun _ a => a.2.Definite) w) :
    (∀ k f, (w.job k f).active = true →
      (∀ a w', (system cfg n nFile nBlock).next w a = some w' →
        w'.Copies k f (source (w.job k f)) ((w.scheds k).history f) ∨
          w'.HandedOver (source (w.job k f)) ((w.scheds k).history f)) ∧
      ∃ w', (system cfg n nFile nBlock).Run (fun _ a => a.2.Definite) w w' ∧
        w'.HandedOver (source (w.job k f)) ((w.scheds k).history f)) ∧
    ∀ job g, (job, g) ∈ w.shared.finishQueue →
      ((g.Failed → Unpublished job) ↔ (g.damaged = 0 ∨ 0 < g.dropped ∨ 0 < g.mismatched)) := by
  refine ⟨fun k f hactive => ⟨fun a w' => step_kept hactive, arrives j h hactive⟩,
    fun job g hjob => ?_⟩
  have hcount : job.nErrors = g.counted :=
    (finishQueue_counted (h.mono fun _ _ _ => trivial)).2 _ hjob
  constructor
  · intro hu
    by_contra hnot
    obtain ⟨hpos, -⟩ := hu (.inl (by omega))
    rw [hcount, JobHistory.counted] at hpos
    omega
  · intro hc hfail
    have hpos : 0 < job.nErrors := by
      rw [hcount, JobHistory.counted]
      rcases hfail with hd | hd | hd <;> omega
    exact ⟨hpos, fun preserveAtime env =>
      (Finish.finishProcessorOne_ensures hpos).run_calls⟩

def damagedJob : FileCopyJob :=
  { remote := some "a", partialRef := some "a.p", srcFd := 3, dstFd := 4, blockSize := 4096
    stx := { stx_size := 1, stx_mode := 0o100644, stx_nlink := 1 } }

theorem damagedJob_fits : Fits damagedJob ∧ damagedJob.blockCount ≤ 2 ^ 31 :=
  ⟨⟨by decide, .inl (by decide)⟩, by decide⟩

def damagedConfig : Config := { XXH3_64bits := fun _ => 0 }

/-- The only read of the file is refused by `io_submit`. -/
def droppedRun : List (Fin 1 × Op 1 1) :=
  [(0, .accept 0 damagedJob), (0, .updateFile 0 (some (1, fun _ => 0))), (0, .submit (-5))]

def droppedFleet : Fleet 1 1 1 :=
  ((system damagedConfig 1 1 1).exec (fun _ _ => true) (.start fun _ => .empty) droppedRun).getD
    (.start fun _ => .empty)

theorem droppedFleet_reach :
    (system damagedConfig 1 1 1).Reach (fun _ a => a.2.Definite) droppedFleet := by
  refine (TransitionSystem.Reach.init (Fleet.start_init fun _ => .empty)).run
    (.of_exec (fun _ _ => true) (fun a (ha : a ∈ droppedRun) _ _ => ?_) rfl)
  fin_cases ha <;> first | exact damagedJob_fits | trivial

/-- The copy whose read was dropped can be brought to the finish queue, and wherever it stands
there, it is not published. -/
theorem failed_unpublished_dropped :
    JobHistory.Failed ((droppedFleet.scheds 0).history 0) ∧
    ∃ w, (system damagedConfig 1 1 1).Reach (fun _ a => a.2.Definite) w ∧
      ∃ e ∈ w.shared.finishQueue, source e.1 = source (droppedFleet.job 0 0) ∧ Unpublished e.1 := by
  have hdropped : 0 < ((droppedFleet.scheds 0).history 0).dropped := by decide +kernel
  obtain ⟨-, w, hrun, e, he, hsource, hwithin⟩ :=
    (failed_unpublished_iff 0 droppedFleet_reach).1 0 0 rfl
  have hreach := droppedFleet_reach.run hrun
  have hlost : 0 < e.2.dropped := hdropped.trans_le hwithin.dropped
  exact ⟨.inr (.inl hdropped), w, hreach, e, he, hsource,
    ((failed_unpublished_iff 0 hreach).2 e.1 e.2 he).mpr (.inr (.inl hlost)) (.inr (.inl hlost))⟩

def damagedRun : List (Fin 1 × Op 1 1) :=
  [(0, .accept 0 damagedJob), (0, .updateFile 0 (some (1, fun _ => 0))), (0, .submit 1),
    (0, .complete (0, 0) (-eio)), (0, .updateSlot (0, 0)), (0, .updateFile 0 none)]

def damagedFleet : Fleet 1 1 1 :=
  ((system damagedConfig 1 1 1).exec (fun _ _ => true) (.start fun _ => .empty) damagedRun).getD
    (.start fun _ => .empty)

theorem damagedFleet_reach :
    (system damagedConfig 1 1 1).Reach (fun _ a => a.2.Definite) damagedFleet := by
  refine (TransitionSystem.Reach.init (Fleet.start_init fun _ => .empty)).run
    (.of_exec (fun _ _ => true) (fun a (ha : a ∈ damagedRun) _ _ => ?_) rfl)
  fin_cases ha <;> first | exact damagedJob_fits | trivial | exact fun h => absurd h.2 (by decide)

def damagedResult : FileCopyJob :=
  { damagedJob with active := true, actuallyTransferred := true, nBlockJobsFinished := 1 }

theorem damagedFleet_finishQueue :
    (damagedResult, { issued := [0], damaged := 1 }) ∈ damagedFleet.shared.finishQueue := by
  decide +kernel

/-- The read error is not counted, so the hole of zeros takes the place of the old entry. -/
theorem damaged_copy_published :
    (system damagedConfig 1 1 1).Reach (fun _ a => a.2.Definite) damagedFleet ∧
    (damagedResult, { issued := [0], damaged := 1 }) ∈ damagedFleet.shared.finishQueue ∧
    isReg damagedResult.stx.stx_mode ∧ 0 < JobHistory.damaged { issued := [0], damaged := 1 } ∧
    ¬ Unpublished damagedResult ∧
    ∃ env : Os.Sys.Environment,
      let calls := ((Finish.finishProcessorOne false damagedResult).run env []).2.map Sigma.fst
      .recursiveRemove "a" ∈ calls ∧ .renameat 0 "a.p" "a" ∈ calls := by
  refine ⟨damagedFleet_reach, damagedFleet_finishQueue, rfl, by decide, fun h => absurd h.1 (by decide),
    fun _ c => c.succeed damagedJob.stx, ?_, ?_⟩
  · decide +kernel
  · decide +kernel

end Copy2.Scheduler
