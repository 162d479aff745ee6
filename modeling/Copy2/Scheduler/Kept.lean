import Copy2.Scheduler.Frame

/-! # No copy is lost

A file job stays in its entry, with a history that only grows, until the step that puts both
on the finish queue. -/
namespace Copy2.Scheduler
open FileJob Lib

variable {nFile nBlock : ℕ}

/-- The failures of one history are among those of another. -/
structure JobHistory.Within (h g : JobHistory) : Prop where
  damaged : h.damaged ≤ g.damaged
  dropped : h.dropped ≤ g.dropped
  mismatched : h.mismatched ≤ g.mismatched

namespace JobHistory.Within
variable {h g e : JobHistory}

theorem refl (h : JobHistory) : h.Within h := ⟨le_rfl, le_rfl, le_rfl⟩

theorem trans (h₁ : h.Within g) (h₂ : g.Within e) : h.Within e :=
  ⟨h₁.1.trans h₂.1, h₁.2.trans h₂.2, h₁.3.trans h₂.3⟩

end JobHistory.Within

def Grows (d d' : CopyScheduler nFile nBlock) : Prop :=
  ∀ f, (d.history f).Within (d'.history f)

section Grows
variable {d : CopyScheduler nFile nBlock} {st : State nFile nBlock} {f : Fin nFile}
  {s : Slot nFile nBlock}

theorem Grows.refl (d : CopyScheduler nFile nBlock) : Grows d d := fun f => .refl (d.history f)

theorem Grows.update {d' : CopyScheduler nFile nBlock} {h : JobHistory}
    (hd : d'.history = Function.update d.history f h) (hf : (d.history f).Within h) :
    Grows d d' := by
  intro g
  rw [hd]
  by_cases hg : g = f
  · subst hg
    rwa [Function.update_self]
  · rw [Function.update_of_ne hg]
    exact .refl _

theorem schedule_grows (malloc : Option (Ptr × (ℕ → UInt8))) (pre : Bool) :
    Grows st.sched (st.schedulerScheduleBlockCopyJob f s malloc pre).sched := by
  rcases st.schedule_sched f s malloc pre with heq | ⟨-, data, heq⟩ <;> rw [heq]
  · exact .refl st.sched
  · exact .update (f := f) rfl ⟨le_rfl, le_rfl, le_rfl⟩

theorem updateSlot_grows (cfg : Config) :
    Grows st.sched (st.schedulerUpdateBlockCopyJob cfg f s).sched := by
  have hfinished : Grows st.sched (st.blockFinished cfg f s).sched := by
    let h : JobHistory := { st.sched.history f with
      mismatched := (st.sched.history f).mismatched + if st.hashMismatch cfg s then 1 else 0 }
    have hcounted {st₁ : State nFile nBlock}
        (h₁ : st₁.sched.history = Function.update st.sched.history f h) :
        Grows st.sched (st₁.schedulerScheduleBlockCopyJob f s none true).sched := fun g =>
      (Grows.update h₁ ⟨le_rfl, le_rfl, Nat.le_add_right ..⟩ g).trans (schedule_grows none true g)
    exact hcounted rfl
  rw [State.schedulerUpdateBlockCopyJob]
  split
  · cases (st.sched.blockCopyJobs s).type with
    | read =>
      dsimp only [State.readFinished]
      split <;> exact .refl st.sched
    | write =>
      dsimp only [State.writeFinished]
      split <;> exact .refl st.sched
    | readDst => exact hfinished
    | finish => exact hfinished
  · split
    · rw [State.requestFailed, State.clear_eq]
      exact .refl st.sched
    · exact .refl st.sched

theorem failRequest_grows : Grows st.sched (st.failRequest s).sched := by
  rw [State.failRequest]
  cases (st.sched.blockCopyJobs s).parent with
  | none => exact .refl st.sched
  | some g =>
    dsimp only
    rw [State.clear_eq]
    exact .update (f := g) rfl ⟨le_rfl, Nat.le_add_right .., le_rfl⟩

theorem submit_grows (submitted : ℤ) :
    Grows st.sched (st.schedIOSubmitBatch submitted).2.sched := by
  have hfold : ∀ (l : List (Slot nFile nBlock)) (st : State nFile nBlock),
      Grows st.sched (l.foldl State.failRequest st).sched := by
    intro l
    induction l with
    | nil => exact fun st => .refl st.sched
    | cons s l ih => exact fun st g => (failRequest_grows g).trans (ih _ g)
  rw [State.schedIOSubmitBatch]
  dsimp only
  split
  · exact .refl st.sched
  · split
    · exact hfold _ st
    · exact .refl st.sched

theorem ioComplete_grows {st' : State nFile nBlock} {res : ℤ}
    (hc : st.ioComplete s res = some st') : Grows st.sched st'.sched := by
  obtain ⟨cb, -, -, hst⟩ := State.ioComplete_cases hc
  rw [hst]
  exact .update (f := s.1) rfl ⟨Nat.le_add_right .., le_rfl, le_rfl⟩

/-- One step of its scheduler leaves an active entry its job, or hands the job over. -/
theorem apply_kept {cfg : Config} {op : Op nFile nBlock} {st' : State nFile nBlock}
    (h : st.apply cfg op = some st') (hactive : (st.sched.fileCopyJobs f).active = true) :
    (st'.sched.fixed f = st.sched.fixed f ∧ (st.sched.history f).Within (st'.sched.history f)) ∨
      st'.shared.finishQueue = st.shared.finishQueue ++
        [({ st.sched.fileCopyJobs f with actuallyTransferred := true }, st.sched.history f)] := by
  cases op with
  | updateSlot s =>
    obtain ⟨-, h⟩ := Option.ite_none_right_eq_some.mp h
    obtain rfl := Option.some.inj h
    exact .inl ⟨updateSlot_fixed cfg, updateSlot_grows cfg f⟩
  | updateFile g malloc =>
    obtain ⟨-, h⟩ := Option.ite_none_right_eq_some.mp h
    obtain rfl := Option.some.inj h
    by_cases hdone : (st.sched.fileCopyJobs g).blockCount ≤
        (st.sched.fileCopyJobs g).nBlockJobsFinished
    · rw [State.completeOrSchedule, if_pos hdone]
      obtain ⟨st₁, heq, hjobs, hhist, hqueue⟩ := (st.enqueued g).clearFile_cases g
      change (State.schedulerClearFileCopyJob (st.enqueued g) g).sched.fixed f = _ ∧
        (_ : JobHistory).Within ((State.schedulerClearFileCopyJob (st.enqueued g) g).sched.history f)
          ∨ (State.schedulerClearFileCopyJob (st.enqueued g) g).shared.finishQueue = _
      rw [heq]
      by_cases hf : f = g
      · subst hf
        exact .inr hqueue
      · refine .inl ⟨by simp [CopyScheduler.fixed, hf, hjobs, State.enqueued], ?_⟩
        rw [CopyScheduler.setHistory_history, Function.update_of_ne hf,
          CopyScheduler.setFile_history, hhist]
        exact .refl _
    · rcases State.completeOrSchedule_cases malloc hdone with heq | ⟨j, -, heq⟩ <;> rw [heq]
      · exact .inl ⟨rfl, .refl _⟩
      · exact .inl ⟨schedule_fixed .., schedule_grows malloc false f⟩
  | accept g newJob =>
    obtain ⟨hidle, h⟩ := Option.ite_none_left_eq_some.mp h
    obtain rfl := Option.some.inj h
    have hf : f ≠ g := by
      rintro rfl
      exact hidle hactive
    refine .inl ⟨by simp [State.acceptJob, CopyScheduler.fixed, hf], ?_⟩
    simpa [State.acceptJob, hf] using JobHistory.Within.refl _
  | submit submitted =>
    obtain rfl := Option.some.inj h
    exact .inl ⟨submit_fixed submitted, submit_grows submitted f⟩
  | complete s res => exact .inl ⟨ioComplete_fixed h, ioComplete_grows h f⟩
  | environment files =>
    obtain rfl := Option.some.inj h
    exact .inl ⟨rfl, .refl _⟩
  | finish i =>
    obtain ⟨-, h⟩ := Option.ite_none_right_eq_some.mp h
    obtain rfl := Option.some.inj h
    exact .inl ⟨rfl, .refl _⟩

end Grows
end Copy2.Scheduler
