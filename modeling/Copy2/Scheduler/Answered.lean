import Copy2.Scheduler.LedgerSteps

/-! # Whoever waits for an answer has asked

A slot whose status says that its request is in progress is left alone by every pass. Its
request is then in the batch or with the kernel, unless a completion has stored that very
status. -/
namespace Copy2.Scheduler
open FileJob Lib

variable {nFile nBlock : ℕ}

/-- The job can be counted to its end, and no completion stores the status of a request in
progress. -/
def Op.Definite : Op nFile nBlock → Prop
  | .accept _ newJob => Fits newJob ∧ newJob.blockCount ≤ 2 ^ 31
  | .complete _ res => ¬ (res ≤ 0 ∧ toInt (-res) = einprogress)
  | .updateSlot _ | .updateFile _ _ | .submit _ | .environment _ | .finish _ => True

theorem Op.Definite.feeds {op : Op nFile nBlock} (h : op.Definite) : op.Feeds Fits := by
  cases op with
  | accept f newJob => exact h.1
  | _ => trivial

theorem aioStatus_ne_einprogress {nbytes : ℕ} {res : ℤ}
    (h : ¬ (res ≤ 0 ∧ toInt (-res) = einprogress)) : aioStatus nbytes res ≠ einprogress := by
  rw [aioStatus]
  split
  · rename_i hle
    exact fun heq => h ⟨hle, heq⟩
  · split <;> decide

/-- Every slot but `s` that waits for an answer has a request on its way. -/
def WaitsOff (d : CopyScheduler nFile nBlock) (s : Slot nFile nBlock) : Prop :=
  ∀ t ≠ s, (d.blockCopyJobs t).inUse = true → (d.blockCopyJobs t).status = einprogress →
    t ∈ d.pending

def Waits (d : CopyScheduler nFile nBlock) : Prop :=
  ∀ t, (d.blockCopyJobs t).inUse = true → (d.blockCopyJobs t).status = einprogress → t ∈ d.pending

section Waits
variable {d d' : CopyScheduler nFile nBlock} {s : Slot nFile nBlock} {st : State nFile nBlock}
  {f : Fin nFile}

theorem Waits.off (h : Waits d) : WaitsOff d s := fun t _ => h t

theorem WaitsOff.setBlock (h : WaitsOff d s) (b : BlockCopyJob nFile) :
    WaitsOff (d.setBlock s b) s := by
  intro t ht
  rw [CopyScheduler.setBlock_blockCopyJobs, Function.update_of_ne ht]
  exact h t ht

/-- The slot does not wait. -/
theorem WaitsOff.waits (h : WaitsOff d s) (hs : (d.blockCopyJobs s).inUse = true →
    (d.blockCopyJobs s).status ≠ einprogress) : Waits d := by
  intro t huse hstatus
  by_cases ht : t = s
  · subst ht
    exact absurd hstatus (hs huse)
  · exact h t ht huse hstatus

/-- The slot has put its request into the batch. -/
theorem WaitsOff.deferred (h : WaitsOff d s) : Waits (d.schedIOSubmitDeferred s) := by
  intro t huse hstatus
  rw [CopyScheduler.pending, CopyScheduler.deferred_cbBatch, CopyScheduler.deferred_held]
  by_cases ht : t = s
  · simp [ht]
  · have hmem := h t ht huse hstatus
    rw [CopyScheduler.pending, List.mem_append] at hmem
    simp only [List.mem_append, List.mem_singleton]
    exact hmem.imp .inl id

theorem WaitsOff.free (h : WaitsOff d s) : Waits (d.setBlock s {}) :=
  (h.setBlock {}).waits fun huse => by simp at huse

theorem WaitsOff.schedule (h : WaitsOff st.sched s) (malloc : Option (Ptr × (ℕ → UInt8)))
    (pre : Bool) : Waits (st.schedulerScheduleBlockCopyJob f s malloc pre).sched := by
  rcases st.schedule_sched f s malloc pre with heq | ⟨-, data, heq⟩ <;> rw [heq]
  · exact h.free
  · exact (h.setBlock _).deferred

theorem Waits.updateSlot (h : Waits st.sched) (cfg : Config) :
    Waits (st.schedulerUpdateBlockCopyJob cfg f s).sched := by
  rw [State.schedulerUpdateBlockCopyJob]
  split
  · cases (st.sched.blockCopyJobs s).type with
    | read =>
      dsimp only [State.readFinished]
      split
      · exact (h.off.setBlock _).waits fun _ => by simp [einprogress]
      · exact (h.off.setBlock _).deferred
    | write =>
      dsimp only [State.writeFinished]
      split
      · exact (h.off.setBlock _).deferred
      · exact (h.off.setBlock _).waits fun _ => by simp [einprogress]
    | readDst => exact (h.off.setBlock _).schedule none true
    | finish => exact (h.off.setBlock _).schedule none true
  · split
    · rw [State.requestFailed, State.clear_eq]
      exact h.off.free
    · exact h

theorem Waits.completeOrSchedule (h : Waits st.sched) (hl : Ledger st.sched)
    (hactive : (st.sched.fileCopyJobs f).active = true) (malloc : Option (Ptr × (ℕ → UInt8))) :
    Waits (st.completeOrSchedule f malloc).sched := by
  by_cases hdone : (st.sched.fileCopyJobs f).blockCount ≤ (st.sched.fileCopyJobs f).nBlockJobsFinished
  · rw [State.completeOrSchedule_done malloc hdone (hl.free_of_complete hactive hdone)]
    exact h
  · rcases State.completeOrSchedule_cases malloc hdone with heq | ⟨j, -, heq⟩ <;> rw [heq]
    · exact h
    · exact h.off.schedule malloc false

/-- The requests of the batch are failed one after another, and their slots cleared. -/
theorem Waits.failBatch (l : List (Slot nFile nBlock)) {st : State nFile nBlock}
    (h : Waits { st.sched with cbBatch := l }) (hl : Ledger { st.sched with cbBatch := l }) :
    Waits { (l.foldl State.failRequest st).sched with cbBatch := [] } := by
  induction l generalizing st with
  | nil => exact h
  | cons s l ih =>
    refine ih (fun t huse hstatus => ?_) hl.failRequest
    have hs := hl.pending s (by simp [CopyScheduler.pending])
    have hparent : (st.sched.blockCopyJobs s).parent = some s.1 := (hl.owner s hs.1).1
    rw [State.failRequest, hparent] at huse hstatus ⊢
    dsimp only at huse hstatus ⊢
    rw [State.clear_eq] at huse hstatus ⊢
    have ht : t ≠ s := by
      rintro rfl
      simp at huse
    have hmem := h t (by simpa [ht] using huse) (by simpa [ht] using hstatus)
    simpa [CopyScheduler.pending, ht] using hmem

theorem Waits.submit (h : Waits st.sched) (hl : Ledger st.sched) (submitted : ℤ) :
    Waits (st.schedIOSubmitBatch submitted).2.sched := by
  rw [State.schedIOSubmitBatch]
  dsimp only
  split
  · exact h
  · split
    · exact failBatch _ h hl
    · intro t huse hstatus
      have hmem := h t huse hstatus
      rw [CopyScheduler.pending, List.mem_append] at hmem
      simp only [CopyScheduler.pending, List.map_append, List.map_map, List.mem_append]
      rcases hmem with hbatch | hheld
      · rw [← List.take_append_drop submitted.toNat st.sched.cbBatch, List.mem_append] at hbatch
        exact hbatch.symm.imp_right fun ht => .inr (List.mem_map.mpr ⟨t, ht, rfl⟩)
      · exact .inr (.inl hheld)

theorem Waits.ioComplete {st' : State nFile nBlock} (h : Waits st.sched) {res : ℤ}
    (hres : ¬ (res ≤ 0 ∧ toInt (-res) = einprogress)) (hc : st.ioComplete s res = some st') :
    Waits st'.sched := by
  obtain ⟨cb, -, -, hst⟩ := State.ioComplete_cases hc
  rw [hst]
  intro t huse hstatus
  have ht : t ≠ s := by
    rintro rfl
    exact absurd hstatus (by simpa using aioStatus_ne_einprogress hres)
  have hmem := h t (by simpa [ht] using huse) (by simpa [ht] using hstatus)
  rw [CopyScheduler.pending, List.mem_append] at hmem
  simp only [CopyScheduler.pending, CopyScheduler.setHistory_cbBatch, CopyScheduler.setBlock_cbBatch,
    CopyScheduler.setHistory_held, CopyScheduler.setBlock_held, Ledger.map_fst_eraseP,
    List.mem_append]
  exact hmem.imp_right fun hheld => (List.mem_erase_of_ne ht).mpr hheld

theorem Waits.apply {cfg : Config} {st' : State nFile nBlock} {op : Op nFile nBlock}
    (h : Waits st.sched) (hl : Ledger st.sched) (hop : op.Definite)
    (hst : st.apply cfg op = some st') : Waits st'.sched := by
  cases op with
  | updateSlot s =>
    obtain ⟨-, hst⟩ := Option.ite_none_right_eq_some.mp hst
    obtain rfl := Option.some.inj hst
    exact h.updateSlot cfg
  | updateFile f malloc =>
    obtain ⟨hactive, hst⟩ := Option.ite_none_right_eq_some.mp hst
    obtain rfl := Option.some.inj hst
    exact h.completeOrSchedule hl hactive malloc
  | accept f newJob =>
    obtain ⟨-, hst⟩ := Option.ite_none_left_eq_some.mp hst
    obtain rfl := Option.some.inj hst
    exact h
  | submit submitted =>
    obtain rfl := Option.some.inj hst
    exact h.submit hl submitted
  | complete s res => exact h.ioComplete hop hst
  | environment files =>
    obtain rfl := Option.some.inj hst
    exact h
  | finish i =>
    obtain ⟨-, hst⟩ := Option.ite_none_right_eq_some.mp hst
    obtain rfl := Option.some.inj hst
    exact h

end Waits

/-- The ledger is right, every slot that waits has asked, and every job can be counted to its
end. -/
structure Answered (d : CopyScheduler nFile nBlock) : Prop where
  ledger : Ledger d
  waits : Waits d
  count_le : ∀ f, (d.fileCopyJobs f).active = true → (d.fileCopyJobs f).blockCount ≤ 2 ^ 31

namespace Answered

theorem initial : Answered ({} : CopyScheduler nFile nBlock) where
  ledger := .initial
  waits t huse := by simp at huse
  count_le f hf := by simp at hf

theorem apply {cfg : Config} {st st' : State nFile nBlock} {op : Op nFile nBlock}
    (h : Answered st.sched) (hop : op.Definite) (hst : st.apply cfg op = some st') :
    Answered st'.sched where
  ledger := h.ledger.apply hop.feeds hst
  waits := h.waits.apply h.ledger hop hst
  count_le f hf := by
    rcases apply_fixed hst f with hfix | ⟨-, -, -, -, hgone⟩ | ⟨newJob, rfl, -, hnew⟩
    · have hcount : (st'.sched.fileCopyJobs f).blockCount = (st.sched.fileCopyJobs f).blockCount :=
        (congrArg FileCopyJob.blockCount hfix :)
      have hactive := congrArg FileCopyJob.active hfix
      exact hcount ▸ h.count_le f (hactive.symm.trans hf)
    · simp [hgone] at hf
    · have hcount : (st'.sched.fileCopyJobs f).blockCount = newJob.blockCount :=
        (congrArg FileCopyJob.blockCount hnew :)
      exact hcount ▸ hop.2

theorem of_reach {cfg : Config} {n : ℕ} {w : Fleet n nFile nBlock}
    (h : (system cfg n nFile nBlock).Reach (fun _ a => a.2.Definite) w) (k : Fin n) :
    Answered (w.scheds k) := by
  refine h.invariant (I := fun w => ∀ k, Answered (w.scheds k)) ?_ ?_ k
  · intro w hw k
    rw [hw.1 k]
    exact .initial
  · intro w a w' hw hop hnext k
    obtain ⟨st, hst, rfl⟩ := Option.map_eq_some_iff.mp hnext
    by_cases hk : k = a.1
    · subst hk
      simpa [Fleet.put] using (hw a.1).apply hop hst
    · simpa [Fleet.put, hk] using hw k

end Answered
end Copy2.Scheduler
