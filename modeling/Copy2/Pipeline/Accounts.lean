import Copy2.Pipeline.Threads
import Copy2.Lib.Count
import Mathlib.Algebra.BigOperators.Group.Finset.Basic
import Mathlib.Algebra.Order.Group.Multiset

/-! # Where the jobs are

A job that was queued is on the job queue, in the table of a scheduler, or has been
transferred; from then on it is on the finish queue, with a finish processor, or
processed. No step loses one or makes two of it. -/
namespace Copy2.Pipeline
open FileJob Lib Scheduler

variable {n nFile nBlock m : ℕ} {cfg : Config} {maxFDs : ℕ} {s t : Threads n nFile nBlock m}

/-- What a transfer does not change of a job. -/
def ticket (job : FileCopyJob) : FileCopyJob :=
  { job with
    active := true, actuallyTransferred := true
    nBlockJobsScheduled := 0, nBlockJobsFinished := 0, nErrors := 0 }

def slotTicket (job : FileCopyJob) : Multiset FileCopyJob :=
  if job.active then {ticket job} else 0

def inFlight (w : Fleet n nFile nBlock) : Multiset FileCopyJob :=
  ∑ x : Fin n × Fin nFile, slotTicket ((w.scheds x.1).fileCopyJobs x.2)

theorem slotTicket_fixed {d d' : CopyScheduler nFile nBlock} {f : Fin nFile}
    (h : d'.fixed f = d.fixed f) : slotTicket (d'.fileCopyJobs f) = slotTicket (d.fileCopyJobs f) :=
  (congrArg slotTicket h : slotTicket (d'.fixed f) = slotTicket (d.fixed f))

section put
variable {w : Fleet n nFile nBlock} {k : Fin n} (st : State nFile nBlock)

theorem inFlight_put_one (f : Fin nFile)
    (h : ∀ g, g ≠ f → slotTicket (st.sched.fileCopyJobs g) =
      slotTicket ((w.scheds k).fileCopyJobs g)) :
    inFlight (w.put k st) + slotTicket ((w.scheds k).fileCopyJobs f) =
      inFlight w + slotTicket (st.sched.fileCopyJobs f) := by
  have hone := sum_add_of_one (f := fun x => slotTicket ((w.scheds x.1).fileCopyJobs x.2))
    (g := fun x => slotTicket (((w.put k st).scheds x.1).fileCopyJobs x.2)) (k, f) ?_
  · simpa [Fleet.put, inFlight] using hone
  · rintro ⟨j, g⟩ hne
    by_cases hj : j = k
    · subst hj
      simpa [Fleet.put] using h g fun he => hne (he ▸ rfl)
    · simp [Fleet.put, hj]

theorem inFlight_put (h : ∀ f, st.sched.fixed f = (w.scheds k).fixed f) :
    inFlight (w.put k st) = inFlight w := by
  refine Finset.sum_congr rfl ?_
  rintro ⟨j, f⟩ -
  by_cases hj : j = k
  · subst hj
    simpa [Fleet.put] using slotTicket_fixed (h f)
  · simp [Fleet.put, hj]

end put

def FinishPhase.job : FinishPhase n → Multiset FileCopyJob
  | process _ fileJob => {fileJob}
  | _ => 0

structure Accounted (s : Threads n nFile nBlock m) : Prop where
  jobs : (s.queued.map ticket : Multiset FileCopyJob) =
    ↑(s.jobQueue.map ticket) + inFlight s.fleet + ↑(s.transferred.map ticket)
  complete : ∀ job ∈ s.transferred, job.blockCount ≤ job.nBlockJobsFinished
  finishJobs : (s.finishQueued : Multiset FileCopyJob) =
    ↑(s.finishQueue.map Prod.fst) + ∑ i, (s.finisher i).job + ↑s.processed

structure Still (s t : Threads n nFile nBlock m) : Prop where
  queued : t.queued = s.queued
  jobQueue : t.jobQueue = s.jobQueue
  transferred : t.transferred = s.transferred
  finishQueued : t.finishQueued = s.finishQueued
  processed : t.processed = s.processed
  inFlight : inFlight t.fleet = inFlight s.fleet
  finishQueue : t.finishQueue = s.finishQueue
  working : ∑ i, (t.finisher i).job = ∑ i, (s.finisher i).job

theorem Accounted.still (h : Accounted s) (hst : Still s t) : Accounted t where
  jobs := by rw [hst.queued, hst.jobQueue, hst.inFlight, hst.transferred, h.jobs]
  complete := hst.transferred ▸ h.complete
  finishJobs := by rw [hst.finishQueued, hst.finishQueue, hst.working, hst.processed, h.finishJobs]

theorem Still.refl (s : Threads n nFile nBlock m) : Still s s := ⟨rfl, rfl, rfl, rfl, rfl, rfl, rfl, rfl⟩

theorem Still.goto (h : Still s t) (k : Fin n) (p : Phase nFile nBlock) : Still s (t.goto k p) :=
  { h with }

theorem Still.put {k : Fin n} {st : State nFile nBlock}
    (hfixed : ∀ f, st.sched.fixed f = (s.fleet.scheds k).fixed f)
    (hqueue : st.shared.finishQueue = s.finishQueue) : Still s (s.put k st) where
  queued := rfl
  jobQueue := rfl
  transferred := rfl
  finishQueued := rfl
  processed := rfl
  inFlight := inFlight_put st hfixed
  finishQueue := hqueue
  working := rfl

section entries
variable (st : State nFile nBlock) {f : Fin nFile}

theorem updateSlot_still (x : Slot nFile nBlock) :
    (∀ g, (st.updateSlot cfg x).sched.fixed g = st.sched.fixed g) ∧
      (st.updateSlot cfg x).shared.finishQueue = st.shared.finishQueue := by
  rw [State.updateSlot]
  split
  · exact ⟨fun g => updateSlot_fixed cfg, updateSlot_finishQueue cfg⟩
  · exact ⟨fun _ => rfl, rfl⟩

/-- A complete job moves from the table to the finish queue. -/
theorem completeOrSchedule_handOver (malloc : Option (Ptr × (ℕ → UInt8)))
    (hdone : (st.sched.fileCopyJobs f).blockCount ≤ (st.sched.fileCopyJobs f).nBlockJobsFinished) :
    (st.completeOrSchedule f malloc).sched.fileCopyJobs =
        Function.update st.sched.fileCopyJobs f {} ∧
      (st.completeOrSchedule f malloc).shared.finishQueue = st.shared.finishQueue ++
        [({ st.sched.fileCopyJobs f with actuallyTransferred := true }, st.sched.history f)] := by
  obtain ⟨st₁, heq, hjobs, -, hqueue⟩ := (st.enqueued f).clearFile_cases f
  rw [State.completeOrSchedule, if_pos hdone]
  change (State.schedulerClearFileCopyJob (st.enqueued f) f).sched.fileCopyJobs = _ ∧
    (State.schedulerClearFileCopyJob (st.enqueued f) f).shared.finishQueue = _
  rw [heq]
  exact ⟨by simp [hjobs, State.enqueued], hqueue⟩

theorem completeOrSchedule_still (malloc : Option (Ptr × (ℕ → UInt8)))
    (hdone : ¬ (st.sched.fileCopyJobs f).blockCount ≤
      (st.sched.fileCopyJobs f).nBlockJobsFinished) :
    (∀ g, (st.completeOrSchedule f malloc).sched.fixed g = st.sched.fixed g) ∧
      (st.completeOrSchedule f malloc).shared.finishQueue = st.shared.finishQueue := by
  rcases State.completeOrSchedule_cases malloc hdone with heq | ⟨j, -, heq⟩ <;> rw [heq]
  · exact ⟨fun _ => rfl, rfl⟩
  · exact ⟨fun g => schedule_fixed malloc false, schedule_finishQueue malloc false⟩

end entries

theorem coe_append_singleton (l : List FileCopyJob) (job : FileCopyJob) :
    ((l ++ [job] : List FileCopyJob) : Multiset FileCopyJob) = ↑l + {job} := rfl

structure HandedOver (s t : Threads n nFile nBlock m) (job : FileCopyJob) : Prop where
  queued : t.queued = s.queued
  jobQueue : t.jobQueue = s.jobQueue
  transferred : t.transferred = s.transferred ++ [job]
  finishQueued : t.finishQueued = s.finishQueued ++ [job]
  processed : t.processed = s.processed
  inFlight : inFlight t.fleet + {ticket job} = inFlight s.fleet
  finishQueue : t.finishQueue.map Prod.fst = s.finishQueue.map Prod.fst ++ [job]
  working : ∑ i, (t.finisher i).job = ∑ i, (s.finisher i).job

theorem Accounted.handOver {job : FileCopyJob} (h : Accounted s) (ht : HandedOver s t job)
    (hdone : job.blockCount ≤ job.nBlockJobsFinished) : Accounted t where
  jobs := by
    rw [ht.queued, ht.jobQueue, ht.transferred, h.jobs, ← ht.inFlight, List.map_append,
      List.map_cons, List.map_nil, coe_append_singleton]
    abel
  complete job' hj := by
    rw [ht.transferred] at hj
    rcases List.mem_append.mp hj with hj | hj
    · exact h.complete job' hj
    · exact List.mem_singleton.mp hj ▸ hdone
  finishJobs := by
    rw [ht.finishQueued, ht.finishQueue, ht.working, ht.processed, coe_append_singleton,
      coe_append_singleton, h.finishJobs]
    abel

theorem Accounted.scheduleEntry {k : Fin n} {f : Fin nFile} {malloc : Option (Ptr × (ℕ → UInt8))}
    (h : Accounted s) (hs : s.scheduleEntry maxFDs k f malloc = some t) : Accounted t := by
  rw [Threads.scheduleEntry] at hs
  dsimp only at hs
  split at hs
  · rename_i hactive
    split at hs
    · rename_i hdone
      obtain ⟨-, hs⟩ := Option.ite_none_right_eq_some.mp hs
      obtain rfl := Option.some.inj hs
      obtain ⟨hjobs, hqueue⟩ := completeOrSchedule_handOver (s.fleet.view k) malloc hdone
      refine h.handOver ⟨rfl, rfl, rfl, rfl, rfl, ?_, ?_, rfl⟩ hdone
      · have hone := inFlight_put_one (w := s.fleet) (k := k)
          ((s.fleet.view k).completeOrSchedule f malloc) f fun g hg => by
            rw [hjobs, Function.update_of_ne hg]
            rfl
        have hslot : slotTicket ((s.fleet.scheds k).fileCopyJobs f) =
          {ticket ((s.fleet.scheds k).fileCopyJobs f)} := if_pos hactive
        rw [hjobs, Function.update_self, hslot] at hone
        exact hone.trans (add_zero _)
      · exact (congrArg (List.map Prod.fst) hqueue).trans List.map_append
    · rename_i hdone
      obtain rfl := Option.some.inj hs
      obtain ⟨hfixed, hqueue⟩ := completeOrSchedule_still (s.fleet.view k) malloc hdone
      exact h.still (.put hfixed hqueue)
  · obtain rfl := Option.some.inj hs
    exact h

theorem coe_eraseIdx {l : List FileCopyJob} {i : ℕ} {job : FileCopyJob} (h : l[i]? = some job) :
    (l : Multiset FileCopyJob) = ↑(l.eraseIdx i) + {job} := by
  obtain ⟨hi, rfl⟩ := List.getElem?_eq_some_iff.mp h
  rw [← coe_append_singleton]
  exact Multiset.coe_eq_coe.mpr ((List.getElem_cons_eraseIdx_perm hi).symm.trans
    (List.perm_append_singleton ..).symm)

structure Accepted (s t : Threads n nFile nBlock m) (job : FileCopyJob) : Prop where
  queued : t.queued = s.queued
  jobQueue : (s.jobQueue : Multiset FileCopyJob) = ↑t.jobQueue + {job}
  transferred : t.transferred = s.transferred
  finishQueued : t.finishQueued = s.finishQueued
  processed : t.processed = s.processed
  inFlight : Pipeline.inFlight t.fleet = Pipeline.inFlight s.fleet + {ticket job}
  finishQueue : t.finishQueue = s.finishQueue
  working : ∑ i, (t.finisher i).job = ∑ i, (s.finisher i).job

theorem Accounted.accept {job : FileCopyJob} (h : Accounted s) (ht : Accepted s t job) :
    Accounted t where
  jobs := by
    have hmap := congrArg (Multiset.map ticket) ht.jobQueue
    rw [Multiset.map_add, Multiset.map_coe, Multiset.map_coe, Multiset.map_singleton] at hmap
    rw [ht.queued, ht.transferred, h.jobs, ht.inFlight, hmap]
    abel
  complete := ht.transferred ▸ h.complete
  finishJobs := by rw [ht.finishQueued, ht.finishQueue, ht.working, ht.processed, h.finishJobs]

theorem Accounted.acceptEntry {k : Fin n} {f : Fin nFile} {todo : List (Fin nFile)}
    {activeJobs : ℕ} {dequeued : Option ℕ} (h : Accounted s)
    (hs : s.acceptEntry k f todo activeJobs dequeued = some t) : Accounted t := by
  unfold Threads.acceptEntry at hs
  dsimp only at hs
  split at hs
  · obtain rfl := Option.some.inj hs
    exact h.still ((Still.refl s).goto ..)
  · rename_i hactive
    split at hs
    · rename_i i
      obtain ⟨job, hjob, rfl⟩ := Option.map_eq_some_iff.mp hs
      refine h.accept ⟨rfl, coe_eraseIdx hjob, rfl, rfl, rfl, ?_, rfl, rfl⟩
      have hone := inFlight_put_one (w := s.fleet) (k := k) ((s.fleet.view k).acceptJob f job)
        f fun g hg => by
          simp [State.acceptJob, hg, Fleet.view]
      have hslot : slotTicket ((s.fleet.scheds k).fileCopyJobs f) = 0 := if_neg hactive
      have hnew : slotTicket (((s.fleet.view k).acceptJob f job).sched.fileCopyJobs f) =
          {ticket job} := by
        simp [State.acceptJob, slotTicket, ticket]
      rw [hslot, hnew, add_zero] at hone
      exact hone
    · obtain ⟨-, hs⟩ := Option.ite_none_right_eq_some.mp hs
      obtain rfl := Option.some.inj hs
      exact h.still ((Still.refl s).goto ..)

theorem Accounted.schedulerStep {k : Fin n} {c : Choice nFile nBlock} (h : Accounted s)
    (hs : s.schedulerStep cfg maxFDs k c = some t) : Accounted t := by
  rw [Threads.schedulerStep] at hs
  dsimp only at hs
  have hgoto (p) : Accounted (s.goto k p) := h.still ((Still.refl s).goto k p)
  split at hs
  · rename_i x todo _
    obtain rfl := Option.some.inj hs
    obtain ⟨hfixed, hqueue⟩ := updateSlot_still (s.fleet.view k) x
    exact h.still ((Still.put hfixed hqueue).goto ..)
  · obtain rfl := Option.some.inj hs
    exact hgoto _
  · obtain ⟨u, hu, rfl⟩ := Option.map_eq_some_iff.mp hs
    exact (h.scheduleEntry hu).still ((Still.refl u).goto ..)
  · obtain rfl := Option.some.inj hs
    exact hgoto _
  · exact h.acceptEntry hs
  · obtain rfl := Option.some.inj hs
    exact hgoto _
  · obtain rfl := Option.some.inj hs
    exact hgoto _
  · obtain rfl := Option.some.inj hs
    exact h.still ((Still.put (fun f => submit_fixed c.submitted)
      (submit_finishQueue c.submitted)).goto ..)
  · split at hs
    · rename_i e _
      obtain ⟨st, hst, rfl⟩ := Option.map_eq_some_iff.mp hs
      exact h.still (.put (fun f => ioComplete_fixed hst) (ioComplete_finishQueue hst))
    · obtain rfl := Option.some.inj hs
      exact hgoto _
  · obtain rfl := Option.some.inj hs
    exact (hgoto .exited).still { Still.refl _ with }
  · cases hs

/-- Something is put on the finish queue. -/
theorem Accounted.enqueueFinish {job : FileCopyJob} (h : Accounted s)
    (hs : s.enqueueFinish maxFDs job = some t) : Accounted t := by
  obtain ⟨-, hs⟩ := Option.ite_none_right_eq_some.mp hs
  obtain rfl := Option.some.inj hs
  have hfinish : ((s.finishQueued ++ [job] : List _) : Multiset FileCopyJob) =
      ↑((s.finishQueue ++ [(job, ({} : JobHistory))]).map Prod.fst) + ∑ i, (s.finisher i).job +
        ↑s.processed := by
    rw [List.map_append, List.map_cons, List.map_nil, coe_append_singleton, coe_append_singleton,
      h.finishJobs]
    abel
  exact { h with finishJobs := hfinish }

theorem working_finishGoto {i : Fin m} (p : FinishPhase n) :
    ∑ j, ((s.finishGoto i p).finisher j).job + (s.finisher i).job =
      ∑ j, (s.finisher j).job + p.job := by
  have hone := sum_add_of_one (f := fun j => (s.finisher j).job)
    (g := fun j => ((s.finishGoto i p).finisher j).job) i fun j hj => by
      simp [Threads.finishGoto, hj]
  simpa [Threads.finishGoto] using hone

theorem Accounted.finishGoto {i : Fin m} {p : FinishPhase n} (h : Accounted s)
    (hp : p.job = (s.finisher i).job) : Accounted (s.finishGoto i p) :=
  h.still { Still.refl s with
    working := by
      have hw := working_finishGoto (s := s) (i := i) p
      rw [hp] at hw
      exact add_right_cancel hw }

theorem Accounted.finisherStep {i : Fin m} {c : FinishChoice} (h : Accounted s)
    (hs : s.finisherStep maxFDs i c = some t) : Accounted t := by
  rw [Threads.finisherStep] at hs
  split at hs
  · rename_i hp
    obtain rfl := Option.some.inj hs
    exact h.finishGoto (by rw [hp]; rfl)
  · rename_i hp
    obtain rfl := Option.some.inj hs
    exact h.finishGoto (by rw [hp]; rfl)
  · rename_i done hp
    split at hs
    · rename_i j _
      obtain ⟨x, hx, rfl⟩ := Option.map_eq_some_iff.mp hs
      have hw := working_finishGoto (s := s) (i := i) (.process done x.1)
      rw [hp] at hw
      have hq : (s.finishQueue.map Prod.fst)[j]? = some x.1 := by
        rw [List.getElem?_map, hx]
        rfl
      have hfinish : (s.finishQueued : Multiset FileCopyJob) =
          ↑((s.finishQueue.eraseIdx j).map Prod.fst) +
            ∑ j, ((s.finishGoto i (.process done x.1)).finisher j).job + ↑s.processed := by
        rw [h.finishJobs, coe_eraseIdx hq, List.eraseIdx_map, show ∑ j,
          ((s.finishGoto i (.process done x.1)).finisher j).job = ∑ j, (s.finisher j).job + {x.1}
          from (add_zero _).symm.trans hw]
        abel
      exact { h with finishJobs := hfinish }
    · obtain ⟨-, hs⟩ := Option.ite_none_right_eq_some.mp hs
      obtain rfl := Option.some.inj hs
      refine h.finishGoto ?_
      rw [hp]
      cases done <;> rfl
  · rename_i done fileJob hp
    split at hs
    · exact h.enqueueFinish hs
    · obtain rfl := Option.some.inj hs
      have hw := working_finishGoto (s := s) (i := i) (.dequeue done)
      rw [hp] at hw
      have hfinish : (s.finishQueued : Multiset FileCopyJob) = ↑(s.finishQueue.map Prod.fst) +
          ∑ j, ((s.finishGoto i (.dequeue done)).finisher j).job +
            ((s.processed ++ [fileJob] : List _) : Multiset FileCopyJob) := by
        rw [h.finishJobs, coe_append_singleton, ← show ∑ j,
          ((s.finishGoto i (.dequeue done)).finisher j).job + {fileJob} = ∑ j, (s.finisher j).job
          from hw.trans (add_zero _)]
        abel
      exact { h with finishJobs := hfinish }
  · cases hs

theorem Accounted.step {a : Move n nFile nBlock m} (h : Accounted s)
    (hs : s.step cfg maxFDs a = some t) : Accounted t := by
  cases a with
  | enqueueJob job =>
    obtain ⟨-, hs⟩ := Option.ite_none_right_eq_some.mp hs
    obtain rfl := Option.some.inj hs
    have hjobs : ((s.queued ++ [job]).map ticket : Multiset FileCopyJob) =
        ↑((s.jobQueue ++ [job]).map ticket) + inFlight s.fleet + ↑(s.transferred.map ticket) := by
      rw [List.map_append, List.map_append, List.map_cons, List.map_nil, coe_append_singleton,
        coe_append_singleton, h.jobs]
      abel
    exact { h with jobs := hjobs }
  | enqueueFinish job => exact h.enqueueFinish (Option.ite_none_left_eq_some.mp hs).2
  | crawlDone =>
    obtain ⟨-, hs⟩ := Option.ite_none_left_eq_some.mp hs
    obtain rfl := Option.some.inj hs
    exact h.still { Still.refl _ with }
  | environment files =>
    obtain rfl := Option.some.inj hs
    exact h.still { Still.refl _ with }
  | scheduler k c => exact h.schedulerStep hs
  | finisher i c => exact h.finisherStep hs

theorem Accounted.start (files : Fd → ByteFile) :
    Accounted (.start files : Threads n nFile nBlock m) where
  jobs := by
    have hempty : inFlight (.start files : Fleet n nFile nBlock) = 0 :=
      Finset.sum_eq_zero fun _ _ => rfl
    change 0 = 0 + inFlight (.start files : Fleet n nFile nBlock) + 0
    rw [hempty]
    rfl
  complete job hj := absurd hj List.not_mem_nil
  finishJobs := by
    change 0 = 0 + ∑ _, 0 + 0
    rw [Finset.sum_const_zero]
    rfl

end Copy2.Pipeline
