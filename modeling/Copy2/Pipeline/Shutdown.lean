import Copy2.Pipeline.Accounts

/-! # Are all jobs done when all threads are gone?

A thread leaves only when its queue is empty, but what it knows of the threads before it
may be newer than that: a scheduler looks at the queue first and at `crawlDone` later. -/
namespace Copy2.Pipeline
open FileJob Lib Scheduler

variable {n nFile nBlock m : ℕ} {cfg : Config} {maxFDs : ℕ} {s t : Threads n nFile nBlock m}

/-- Every job that was queued has been transferred and processed, exactly once. -/
structure NothingLost (s : Threads n nFile nBlock m) : Prop where
  transferred : (s.transferred.map ticket).Perm (s.queued.map ticket)
  complete : ∀ job ∈ s.transferred, job.blockCount ≤ job.nBlockJobsFinished
  processed : s.processed.Perm s.finishQueued

def Idle (d : CopyScheduler nFile nBlock) : Prop := ∀ f, (d.fileCopyJobs f).active = false

/-- What a scheduler knows of its table and of the crawl. -/
def PhaseOk (d : CopyScheduler nFile nBlock) (crawlDone : Bool) : Phase nFile nBlock → Prop
  | .accept todo activeJobs =>
    (activeJobs = 0 → Idle d) ∧ ∀ f, f ∉ todo → (d.fileCopyJobs f).active = true
  | .check activeJobs => activeJobs = 0 → Idle d
  | .returned | .exited => Idle d ∧ crawlDone = true
  | _ => True

/-- The queue has been looked at for the last time, if the crawl is done. -/
def Leaving : Phase nFile nBlock → Prop
  | .check activeJobs => activeJobs = 0
  | .returned | .exited => True
  | _ => False

def FinisherOk (done : Fin n → Bool) : FinishPhase n → Prop
  | .readFlags todo d => d = true → ∀ k, k ∉ todo → done k = true
  | .dequeue d | .process d _ => d = true → ∀ k, done k = true
  | .exited => ∀ k, done k = true

structure Known (s : Threads n nFile nBlock m) : Prop where
  phase : ∀ k, PhaseOk (s.fleet.scheds k) s.crawlDone (s.phase k)
  done : ∀ k, s.done k = true → s.phase k = .exited
  drained : s.crawlDone = true → s.jobQueue = [] ∨ ∃ k, ¬ Leaving (s.phase k)
  finisher : ∀ i, FinisherOk s.done (s.finisher i)
  finished : (∀ i, s.finisher i = .exited) → s.finishQueue = []

/-- `crawlDone` is not set while all schedulers stand between their last look at the queue and their
reading of the flag, with a job left on the queue. -/
def FlagInTime (s : Threads n nFile nBlock m) : Move n nFile nBlock m → Prop
  | .crawlDone => s.jobQueue = [] ∨ ∃ k, s.phase k ≠ .check 0
  | _ => True

theorem PhaseOk.done {d : CopyScheduler nFile nBlock} {crawlDone : Bool} {p : Phase nFile nBlock}
    (h : PhaseOk d crawlDone p) : PhaseOk d true p := by
  cases p with
  | returned => exact ⟨h.1, rfl⟩
  | exited => exact ⟨h.1, rfl⟩
  | _ => exact h

theorem FinisherOk.mono {done done' : Fin n → Bool} {p : FinishPhase n} (h : FinisherOk done p)
    (hd : ∀ k, done k = true → done' k = true) : FinisherOk done' p := by
  cases p with
  | readFlags todo d => exact fun ht k hk => hd k (h ht k hk)
  | dequeue d => exact fun ht k => hd k (h ht k)
  | process d job => exact fun ht k => hd k (h ht k)
  | exited => exact fun k => hd k (h k)

/-- A scheduler with the table `d` has come to the phase `p`. It has left the queue only if the queue
was empty. -/
structure Moved (s t : Threads n nFile nBlock m) (k : Fin n) (d : CopyScheduler nFile nBlock)
    (p : Phase nFile nBlock) : Prop where
  running : s.phase k ≠ .exited
  scheds : t.fleet.scheds = Function.update s.fleet.scheds k d
  phase : t.phase = Function.update s.phase k p
  crawlDone : t.crawlDone = s.crawlDone
  finisher : t.finisher = s.finisher
  done : t.done = s.done ∨ p = .exited ∧ t.done = Function.update s.done k true
  ok : PhaseOk d s.crawlDone p
  drained : ¬ Leaving p ∨ t.jobQueue = s.jobQueue ∧ (s.jobQueue = [] ∨ Leaving (s.phase k))

section moved
variable {k : Fin n} {d : CopyScheduler nFile nBlock} {p : Phase nFile nBlock}

theorem Moved.goto (hrun : s.phase k ≠ .exited) (hok : PhaseOk (s.fleet.scheds k) s.crawlDone p)
    (hdrained : ¬ Leaving p ∨ s.jobQueue = [] ∨ Leaving (s.phase k)) :
    Moved s (s.goto k p) k (s.fleet.scheds k) p where
  running := hrun
  scheds := (Function.update_eq_self ..).symm
  phase := rfl
  crawlDone := rfl
  finisher := rfl
  done := .inl rfl
  ok := hok
  drained := hdrained.imp_right fun h => ⟨rfl, h⟩

theorem Moved.put {st : State nFile nBlock} (hrun : s.phase k ≠ .exited)
    (hok : PhaseOk st.sched s.crawlDone p) (hleave : ¬ Leaving p) :
    Moved s ((s.put k st).goto k p) k st.sched p where
  running := hrun
  scheds := rfl
  phase := rfl
  crawlDone := rfl
  finisher := rfl
  done := .inl rfl
  ok := hok
  drained := .inl hleave

theorem moved_scheduleEntry {f : Fin nFile} (todo : List (Fin nFile))
    {malloc : Option (Ptr × (ℕ → UInt8))} (hrun : s.phase k ≠ .exited)
    (hs : s.scheduleEntry maxFDs k f malloc = some t) :
    ∃ d, Moved s (t.goto k (.schedule todo)) k d (.schedule todo) := by
  rw [Threads.scheduleEntry] at hs
  dsimp only at hs
  split at hs
  · split at hs
    · obtain ⟨-, hs⟩ := Option.ite_none_right_eq_some.mp hs
      obtain rfl := Option.some.inj hs
      exact ⟨_, hrun, rfl, rfl, rfl, rfl, .inl rfl, trivial, .inl id⟩
    · obtain rfl := Option.some.inj hs
      exact ⟨_, .put hrun trivial id⟩
  · obtain rfl := Option.some.inj hs
    exact ⟨_, .goto hrun trivial (.inl id)⟩

theorem moved_acceptEntry {f : Fin nFile} {todo : List (Fin nFile)} {activeJobs : ℕ}
    {dequeued : Option ℕ} (hp : s.phase k = .accept (f :: todo) activeJobs)
    (hok : PhaseOk (s.fleet.scheds k) s.crawlDone (s.phase k))
    (hs : s.acceptEntry k f todo activeJobs dequeued = some t) : ∃ d p, Moved s t k d p := by
  have hrun : s.phase k ≠ .exited := by simp [hp]
  rw [hp] at hok
  have hactive (g) (hg : g ∉ todo) (hne : g ≠ f) : ((s.fleet.scheds k).fileCopyJobs g).active =
    true := hok.2 g (by simp [hg, hne])
  unfold Threads.acceptEntry at hs
  dsimp only at hs
  split at hs
  · rename_i hf
    obtain rfl := Option.some.inj hs
    refine ⟨_, _, .goto hrun ⟨hok.1, fun g hg => ?_⟩ (.inl id)⟩
    by_cases hne : g = f
    · exact hne ▸ hf
    · exact hactive g hg hne
  · split at hs
    · rename_i i
      obtain ⟨job, -, rfl⟩ := Option.map_eq_some_iff.mp hs
      refine ⟨_, .accept todo (activeJobs + 1), hrun, rfl, rfl, rfl, rfl, .inl rfl,
        ⟨fun h => absurd h (Nat.succ_ne_zero _), fun g hg => ?_⟩, .inl id⟩
      by_cases hne : g = f
      · subst hne
        simp [State.acceptJob]
      · simpa [State.acceptJob, hne, Fleet.view] using hactive g hg hne
    · obtain ⟨hempty, hs⟩ := Option.ite_none_right_eq_some.mp hs
      obtain rfl := Option.some.inj hs
      refine ⟨_, _, .goto hrun hok.1 ?_⟩
      exact hempty.elim (fun h => .inr (.inl h)) fun h => .inl h.ne'

theorem moved_schedulerStep (hfile : 0 < nFile) {c : Choice nFile nBlock}
    (hok : PhaseOk (s.fleet.scheds k) s.crawlDone (s.phase k))
    (hs : s.schedulerStep cfg maxFDs k c = some t) : ∃ d p, Moved s t k d p := by
  rw [Threads.schedulerStep] at hs
  dsimp only at hs
  split at hs
  · rename_i x todo hp
    obtain rfl := Option.some.inj hs
    exact ⟨_, _, .put (by simp [hp]) trivial id⟩
  · rename_i hp
    obtain rfl := Option.some.inj hs
    exact ⟨_, _, .goto (by simp [hp]) trivial (.inl id)⟩
  · rename_i f todo hp
    obtain ⟨u, hu, rfl⟩ := Option.map_eq_some_iff.mp hs
    obtain ⟨d, hd⟩ := moved_scheduleEntry todo (by simp [hp]) hu
    exact ⟨d, _, hd⟩
  · rename_i hp
    obtain rfl := Option.some.inj hs
    refine ⟨_, _, .goto (by simp [hp]) ⟨fun h f => ?_, fun f hf => absurd (List.mem_finRange f) hf⟩
      (.inl id)⟩
    simpa [Fleet.view] using List.countP_eq_zero.mp h f (List.mem_finRange f)
  · rename_i f todo activeJobs hp
    exact moved_acceptEntry hp hok hs
  · rename_i activeJobs hp
    obtain rfl := Option.some.inj hs
    rw [hp] at hok
    refine ⟨_, _, .goto (by simp [hp]) hok.1 (.inl fun h => ?_)⟩
    have hactive := hok.2 ⟨0, hfile⟩ List.not_mem_nil
    rw [hok.1 h ⟨0, hfile⟩] at hactive
    cases hactive
  · rename_i activeJobs hp
    obtain rfl := Option.some.inj hs
    rw [hp] at hok
    cases hdone : (decide (activeJobs = 0) && s.crawlDone) with
    | true =>
      obtain ⟨ha, hc⟩ := Bool.and_eq_true_iff.mp hdone
      have ha := of_decide_eq_true ha
      exact ⟨_, .returned, .goto (by simp [hp]) ⟨hok ha, hc⟩ (.inr (.inr (by rw [hp]; exact ha)))⟩
    | false => exact ⟨_, .submit, .goto (by simp [hp]) trivial (.inl id)⟩
  · rename_i hp
    obtain rfl := Option.some.inj hs
    split
    · exact ⟨_, _, .put (by simp [hp]) trivial id⟩
    · exact ⟨_, _, .put (by simp [hp]) trivial id⟩
  · rename_i hp
    split at hs
    · rename_i e _
      obtain ⟨st, -, rfl⟩ := Option.map_eq_some_iff.mp hs
      exact ⟨st.sched, .reap, by simp [hp], rfl, by rw [← hp]; exact (Function.update_eq_self ..).symm,
        rfl, rfl, .inl rfl, trivial, .inl id⟩
    · obtain rfl := Option.some.inj hs
      exact ⟨_, _, .goto (by simp [hp]) trivial (.inl id)⟩
  · rename_i hp
    obtain rfl := Option.some.inj hs
    rw [hp] at hok
    exact ⟨_, .exited, by simp [hp], (Function.update_eq_self ..).symm, rfl, rfl, rfl,
      .inr ⟨rfl, rfl⟩, hok, .inr ⟨rfl, .inr (by rw [hp]; trivial)⟩⟩
  · cases hs

theorem Known.moved (hm : 0 < m) (h : Known s) (ht : Moved s t k d p) : Known t where
  phase j := by
    rw [ht.scheds, ht.phase, ht.crawlDone]
    by_cases hj : j = k
    · subst hj
      rw [Function.update_self, Function.update_self]
      exact ht.ok
    · rw [Function.update_of_ne hj, Function.update_of_ne hj]
      exact h.phase j
  done j hj := by
    rw [ht.phase]
    by_cases hjk : j = k
    · subst hjk
      rcases ht.done with hd | ⟨rfl, -⟩
      · exact absurd (h.done j (hd ▸ hj)) ht.running
      · rw [Function.update_self]
    · rw [Function.update_of_ne hjk]
      rcases ht.done with hd | ⟨-, hd⟩
      · exact h.done j (hd ▸ hj)
      · rw [hd, Function.update_of_ne hjk] at hj
        exact h.done j hj
  drained hc := by
    rw [ht.phase]
    by_cases hleave : Leaving p
    · obtain ⟨hqueue, hwas⟩ := ht.drained.resolve_left (not_not.mpr hleave)
      rw [hqueue]
      rcases h.drained (ht.crawlDone ▸ hc) with hempty | ⟨j, hj⟩
      · exact .inl hempty
      · refine hwas.imp_right fun hk => ⟨j, ?_⟩
        have hjk : j ≠ k := by
          rintro rfl
          exact hj hk
        rwa [Function.update_of_ne hjk]
    · exact .inr ⟨k, by rwa [Function.update_self]⟩
  finisher i := by
    rw [ht.finisher]
    refine (h.finisher i).mono fun j hj => ?_
    rcases ht.done with hd | ⟨-, hd⟩
    · rwa [hd]
    · rw [hd]
      by_cases hjk : j = k
      · rw [hjk, Function.update_self]
      · rwa [Function.update_of_ne hjk]
  finished hall := by
    rw [ht.finisher] at hall
    have hdone := h.finisher ⟨0, hm⟩
    rw [hall] at hdone
    exact absurd (h.done k (hdone k)) ht.running

end moved

theorem Known.crawlDone (h : Known s) (hflag : s.jobQueue = [] ∨ ∃ k, s.phase k ≠ .check 0)
    (hnot : s.crawlDone = false) : Known { s with crawlDone := true } where
  phase k := (h.phase k).done
  done := h.done
  drained _ := by
    refine hflag.imp_right fun ⟨k, hk⟩ => ⟨k, fun hleave => ?_⟩
    have hok := h.phase k
    cases hp : s.phase k with
    | check a => exact hk (hp.trans (congrArg _ (by rw [hp] at hleave; exact hleave)))
    | returned =>
      rw [hp, hnot] at hok
      cases hok.2
    | exited =>
      rw [hp, hnot] at hok
      cases hok.2
    | _ =>
      rw [hp] at hleave
      exact hleave
  finisher := h.finisher
  finished := h.finished

/-- The finish queue may grow while a finish processor is still there. -/
theorem Known.enqueueFinish {job : FileCopyJob} (h : Known s)
    (hrun : ∃ i, s.finisher i ≠ .exited) (hs : s.enqueueFinish maxFDs job = some t) : Known t := by
  obtain ⟨-, hs⟩ := Option.ite_none_right_eq_some.mp hs
  obtain rfl := Option.some.inj hs
  obtain ⟨i, hi⟩ := hrun
  exact ⟨h.phase, h.done, h.drained, h.finisher, fun hall => absurd (hall i) hi⟩

theorem Known.finishGoto {i : Fin m} {p : FinishPhase n} (h : Known s) (hok : FinisherOk s.done p)
    (hempty : p = .exited → s.finishQueue = []) : Known (s.finishGoto i p) where
  phase := h.phase
  done := h.done
  drained := h.drained
  finisher j := by
    by_cases hj : j = i
    · subst hj
      simpa [Threads.finishGoto] using hok
    · simpa [Threads.finishGoto, hj] using h.finisher j
  finished hall := hempty (by simpa [Threads.finishGoto] using hall i)

theorem Known.setFinishQueue {q : List (FileCopyJob × JobHistory)} (h : Known s)
    (hrun : ∃ i, s.finisher i ≠ .exited) : Known (s.setFinishQueue q) := by
  obtain ⟨i, hi⟩ := hrun
  exact ⟨h.phase, h.done, h.drained, h.finisher, fun hall => absurd (hall i) hi⟩

theorem Known.finisherStep {i : Fin m} {c : FinishChoice} (h : Known s)
    (hs : s.finisherStep maxFDs i c = some t) : Known t := by
  have hok := h.finisher i
  rw [Threads.finisherStep] at hs
  split at hs
  · rename_i k todo d hp
    obtain rfl := Option.some.inj hs
    rw [hp] at hok
    refine h.finishGoto (fun hd j hj => ?_) fun h => by cases h
    obtain ⟨hd, hk⟩ := Bool.and_eq_true_iff.mp hd
    by_cases hjk : j = k
    · exact hjk ▸ hk
    · exact hok hd j (by simp [hj, hjk])
  · rename_i d hp
    obtain rfl := Option.some.inj hs
    rw [hp] at hok
    exact h.finishGoto (fun hd k => hok hd k List.not_mem_nil) fun h => by cases h
  · rename_i d hp
    rw [hp] at hok
    split at hs
    · obtain ⟨x, -, rfl⟩ := Option.map_eq_some_iff.mp hs
      exact (h.setFinishQueue ⟨i, by simp [hp]⟩).finishGoto hok fun h => by cases h
    · obtain ⟨hempty, hs⟩ := Option.ite_none_right_eq_some.mp hs
      obtain rfl := Option.some.inj hs
      cases d with
      | true => exact h.finishGoto (hok rfl) fun _ => hempty
      | false =>
        exact h.finishGoto (fun _ k hk => absurd (List.mem_finRange k) hk) fun h => by cases h
  · rename_i d fileJob hp
    rw [hp] at hok
    split at hs
    · exact h.enqueueFinish ⟨i, by simp [hp]⟩ hs
    · obtain rfl := Option.some.inj hs
      have hk := h.finishGoto (i := i) (p := .dequeue d) hok fun h => by cases h
      exact ⟨hk.phase, hk.done, hk.drained, hk.finisher, hk.finished⟩
  · cases hs

/-- As long as the crawl goes on, no finish processor has left. -/
theorem Known.finisher_running (hn : 0 < n) (hm : 0 < m) (h : Known s)
    (hc : s.crawlDone = false) : ∃ i, s.finisher i ≠ .exited := by
  refine ⟨⟨0, hm⟩, fun he => ?_⟩
  have hdone := h.finisher ⟨0, hm⟩
  rw [he] at hdone
  have hok := h.phase ⟨0, hn⟩
  rw [h.done _ (hdone _), hc] at hok
  cases hok.2

theorem Known.step (hn : 0 < n) (hfile : 0 < nFile) (hm : 0 < m) {a : Move n nFile nBlock m}
    (h : Known s) (hflag : FlagInTime s a) (hs : s.step cfg maxFDs a = some t) : Known t := by
  cases a with
  | enqueueJob job =>
    obtain ⟨⟨hc, -⟩, hs⟩ := Option.ite_none_right_eq_some.mp hs
    obtain rfl := Option.some.inj hs
    exact ⟨h.phase, h.done, fun hdone => absurd (hc.symm.trans hdone) nofun, h.finisher, h.finished⟩
  | enqueueFinish job =>
    obtain ⟨hc, hs⟩ := Option.ite_none_left_eq_some.mp hs
    exact h.enqueueFinish (h.finisher_running hn hm (by simpa using hc)) hs
  | crawlDone =>
    obtain ⟨hc, hs⟩ := Option.ite_none_left_eq_some.mp hs
    obtain rfl := Option.some.inj hs
    exact h.crawlDone hflag (by simpa using hc)
  | environment files =>
    obtain rfl := Option.some.inj hs
    exact ⟨h.phase, h.done, h.drained, h.finisher, h.finished⟩
  | scheduler k c =>
    obtain ⟨d, p, ht⟩ := moved_schedulerStep hfile (h.phase k) hs
    exact h.moved hm ht
  | finisher i c => exact h.finisherStep hs

theorem Known.start (files : Fd → ByteFile) (hm : 0 < m) :
    Known (.start files : Threads n nFile nBlock m) where
  phase _ := trivial
  done _ h := absurd h nofun
  drained h := absurd h nofun
  finisher _ _ k hk := absurd (List.mem_finRange k) hk
  finished h := absurd (h ⟨0, hm⟩) nofun

/-- The job that is left on the queue, when all schedulers leave, came after their last look. As
long as `crawlDone` is set in time, no job is lost. -/
theorem nothing_lost (hn : 0 < n) (hfile : 0 < nFile) (hm : 0 < m)
    (h : (pipeline cfg maxFDs n nFile nBlock m).Reach FlagInTime s)
    (hsched : ∀ k, s.phase k = .exited) (hfin : ∀ i, s.finisher i = .exited) : NothingLost s := by
  have hknown : Known s := by
    refine h.invariant ?_ fun s a t hk hflag hs => hk.step hn hfile hm hflag hs
    rintro _ ⟨files, rfl⟩
    exact .start files hm
  have hacc : Accounted s := by
    refine h.invariant ?_ fun s a t hk _ hs => hk.step hs
    rintro _ ⟨files, rfl⟩
    exact .start files
  have hidle (k) : PhaseOk (s.fleet.scheds k) s.crawlDone .exited := hsched k ▸ hknown.phase k
  have hqueue : s.jobQueue = [] := by
    refine (hknown.drained (hidle ⟨0, hn⟩).2).resolve_right ?_
    rintro ⟨k, hk⟩
    rw [hsched k] at hk
    exact hk trivial
  have hflight : inFlight s.fleet = 0 :=
    Finset.sum_eq_zero fun x _ => if_neg (by simp [(hidle x.1).1 x.2])
  have hworking : ∑ i, (s.finisher i).job = 0 :=
    Finset.sum_eq_zero fun i _ => by rw [hfin i]; rfl
  refine ⟨?_, hacc.complete, ?_⟩
  · have hjobs := hacc.jobs
    rw [hqueue, hflight] at hjobs
    exact (Multiset.coe_eq_coe.mp (hjobs.trans (zero_add _))).symm
  · have hfinish := hacc.finishJobs
    rw [hknown.finished hfin, hworking] at hfinish
    exact (Multiset.coe_eq_coe.mp (hfinish.trans (zero_add _))).symm

section sample

abbrev SampleThreads := Threads 1 1 1 1

def sampleCfg : Config := { XXH3_64bits := fun _ => 0 }

def sampleJob : FileCopyJob :=
  { firstLook := true, remote := some "./f", srcFd := 3, dstFd := 4, blockSize := 4096 }

def sched (c : Choice 1 1) : Move 1 1 1 1 := .scheduler 0 c

def fin (c : FinishChoice) : Move 1 1 1 1 := .finisher 0 c

def lookAtQueue (dequeued : Option ℕ) : List (Move 1 1 1 1) :=
  [sched {}, sched {}, sched {}, sched {}, sched { dequeued }]

def leave : List (Move 1 1 1 1) :=
  [sched {}, sched {}, fin {}, fin {}, fin {}]

/-- The job and the flag come between the look and the reading of the flag. -/
def lostRun : List (Move 1 1 1 1) :=
  lookAtQueue none ++ [.enqueueJob sampleJob, .crawlDone] ++ leave

theorem job_lost : ∃ s : SampleThreads,
    (pipeline sampleCfg 8 1 1 1 1).Reach (fun _ _ => True) s ∧ (∀ k, s.phase k = .exited) ∧
      (∀ i, s.finisher i = .exited) ∧ ¬ NothingLost s := by
  have hrun : (((pipeline sampleCfg 8 1 1 1 1).exec (fun _ _ => true) (.start fun _ => .empty)
      lostRun).any fun s => decide ((∀ k, s.phase k = .exited) ∧ (∀ i, s.finisher i = .exited) ∧
        s.transferred.length ≠ s.queued.length)) = true := by
    decide +kernel
  obtain ⟨s, hs, hend⟩ := (Option.any_eq_true _ _).mp hrun
  obtain ⟨hsched, hfin, hlen⟩ := of_decide_eq_true hend
  refine ⟨s, ⟨_, ⟨_, rfl⟩, .of_exec _ (fun _ _ _ _ => trivial) hs⟩, hsched, hfin, fun h => hlen ?_⟩
  simpa using h.transferred.length_eq

/-- The job comes first, and its file is handed over. -/
def keptRun : List (Move 1 1 1 1) :=
  [.enqueueJob sampleJob] ++ lookAtQueue (some 0) ++
    [sched {}, sched {}, sched {}, sched {}, .crawlDone] ++ lookAtQueue none ++
      [sched {}, sched {}, fin {}, fin {}, fin { dequeued := some 0 }, fin {}, fin {}]

/-- The flag is set while the scheduler is elsewhere. -/
def flagCheck (s : SampleThreads) : Move 1 1 1 1 → Bool
  | .crawlDone => s.phase 0 ≠ .check 0
  | _ => true

theorem flagCheck_sound {s : SampleThreads} {a : Move 1 1 1 1} (h : flagCheck s a = true) :
    FlagInTime s a := by
  cases a with
  | crawlDone => exact .inr ⟨0, of_decide_eq_true h⟩
  | _ => trivial

theorem nothing_lost_sample : ∃ s : SampleThreads, s.queued = [sampleJob] ∧ NothingLost s := by
  have hrun : (((pipeline sampleCfg 8 1 1 1 1).exec flagCheck (.start fun _ => .empty)
      keptRun).any fun s => decide ((∀ k, s.phase k = .exited) ∧ (∀ i, s.finisher i = .exited) ∧
        s.queued = [sampleJob])) = true := by
    decide +kernel
  obtain ⟨s, hs, hend⟩ := (Option.any_eq_true _ _).mp hrun
  obtain ⟨hsched, hfin, hqueued⟩ := of_decide_eq_true hend
  exact ⟨s, hqueued, nothing_lost Nat.one_pos Nat.one_pos Nat.one_pos
    ⟨_, ⟨_, rfl⟩, .of_exec flagCheck (fun _ _ _ h => flagCheck_sound h) hs⟩ hsched hfin⟩

end sample

end Copy2.Pipeline
