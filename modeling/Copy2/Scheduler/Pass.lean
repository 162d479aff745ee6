import Copy2.Scheduler.BlockJob
import Copy2.Lib.TransitionSystem

/-! # The scheduler loop and the fleet of schedulers

`schedulerUpdate` is one pass of a scheduler thread. A fleet is any number of
schedulers over one shared state; its steps are the bodies of the loops of a pass,
so the passes of different schedulers interleave between any two of them. -/
namespace Copy2.Scheduler
open FileJob Lib

variable {nFile nBlock : ℕ}

namespace State

/-- The slots of the job are cleared and so is its entry; descriptors stay open. -/
def schedulerClearFileCopyJob (st : State nFile nBlock) (f : Fin nFile) : State nFile nBlock :=
  let clearSlot (st : State nFile nBlock) (j : Fin nBlock) :=
    if (st.sched.blockCopyJobs (f, j)).inUse then st.schedulerClearBlockCopyJob f (f, j) false
    else st
  let st := (List.finRange nBlock).foldl clearSlot st
  { st with sched := (st.sched.setFile f {}).setHistory f {} }

/-- The second loop of a pass, for one file job: hand it over when it is complete,
otherwise start at most one block, in its first free slot. -/
def completeOrSchedule (st : State nFile nBlock) (f : Fin nFile)
    (malloc : Option (Ptr × (ℕ → UInt8))) : State nFile nBlock :=
  let job := st.sched.fileCopyJobs f
  if job.blockCount ≤ job.nBlockJobsFinished then
    let dupJob := { job with actuallyTransferred := true }
    let finishQueue := st.shared.finishQueue ++ [(dupJob, st.sched.history f)]
    let st := { st with shared := { st.shared with finishQueue } }
    st.schedulerClearFileCopyJob f
  else if job.nBlockJobsFinished + job.nBlockJobsScheduled < job.blockCount then
    match (List.finRange nBlock).find? fun j => !(st.sched.blockCopyJobs (f, j)).inUse with
    | some j => st.schedulerScheduleBlockCopyJob f (f, j) malloc false
    | none => st
  else st

def acceptJob (st : State nFile nBlock) (f : Fin nFile) (newJob : FileCopyJob) :
    State nFile nBlock :=
  let job := { newJob with
    nBlockJobsScheduled := 0, nBlockJobsFinished := 0, nErrors := 0, active := true }
  { st with sched := (st.sched.setFile f job).setHistory f {} }

end State

structure PassOracle (nFile nBlock : ℕ) where
  malloc : Fin nFile → Option (Ptr × (ℕ → UInt8)) := fun _ => none
  dequeue : Fin nFile → Option FileCopyJob := fun _ => none
  crawlDone : Bool := false
  submitted : ℤ := 0
  events : List (Slot nFile nBlock × ℤ) := []

namespace State
variable (cfg : Config)

def updateSlot (st : State nFile nBlock) (s : Slot nFile nBlock) : State nFile nBlock :=
  if (st.sched.fileCopyJobs s.1).active && (st.sched.blockCopyJobs s).inUse then
    st.schedulerUpdateBlockCopyJob cfg s.1 s
  else st

def updateFile (o : PassOracle nFile nBlock) (st : State nFile nBlock) (f : Fin nFile) :
    State nFile nBlock :=
  if (st.sched.fileCopyJobs f).active then st.completeOrSchedule f (o.malloc f) else st

/-- The third loop of a pass: free entries take jobs until the queue gives none. -/
def acceptJobs (o : PassOracle nFile nBlock) :
    List (Fin nFile) → ℕ → State nFile nBlock → ℕ × State nFile nBlock
  | [], activeJobs, st => (activeJobs, st)
  | f :: fs, activeJobs, st =>
    if (st.sched.fileCopyJobs f).active then acceptJobs o fs activeJobs st
    else match o.dequeue f with
      | some newJob => acceptJobs o fs (activeJobs + 1) (st.acceptJob f newJob)
      | none => (activeJobs, st)

/-- An event for a request the kernel does not hold cannot occur. -/
def reap (st : State nFile nBlock) (e : Slot nFile nBlock × ℤ) : State nFile nBlock :=
  (st.ioComplete e.1 e.2).getD st

def schedulerTick (o : PassOracle nFile nBlock) (st : State nFile nBlock) : State nFile nBlock :=
  let (rc, st) := st.schedIOSubmitBatch o.submitted
  if rc ≠ 0 then st else o.events.foldl reap st

def schedulerUpdate (o : PassOracle nFile nBlock) (st : State nFile nBlock) :
    ℤ × State nFile nBlock :=
  let st := (List.finRange nFile).foldl (fun st f =>
    (List.finRange nBlock).foldl (fun st j => st.updateSlot cfg (f, j)) st) st
  let st := (List.finRange nFile).foldl (updateFile o) st
  let activeJobs := (List.finRange nFile).countP fun f => (st.sched.fileCopyJobs f).active
  let (activeJobs, st) := acceptJobs o (List.finRange nFile) activeJobs st
  if activeJobs = 0 && o.crawlDone then (0, st) else (einprogress, st.schedulerTick o)

end State

structure Fleet (n nFile nBlock : ℕ) where
  scheds : Fin n → CopyScheduler nFile nBlock
  shared : SharedState

/-- The loop bodies of a pass, the completion of a request, and what others do to the
shared state: open, close and change files, and take a job from the finish queue. -/
inductive Op (nFile nBlock : ℕ)
  | updateSlot (s : Slot nFile nBlock)
  | updateFile (f : Fin nFile) (malloc : Option (Ptr × (ℕ → UInt8)))
  | accept (f : Fin nFile) (newJob : FileCopyJob)
  | submit (submitted : ℤ)
  | complete (s : Slot nFile nBlock) (res : ℤ)
  | environment (files : Fd → ByteFile)
  | finish (i : ℕ)

/-- One loop body of a pass; refused where the loop would skip it. -/
def State.apply (cfg : Config) (st : State nFile nBlock) :
    Op nFile nBlock → Option (State nFile nBlock)
  | .updateSlot s =>
    if (st.sched.fileCopyJobs s.1).active && (st.sched.blockCopyJobs s).inUse then
      some (st.schedulerUpdateBlockCopyJob cfg s.1 s)
    else none
  | .updateFile f malloc =>
    if (st.sched.fileCopyJobs f).active then some (st.completeOrSchedule f malloc) else none
  | .accept f newJob =>
    if (st.sched.fileCopyJobs f).active then none else some (st.acceptJob f newJob)
  | .submit submitted => some (st.schedIOSubmitBatch submitted).2
  | .complete s res => st.ioComplete s res
  | .environment files => some { st with shared := { st.shared with files } }
  | .finish i =>
    if i < st.shared.finishQueue.length then
      some { st with shared := { st.shared with finishQueue := st.shared.finishQueue.eraseIdx i } }
    else none

namespace Fleet
variable {n : ℕ}

def view (w : Fleet n nFile nBlock) (k : Fin n) : State nFile nBlock := ⟨w.scheds k, w.shared⟩

def put (w : Fleet n nFile nBlock) (k : Fin n) (st : State nFile nBlock) : Fleet n nFile nBlock :=
  ⟨Function.update w.scheds k st.sched, st.shared⟩

@[simp] theorem put_view_self (w : Fleet n nFile nBlock) (k : Fin n) : w.put k (w.view k) = w := by
  simp [put, view]

@[simp] theorem view_put (w : Fleet n nFile nBlock) (k : Fin n) (st : State nFile nBlock) :
    (w.put k st).view k = st := by simp [put, view]

@[simp] theorem put_put (w : Fleet n nFile nBlock) (k : Fin n) (st st' : State nFile nBlock) :
    (w.put k st).put k st' = w.put k st' := by simp [put]

end Fleet

def system (cfg : Config) (n nFile nBlock : ℕ) :
    TransitionSystem (Fleet n nFile nBlock) (Fin n × Op nFile nBlock) where
  init w := (∀ k, w.scheds k = {}) ∧ (∀ p, w.shared.allocated p = false) ∧
    w.shared.totalMemAllocated = 0 ∧ w.shared.finishQueue = [] ∧ w.shared.freedTwice = false
  next w a := ((w.view a.1).apply cfg a.2).map (w.put a.1)

def Fleet.start {n : ℕ} (files : Fd → ByteFile) : Fleet n nFile nBlock := ⟨fun _ => {}, { files }⟩

theorem Fleet.start_init {cfg : Config} {n : ℕ} (files : Fd → ByteFile) :
    (system cfg n nFile nBlock).init (.start files) :=
  ⟨fun _ => rfl, fun _ => rfl, rfl, rfl, rfl⟩

/-- The operations a pass may perform under given answers of the environment. -/
def PassOracle.Allows (o : PassOracle nFile nBlock) : Op nFile nBlock → Prop
  | .updateSlot _ => True
  | .updateFile f malloc => malloc = o.malloc f
  | .accept f newJob => o.dequeue f = some newJob
  | .submit submitted => submitted = o.submitted
  | .complete s res => (s, res) ∈ o.events
  | .environment _ | .finish _ => False

section Refinement
variable {cfg : Config} {n : ℕ} {w : Fleet n nFile nBlock} {k : Fin n}
  {o : PassOracle nFile nBlock}

def Passes (cfg : Config) (w : Fleet n nFile nBlock) (k : Fin n) (o : PassOracle nFile nBlock)
    (st : State nFile nBlock) : Prop :=
  (system cfg n nFile nBlock).Run (fun _ a => a.1 = k ∧ o.Allows a.2) w (w.put k st)

theorem Passes.apply {st st' : State nFile nBlock} (h : Passes cfg w k o st)
    (op : Op nFile nBlock) (hop : o.Allows op) (hst : st.apply cfg op = some st') :
    Passes cfg w k o st' := by
  refine .snoc (a := (k, op)) h ⟨rfl, hop⟩ ?_
  simp [system, hst]

theorem Passes.updateSlot {st : State nFile nBlock} (s : Slot nFile nBlock)
    (h : Passes cfg w k o st) : Passes cfg w k o (st.updateSlot cfg s) := by
  rw [State.updateSlot]
  split
  · exact h.apply (.updateSlot s) trivial (by simp_all [State.apply])
  · exact h

theorem Passes.updateFile {st : State nFile nBlock} (f : Fin nFile)
    (h : Passes cfg w k o st) : Passes cfg w k o (State.updateFile o st f) := by
  rw [State.updateFile]
  split
  · exact h.apply (.updateFile f (o.malloc f)) rfl (by simp_all [State.apply])
  · exact h

theorem Passes.reap {st : State nFile nBlock} {e : Slot nFile nBlock × ℤ} (he : e ∈ o.events)
    (h : Passes cfg w k o st) : Passes cfg w k o (State.reap st e) := by
  rw [State.reap]
  cases hc : st.ioComplete e.1 e.2 with
  | none => exact h
  | some st' => exact h.apply (.complete e.1 e.2) he hc

theorem Passes.acceptJobs {st : State nFile nBlock} (fs : List (Fin nFile)) (activeJobs : ℕ)
    (h : Passes cfg w k o st) : Passes cfg w k o (State.acceptJobs o fs activeJobs st).2 := by
  induction fs generalizing activeJobs st with
  | nil => exact h
  | cons f fs ih =>
    rw [State.acceptJobs]
    split
    · exact ih _ h
    · rename_i hactive
      cases hd : o.dequeue f with
      | none => exact h
      | some newJob =>
        exact ih _ (h.apply (.accept f newJob) hd (by simp_all [State.apply]))

theorem Passes.foldl {α : Type*} {g : State nFile nBlock → α → State nFile nBlock} (l : List α)
    {st : State nFile nBlock} (h : Passes cfg w k o st)
    (hg : ∀ st a, a ∈ l → Passes cfg w k o st → Passes cfg w k o (g st a)) :
    Passes cfg w k o (l.foldl g st) := by
  induction l generalizing st with
  | nil => exact h
  | cons a l ih =>
    exact ih (hg st a (by simp) h) fun st b hb => hg st b (by simp [hb])

theorem Passes.schedulerTick {st : State nFile nBlock} (h : Passes cfg w k o st) :
    Passes cfg w k o (st.schedulerTick o) := by
  have hsubmit : Passes cfg w k o (st.schedIOSubmitBatch o.submitted).2 :=
    h.apply (.submit o.submitted) rfl rfl
  rw [State.schedulerTick]
  dsimp only
  split
  · exact hsubmit
  · exact hsubmit.foldl _ fun st e he hst => hst.reap he

/-- A pass of one scheduler is a run of the fleet that only this scheduler takes part in. -/
theorem schedulerUpdate_run (cfg : Config) (w : Fleet n nFile nBlock) (k : Fin n)
    (o : PassOracle nFile nBlock) :
    (system cfg n nFile nBlock).Run (fun _ a => a.1 = k ∧ o.Allows a.2) w
      (w.put k ((w.view k).schedulerUpdate cfg o).2) := by
  have h₀ : Passes cfg w k o (w.view k) := by
    rw [Passes, Fleet.put_view_self]
    exact .nil w
  have h₁ := h₀.foldl (List.finRange nFile) fun st f _ hst =>
    hst.foldl (List.finRange nBlock) fun st j _ hst => hst.updateSlot (f, j)
  have h₂ := h₁.foldl (List.finRange nFile) fun st f _ hst => hst.updateFile f
  have h₃ := h₂.acceptJobs (List.finRange nFile)
    ((List.finRange nFile).countP fun f => ((List.foldl (State.updateFile o)
      ((List.finRange nFile).foldl (fun st f =>
        (List.finRange nBlock).foldl (fun st j => st.updateSlot cfg (f, j)) st) (w.view k))
      (List.finRange nFile)).sched.fileCopyJobs f).active)
  rw [State.schedulerUpdate]
  dsimp only
  split
  · exact h₃
  · exact h₃.schedulerTick

end Refinement
end Copy2.Scheduler
