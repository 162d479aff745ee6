import Copy2.Scheduler.Frame

/-! # The crawl, the schedulers and the finish processors

Three pools of threads with a queue between each two of them, and the flags that tell
when no more will come. A scheduler walks through the loops of `schedulerUpdate` entry by
entry, a finish processor through those of `finishProcessor`. The queues are
linearizable, and hand out any of their jobs. The four lists at the end of the state are
auxiliary: no code reads them. -/
namespace Copy2.Pipeline
open FileJob Lib Scheduler

inductive Phase (nFile nBlock : ℕ)
  | update (todo : List (Slot nFile nBlock))
  | schedule (todo : List (Fin nFile))
  | accept (todo : List (Fin nFile)) (activeJobs : ℕ)
  | check (activeJobs : ℕ)
  | submit
  | reap
  | returned
  | exited
deriving DecidableEq

/-- Where a finish processor is; `done` is its local variable. -/
inductive FinishPhase (n : ℕ)
  | readFlags (todo : List (Fin n)) (done : Bool)
  | dequeue (done : Bool)
  | process (done : Bool) (fileJob : FileCopyJob)
  | exited
deriving DecidableEq

structure Threads (n nFile nBlock m : ℕ) where
  fleet : Fleet n nFile nBlock
  phase : Fin n → Phase nFile nBlock
  done : Fin n → Bool
  finisher : Fin m → FinishPhase n
  jobQueue : List FileCopyJob
  crawlDone : Bool
  queued : List FileCopyJob
  transferred : List FileCopyJob
  finishQueued : List FileCopyJob
  processed : List FileCopyJob

/-- What a scheduler meets: the allocator, the position of the job that the queue gives, the
outcome of a submission and the next completion. -/
structure Choice (nFile nBlock : ℕ) where
  malloc : Option (Ptr × (ℕ → UInt8)) := none
  dequeued : Option ℕ := none
  submitted : ℤ := 0
  event : Option (Slot nFile nBlock × ℤ) := none

/-- What a finish processor meets: the position of the job that the queue gives, and a directory
whose last reference goes. -/
structure FinishChoice where
  dequeued : Option ℕ := none
  directory : Option FileCopyJob := none

inductive Move (n nFile nBlock m : ℕ)
  | enqueueJob (job : FileCopyJob)
  | enqueueFinish (job : FileCopyJob)
  | crawlDone
  | environment (files : Fd → ByteFile)
  | scheduler (k : Fin n) (c : Choice nFile nBlock)
  | finisher (i : Fin m) (c : FinishChoice)

variable {n nFile nBlock m : ℕ}

def slots : List (Slot nFile nBlock) :=
  (List.finRange nFile).flatMap fun f => (List.finRange nBlock).map (f, ·)

namespace Threads
variable (s : Threads n nFile nBlock m)

def goto (k : Fin n) (p : Phase nFile nBlock) : Threads n nFile nBlock m :=
  { s with phase := Function.update s.phase k p }

def put (k : Fin n) (st : State nFile nBlock) : Threads n nFile nBlock m :=
  { s with fleet := s.fleet.put k st }

def finishGoto (i : Fin m) (p : FinishPhase n) : Threads n nFile nBlock m :=
  { s with finisher := Function.update s.finisher i p }

def finishQueue : List (FileCopyJob × JobHistory) := s.fleet.shared.finishQueue

def setFinishQueue (q : List (FileCopyJob × JobHistory)) : Threads n nFile nBlock m :=
  { s with fleet := { s.fleet with shared := { s.fleet.shared with finishQueue := q } } }

/-- `finishQueue.enqueue` waits while the queue is full. -/
def enqueueFinish (maxFDs : ℕ) (job : FileCopyJob) : Option (Threads n nFile nBlock m) :=
  if s.finishQueue.length < maxFDs then
    some { s.setFinishQueue (s.finishQueue ++ [(job, ({} : JobHistory))]) with
      finishQueued := s.finishQueued ++ [job] }
  else none

/-- The second loop of a pass, for one entry: a complete job waits for room in the queue. -/
def scheduleEntry (maxFDs : ℕ) (k : Fin n) (f : Fin nFile) (malloc : Option (Ptr × (ℕ → UInt8))) :
    Option (Threads n nFile nBlock m) :=
  let st := s.fleet.view k
  let job := st.sched.fileCopyJobs f
  let s' := s.put k (st.completeOrSchedule f malloc)
  if job.active then
    if job.blockCount ≤ job.nBlockJobsFinished then
      if s.finishQueue.length < maxFDs then
        let dupJob := { job with actuallyTransferred := true }
        some { s' with
          transferred := s.transferred ++ [dupJob]
          finishQueued := s.finishQueued ++ [dupJob] }
      else none
    else some s'
  else some s

/-- The third loop of a pass, for one entry. With no active job a dequeue may fail only when the
queue is empty. -/
def acceptEntry (k : Fin n) (f : Fin nFile) (todo : List (Fin nFile)) (activeJobs : ℕ)
    (dequeued : Option ℕ) : Option (Threads n nFile nBlock m) :=
  let st := s.fleet.view k
  if (st.sched.fileCopyJobs f).active then some (s.goto k (.accept todo activeJobs))
  else match dequeued with
    | some i => s.jobQueue[i]?.map fun newJob =>
      { (s.put k (st.acceptJob f newJob)).goto k (.accept todo (activeJobs + 1)) with
        jobQueue := s.jobQueue.eraseIdx i }
    | none =>
      if s.jobQueue = [] ∨ 0 < activeJobs then some (s.goto k (.check activeJobs)) else none

/-- The next step of a scheduler, from pass to pass. -/
def schedulerStep (cfg : Config) (maxFDs : ℕ) (k : Fin n) (c : Choice nFile nBlock) :
    Option (Threads n nFile nBlock m) :=
  let st := s.fleet.view k
  match s.phase k with
  | .update (x :: todo) => some ((s.put k (st.updateSlot cfg x)).goto k (.update todo))
  | .update [] => some (s.goto k (.schedule (List.finRange nFile)))
  | .schedule (f :: todo) => (s.scheduleEntry maxFDs k f c.malloc).map (goto · k (.schedule todo))
  | .schedule [] =>
    let activeJobs := (List.finRange nFile).countP fun f => (st.sched.fileCopyJobs f).active
    some (s.goto k (.accept (List.finRange nFile) activeJobs))
  | .accept (f :: todo) activeJobs => s.acceptEntry k f todo activeJobs c.dequeued
  | .accept [] activeJobs => some (s.goto k (.check activeJobs))
  | .check activeJobs =>
    some (s.goto k (if activeJobs = 0 && s.crawlDone then .returned else .submit))
  | .submit =>
    let (rc, st) := st.schedIOSubmitBatch c.submitted
    some ((s.put k st).goto k (if rc ≠ 0 then .update slots else .reap))
  | .reap =>
    match c.event with
    | some e => (st.ioComplete e.1 e.2).map (s.put k)
    | none => some (s.goto k (.update slots))
  | .returned => some { s.goto k .exited with done := Function.update s.done k true }
  | .exited => none

/-- The next step of a finish processor. While it works on a job, references may go that are the
last ones of their directories. -/
def finisherStep (maxFDs : ℕ) (i : Fin m) (c : FinishChoice) :
    Option (Threads n nFile nBlock m) :=
  match s.finisher i with
  | .readFlags (k :: todo) done => some (s.finishGoto i (.readFlags todo (done && s.done k)))
  | .readFlags [] done => some (s.finishGoto i (.dequeue done))
  | .dequeue done =>
    match c.dequeued with
    | some j => s.finishQueue[j]?.map fun x =>
      (s.setFinishQueue (s.finishQueue.eraseIdx j)).finishGoto i (.process done x.1)
    | none =>
      if s.finishQueue = [] then
        some (s.finishGoto i (if done then .exited else .readFlags (List.finRange n) true))
      else none
  | .process done fileJob =>
    match c.directory with
    | some job => s.enqueueFinish maxFDs job
    | none => some { s.finishGoto i (.dequeue done) with processed := s.processed ++ [fileJob] }
  | .exited => none

/-- The crawl enqueues as long as it is not done. -/
def step (cfg : Config) (maxFDs : ℕ) : Move n nFile nBlock m → Option (Threads n nFile nBlock m)
  | .enqueueJob job =>
    if s.crawlDone = false ∧ s.jobQueue.length < maxFDs then
      some { s with jobQueue := s.jobQueue ++ [job], queued := s.queued ++ [job] }
    else none
  | .enqueueFinish job => if s.crawlDone then none else s.enqueueFinish maxFDs job
  | .crawlDone => if s.crawlDone then none else some { s with crawlDone := true }
  | .environment files =>
    some { s with fleet := { s.fleet with shared := { s.fleet.shared with files } } }
  | .scheduler k c => s.schedulerStep cfg maxFDs k c
  | .finisher i c => s.finisherStep maxFDs i c

def start (files : Fd → ByteFile) : Threads n nFile nBlock m where
  fleet := .start files
  phase _ := .update slots
  done _ := false
  finisher _ := .readFlags (List.finRange n) true
  jobQueue := []
  crawlDone := false
  queued := []
  transferred := []
  finishQueued := []
  processed := []

end Threads

def pipeline (cfg : Config) (maxFDs n nFile nBlock m : ℕ) :
    TransitionSystem (Threads n nFile nBlock m) (Move n nFile nBlock m) where
  init s := ∃ files, s = .start files
  next s a := s.step cfg maxFDs a

end Copy2.Pipeline
