import Copy2.HLink.Lifetime
import Copy2.HLink.Shares

/-! # The references to a destination directory

The record of an open destination directory is counted: by the task that reads the
directory, by the tasks and the jobs of its entries, by the pending links into it and by
its own finish job. Whoever gives the last reference back queues that job, and the job
then closes the directory. -/
namespace Copy2.References
open Lib
open HLink (Op SourceTree)

set_option linter.unusedSectionVars false

/-- The directory of every name of the tree, and the parent of every directory. -/
structure Layout (Name Dir : Type) [Fintype Name] [DecidableEq Name] where
  tree : SourceTree Name
  dir : Name → Dir
  parent : Dir → Option Dir
  parent_ne : ∀ d, parent d ≠ some d

/-- `FDRC` of a destination directory: its count and its flag, and how often its finish job has
been queued and not yet taken, and processed, and how often its descriptor has been closed. -/
structure FDRC where
  rc : ℕ := 0
  dst : Bool := false
  queued : ℕ := 0
  finished : ℕ := 0
  closed : ℕ := 0
deriving DecidableEq, Repr

namespace FDRC
variable (f : FDRC)

def opened : FDRC := { f with rc := 1, dst := true }

def incref (k : ℕ) : FDRC := { f with rc := f.rc + k }

/-- `FDRCGuard::~FDRCGuard` -/
def release : FDRC :=
  if f.rc = 1 then
    -- the job that is queued keeps the record alive
    if f.dst then { f with dst := false, queued := f.queued + 1 }
    else { f with rc := 0, closed := f.closed + 1 }
  else { f with rc := HLink.decSize f.rc }

/-- `finishProcessorOne` on the job of the directory itself. -/
def finish : FDRC := { f with queued := f.queued - 1, finished := f.finished + 1 }.release

end FDRC

inductive DirPc
  | waiting
  | spawned
  | crawling
  | skipped
  | returned
deriving DecidableEq, Repr

/-- The directory has been counted by `processDir`. -/
def DirPc.seen : DirPc → Bool
  | crawling | returned => true
  | _ => false

/-- The task has been made, and has not returned. -/
def DirPc.busy : DirPc → Bool
  | spawned | crawling => true
  | _ => false

/-- The task of a name: not made yet, or under way with its job, or over because a first `statx`
has failed. -/
inductive Task
  | waiting
  | running
  | failed
deriving DecidableEq, Repr

structure State (Name Dir : Type) where
  names : HLink.State Name
  task : Name → Task := fun _ => .waiting
  pc : Dir → DirPc := fun _ => .waiting
  fdrc : Dir → FDRC := fun _ => {}
  stopped : Bool := false

inductive Act (Name Dir : Type)
  | spawnName (n : Name)
  | failName (n : Name)
  | name (op : Op Name)
  | spawnDir (d : Dir)
  | openDir (d : Dir)
  | skipDir (d : Dir)
  | returnDir (d : Dir)
  | finishDir (d : Dir)
  | stop

variable {Name Dir : Type} [Fintype Name] [DecidableEq Name] [Fintype Dir] [DecidableEq Dir]

namespace State
variable (s : State Name Dir)

def put (d : Dir) (f : FDRC) : State Name Dir := { s with fdrc := Function.update s.fdrc d f }

def mayRun : Op Name → Bool
  | .run n _ => s.task n == .running
  | .fail n _ => s.task n == .running
  | _ => true

def nameOver (n : Name) : Bool :=
  s.task n != .running || (s.names.name n).pc.inQueue || (s.names.name n).pc.ended

/-- No task is left, and no finish processor is at work on a job. -/
def quiet : Prop :=
  (∀ n, s.nameOver n = true ∧ ((s.names.name n).pc.inQueue = true →
    (s.names.name n).pc = .queued)) ∧ ∀ d, (s.pc d).busy = false

end State

namespace Layout
variable (L : Layout Name Dir) (s : State Name Dir)

/-- A name has put itself on a list. -/
def takes (u v : HLink.NameState) : ℕ := v.tally.dirTaken - u.tally.dirTaken

/-- The entry of a name has been taken off a list, or its task or its job is over. -/
def gives (u v : HLink.NameState) : ℕ :=
  v.tally.dirReleased - u.tally.dirReleased + (v.pc.ended && !u.pc.ended).toNat

def sumIn (d : Dir) (f : Name → ℕ) : ℕ := ∑ n, if L.dir n = d then f n else 0

def charge (t : HLink.State Name) (d : Dir) : FDRC :=
  FDRC.release^[L.sumIn d fun n => gives (s.names.name n) (t.name n)]
    ((s.fdrc d).incref (L.sumIn d fun n => takes (s.names.name n) (t.name n)))

/-- The parent of a directory, if it has one, loses or gains a reference. -/
def parentDo (d : Dir) (act : FDRC → FDRC) : State Name Dir :=
  match L.parent d with
  | some p => s.put p (act (s.fdrc p))
  | none => s

@[simp] theorem parentDo_names (d : Dir) (g : FDRC → FDRC) :
    (L.parentDo s d g).names = s.names := by
  rw [parentDo]
  split <;> rfl

@[simp] theorem parentDo_stopped (d : Dir) (g : FDRC → FDRC) :
    (L.parentDo s d g).stopped = s.stopped := by
  rw [parentDo]
  split <;> rfl

/-- Everything that was started in the directory has returned. -/
def groupOver (d : Dir) : Prop :=
  (∀ n, L.dir n = d → s.nameOver n = true) ∧ ∀ c, L.parent c = some d → (s.pc c).busy = false

instance (d : Dir) : Decidable (L.groupOver s d) := inferInstanceAs (Decidable (_ ∧ _))

instance : Decidable (s.quiet) := inferInstanceAs (Decidable (_ ∧ _))

def act : Act Name Dir → Option (State Name Dir)
  | .spawnName n =>
    if s.pc (L.dir n) = .crawling ∧ s.task n = .waiting then
      some { s.put (L.dir n) ((s.fdrc (L.dir n)).incref 1) with
        task := Function.update s.task n .running }
    else none
  | .failName n =>
    if s.task n = .running ∧ (s.names.name n).pc = .start then
      some { s.put (L.dir n) (s.fdrc (L.dir n)).release with
        task := Function.update s.task n .failed }
    else none
  | .name op =>
    if s.mayRun op then
      (L.tree.next s.names op).map fun t => { s with names := t, fdrc := L.charge s t }
    else none
  | .spawnDir d =>
    if s.pc d = .waiting ∧ ∀ p, L.parent d = some p → s.pc p = .crawling then
      some { L.parentDo s d (·.incref 1) with pc := Function.update s.pc d .spawned }
    else none
  | .openDir d =>
    if s.pc d = .spawned then
      some { s.put d (s.fdrc d).opened with pc := Function.update s.pc d .crawling }
    else none
  | .skipDir d =>
    if s.pc d = .spawned then
      some { L.parentDo s d FDRC.release with pc := Function.update s.pc d .skipped }
    else none
  | .returnDir d =>
    if s.pc d = .crawling ∧ L.groupOver s d then
      some { L.parentDo (s.put d (s.fdrc d).release) d FDRC.release with
        pc := Function.update s.pc d .returned }
    else none
  | .finishDir d => if 0 < (s.fdrc d).queued then some (s.put d (s.fdrc d).finish) else none
  | .stop => if s.quiet then some { s with stopped := true } else none

def next (a : Act Name Dir) : Option (State Name Dir) := if s.stopped then none else L.act s a

def system : TransitionSystem (State Name Dir) (Act Name Dir) where
  init s := ∃ dst : Name → Option ℕ, s = { names := { name := fun n => { dst := dst n } } }
  next s a := L.next s a

end Layout

namespace State
variable (s : State Name Dir)

def filesSeen : ℕ :=
  (∑ n, ((s.names.name n).pc != .start).toNat) + ∑ d, (s.pc d).seen.toNat

def nFinished : ℕ := (∑ n, (s.names.name n).tally.counted) + ∑ d, (s.fdrc d).finished

end State
end Copy2.References
