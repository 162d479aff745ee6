import Copy2.Lib.TransitionSystem

/-! # Recursive removal

`recursiveRemove` makes a task for every entry of a directory, waits for them, and then
removes the directory itself. A thread that waits runs other tasks meanwhile. The path of a
call lies in a buffer of its thread, and the call keeps a pointer into it. -/
namespace Copy2.Crawl.Removal
open Lib

/-- A `StringPart`; those that follow the first start with their slash. -/
abbrev Part := List UInt8

abbrev Path := List Part

/-- What `stringRefMemcpy` says that it needs, with the terminating zero. -/
def size (p : Path) : ℕ := (p.map List.length).sum + 1

def PATH_MAX : ℕ := 4096

/-- The destination, and the path that is to be removed from it. -/
structure Target where
  entries : Finset Path
  isDir : Path → Bool
  root : Path
  root_ne : root ≠ []
  closed : ∀ x p, x :: p ∈ entries → p ≠ [] → p ∈ entries ∧ isDir p = true
  nil_notMem : [] ∉ entries

abbrev Ptr := ℕ

/-- The task of a path: not made yet, made, waiting for its own tasks with its pointer on some
thread, or over. -/
inductive Task (Thread : Type)
  | absent
  | created
  | waiting (th : Thread) (remote : Ptr)
  | ended
deriving DecidableEq

/-- `calls` are the paths of the calls that wait, the latest first: those of one thread are its
stack. Every thread has its buffer; memory that is not a buffer may hold anything. -/
structure State (Thread : Type) where
  present : Finset Path
  task : Path → Task Thread
  calls : List Path := []
  buf : Thread → Ptr
  bufSize : Thread → ℕ := fun _ => PATH_MAX
  mem : Ptr → Path
  filesRemoved : ℕ := 0
  unlinked : List (Path × Bool) := []

variable {Thread : Type} [DecidableEq Thread] [Fintype Thread]

namespace State
variable (s : State Thread)

def runs (th : Thread) (p : Path) : Bool :=
  match s.task p with
  | .waiting th' _ => th' == th
  | _ => false

def setTask (p : Path) (x : Task Thread) : State Thread :=
  { s with task := Function.update s.task p x }

/-- `stringrefMemcpyWithRealloc` into the buffer of a thread: it is cleared, and allocated anew
unless it is larger than the path. -/
def copy (th : Thread) (p : Path) (a : Ptr) : State Thread :=
  if size p < s.bufSize th then { s with mem := Function.update s.mem (s.buf th) p }
  else
    let left := if size p ≤ s.bufSize th then p else []
    { s with
      mem := Function.update (Function.update s.mem (s.buf th) left) a p
      buf := Function.update s.buf th a
      bufSize := Function.update s.bufSize th (size p) }

def openDir (th : Thread) (remote : Ptr) (p : Path) : State Thread :=
  { s with
    task := fun q =>
      if q = p then .waiting th remote
      else if q ∈ s.present ∧ q.tail = p then .created
      else s.task q
    calls := p :: s.calls }

def free (th : Thread) (a : Ptr) : Prop := ∀ th', th' ≠ th → s.buf th' ≠ a

end State

namespace Target
variable (R : Target) (s : State Thread)

def unlinks (flag : Bool) (p : Path) : Prop :=
  p ∈ s.present ∧ R.isDir p = flag ∧ ∀ q ∈ s.present, q.tail ≠ p

instance (flag : Bool) (p : Path) : Decidable (R.unlinks s flag p) :=
  inferInstanceAs (Decidable (_ ∧ _))

def unlinkat (flag : Bool) (p : Path) : State Thread :=
  if R.unlinks s flag p then
    { s with
      present := s.present.erase p
      filesRemoved := s.filesRemoved + 1
      unlinked := (p, true) :: s.unlinked }
  else { s with unlinked := (p, false) :: s.unlinked }

/-- `recursiveRemove` up to its task group, and all of `recursiveRemoveNonDir`. -/
def start (p : Path) (th : Thread) (a : Ptr) : State Thread :=
  if p = R.root ∨ R.isDir p = true then
    let s := s.copy th p a
    let remote := s.buf th
    if p = R.root then
      let s' := R.unlinkat s false (s.mem remote)
      -- without an error, or with ENOENT
      if R.unlinks s false (s.mem remote) ∨ s.mem remote ∉ s.present then s'.setTask p .ended
      else s'.openDir th remote p
    else if p ∈ s.present then s.openDir th remote p
    else s.setTask p .ended
  else (R.unlinkat s false p).setTask p .ended

/-- `recursiveRemove` after its task group. -/
def finish (p : Path) (th : Thread) (remote : Ptr) (a : Ptr) : State Thread :=
  let s := s.copy th p a
  let s := R.unlinkat s true (s.mem remote)
  { s.setTask p .ended with calls := s.calls.erase p }

def groupOver (p : Path) : Prop :=
  ∀ q ∈ R.entries, q.tail = p → s.task q = .ended ∨ s.task q = .absent

instance (p : Path) : Decidable (R.groupOver s p) := inferInstanceAs (Decidable (∀ _ ∈ _, _))

instance (th : Thread) (a : Ptr) : Decidable (s.free th a) := inferInstanceAs (Decidable (∀ _, _))

end Target

/-- A thread takes a task, or goes on with its latest call; or memory is written that is nobody's
buffer. -/
inductive Act (Thread : Type)
  | start (p : Path) (th : Thread) (a : Ptr)
  | finish (p : Path) (a : Ptr)
  | write (a : Ptr) (x : Path)

namespace Target
variable (R : Target) (s : State Thread)

def next : Act Thread → Option (State Thread)
  | .start p th a => if s.task p = .created ∧ s.free th a then some (R.start s p th a) else none
  | .finish p a =>
    match s.task p with
    | .waiting th remote =>
      if s.calls.find? (s.runs th) = some p ∧ R.groupOver s p ∧ s.free th a then
        some (R.finish s p th remote a)
      else none
    | _ => none
  | .write a x =>
    if ∀ th, s.buf th ≠ a then some { s with mem := Function.update s.mem a x } else none

/-- The task of the path has been made; buffers are distinct. -/
def system : TransitionSystem (State Thread) (Act Thread) where
  init s := ∃ buf mem, Function.Injective buf ∧ s = {
    present := R.entries, task := Function.update (fun _ => .absent) R.root .created, buf, mem }
  next s a := R.next s a

end Target
end Copy2.Crawl.Removal
