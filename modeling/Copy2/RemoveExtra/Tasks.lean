import Copy2.Crawl.ProcessDir
import Copy2.Lib.TransitionSystem

/-! # The tasks of pace-removeextra

`processDir` compares a directory of the source with that of the destination, and makes tasks:
for the directories that both have, and for the entries that are to go. A call waits for the
tasks that it has made, and they run in any order. -/
namespace Copy2.RemoveExtra
open Crawl Lib

/-- A path below the root, from its tip on. -/
abbrev Path := List String

def DT_DIR : UInt8 := 4

/-- A tree of entries below a root directory. -/
structure Tree where
  entries : Finset Path
  type : Path → UInt8
  nil_notMem : [] ∉ entries
  parent : ∀ x p, x :: p ∈ entries → p ≠ [] → p ∈ entries ∧ type p = DT_DIR
  notDot : ∀ x p, x :: p ∈ entries → isDot x = false

namespace Tree
variable (T : Tree) (present : Finset Path) (p : Path)

def opens : Prop := p = [] ∨ p ∈ present ∧ T.type p = DT_DIR

instance : Decidable (T.opens present p) := inferInstanceAs (Decidable (_ ∨ _))

/-- The entries of a directory with their types, and the two that every directory has. -/
def readdir : Finset (String × UInt8) :=
  {(".", DT_DIR), ("..", DT_DIR)} ∪
    (present.filter fun q => q ≠ [] ∧ q.tail = p).image fun q => (q.headD "", T.type q)

def readSet : Finset (String × UInt8) :=
  (T.readdir present p).filter fun d => isDot d.1 = false

end Tree

/-- The functions that run as tasks. The one for a single file is no function of its own. -/
inductive Call
  | processDir
  | recursiveRemove
  | unlink
deriving DecidableEq, Repr

instance : Fintype Call := ⟨{.processDir, .recursiveRemove, .unlink}, fun c => by cases c <;> decide⟩

/-- A task: not made yet, made, in its task group with tasks still to make, or over. -/
inductive Task
  | absent
  | created
  | grouped (todo : Finset (Call × String))
  | ended
deriving DecidableEq

structure State where
  present : Finset Path
  task : Call → Path → Task

/-- The two trees of a run; the destination as it was at its start. -/
structure Roots where
  src : Tree
  dst : Tree

namespace State
variable (s : State)

def setTask (c : Call) (p : Path) (x : Task) : State :=
  { s with task := fun c' p' => if c' = c ∧ p' = p then x else s.task c' p' }

end State

namespace Roots
variable (R : Roots) (s : State) (p : Path)

def srcSet : Finset (String × UInt8) := R.src.readSet R.src.entries p

def dstSet : Finset (String × UInt8) := R.dst.readSet s.present p

def srcDirs : Finset String := ((R.srcSet p).filter fun d => d.2 = DT_DIR).image Prod.fst

def toProcessDirs : Finset String :=
  ((R.dstSet s p).filter fun d => d.2 = DT_DIR ∧ d.1 ∈ R.srcDirs p).image Prod.fst

/-- The set difference. -/
def result : Finset (String × UInt8) := R.dstSet s p \ R.srcSet p

def removal (d : String × UInt8) : Call × String :=
  (if d.2 = DT_DIR then .recursiveRemove else .unlink, d.1)

def unlinkat (flag : Bool) : State :=
  if p ∈ s.present ∧ decide (R.dst.type p = DT_DIR) = flag ∧
      ∀ q ∈ s.present, q ≠ [] → q.tail ≠ p
  then { s with present := s.present.erase p } else s

def start : Call → State
  | .processDir =>
    if R.src.opens R.src.entries p ∧ R.dst.opens s.present p then
      s.setTask .processDir p (.grouped
        ((R.toProcessDirs s p).image (Call.processDir, ·) ∪ (R.result s p).image removal))
    else s.setTask .processDir p .ended
  | .recursiveRemove =>
    if R.dst.opens s.present p then
      s.setTask .recursiveRemove p (.grouped ((R.dstSet s p).image removal))
    else s.setTask .recursiveRemove p .ended
  | .unlink => (R.unlinkat s p false).setTask .unlink p .ended

def finish : Call → State
  | .recursiveRemove => (R.unlinkat s p true).setTask .recursiveRemove p .ended
  | c => s.setTask c p .ended

def groupOver : Prop :=
  ∀ q ∈ R.dst.entries, q.tail = p → ∀ c, s.task c q = .absent ∨ s.task c q = .ended

instance : Decidable (R.groupOver s p) := inferInstanceAs (Decidable (∀ _ ∈ _, _))

end Roots

inductive Act
  | start (c : Call) (p : Path)
  | spawn (c : Call) (p : Path) (c' : Call) (name : String)
  | finish (c : Call) (p : Path)

namespace Roots
variable (R : Roots) (s : State)

def next : Act → Option State
  | .start c p => if s.task c p = .created then some (R.start s p c) else none
  | .spawn c p c' name =>
    match s.task c p with
    | .grouped todo =>
      if (c', name) ∈ todo then
        some ((s.setTask c p (.grouped (todo.erase (c', name)))).setTask c' (name :: p) .created)
      else none
    | _ => none
  | .finish c p =>
    if s.task c p = .grouped ∅ ∧ R.groupOver s p then some (R.finish s p c) else none

def initial : State where
  present := R.dst.entries
  task c p := if c = .processDir ∧ p = [] then .created else .absent

/-- The task of `main` is the call on the roots. -/
def system : TransitionSystem State Act where
  init s := s = R.initial
  next s a := R.next s a

/-- The entry is to stay: its path leads to an entry of the same type in the source, through
directories. -/
def Keeps (q : Path) : Prop :=
  (q ∈ R.src.entries ∧ R.src.type q = R.dst.type q) ∧
    ∀ a, a <:+ q → a ≠ q → a ≠ [] → a ∈ R.src.entries ∧ R.src.type a = DT_DIR

end Roots
end Copy2.RemoveExtra
