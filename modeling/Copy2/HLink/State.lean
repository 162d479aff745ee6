import Copy2.Os.Calls
import Copy2.Lib.TransitionSystem
import Copy2.Lib.Count

/-! # The hard-link table

The names of a static source tree are processed concurrently. Each of them is at a
point of `processNonDir`, `hlinkStateRegisterLinkRoot`, `finishProcessorOne` or
`hlinkStateHandleTransfer`, with its local variables, and all share the two tables and
their records. A record that has been freed is gone; its memory may come back as anything. -/
namespace Copy2.HLink
open FileJob Lib Os

abbrev Ref := ℕ

/-- The source attributes of every name, and what the destination holds beside the names:
the attributes of its inodes and their links from elsewhere. -/
structure SourceTree (Name : Type) [Fintype Name] [DecidableEq Name] where
  stx : Name → Statx
  dstStx : ℕ → Statx
  others : ℕ → ℕ
  same_inode : ∀ a b, (stx a).stx_ino = (stx b).stx_ino → stx a = stx b
  names_le_nlink : ∀ a, count (fun b => (stx b).stx_ino == (stx a).stx_ino) ≤ (stx a).stx_nlink

/-- `HLinkInfo`; a pending entry is the name to be linked. The lock is shown when it has
been left behind locked. -/
structure HLinkInfo (Name : Type) where
  locked : Bool := false
  transferred : Bool := false
  destInode : ℕ
  remote : Name
  links : List Name := []
  nlinkRC : ℕ

/-- `HLinkInfoRev`, with its lock when that has been left behind locked. -/
structure HLinkInfoRev where
  locked : Bool := false
  srcInode : ℕ
  nlinkRC : ℕ

def uint64Max : ℕ := 2 ^ 64 - 1

def decSize (n : ℕ) : ℕ := if n = 0 then uint64Max else n - 1

/-- Where the processing of a name stands. -/
inductive Pc
  | start
  | register
  | promote
  | compare
  | relink
  | retire
  | reverse
  | revPromote
  | revRetire
  | transfer
  | queued
  | handle
  | drain
  | handleRetire
  | leaked
  | done
deriving DecidableEq, Repr

/-- The points at which the table is locked for reading. A thread that has failed to link
a name returns without giving the lock back. -/
def Pc.reads : Pc → Bool
  | compare | relink | reverse | drain | leaked => true
  | _ => false

/-- The local variables: of `processNonDir` and `hlinkStateRegisterLinkRoot`, and the
destination inode that `finishProcessorOne` finds. -/
structure Local where
  destStx : Statx := {}
  destExists : Bool := false
  origShouldTransfer : Bool := false
  out : LinkOutcome := ⟨false, false, false⟩
  hinfoRef : Ref := 0
  revinfoRef : Option Ref := none
  finishIno : ℕ := 0

/-- What has happened to a name so far: its calls of `hlinkStateHandleTransfer`, its turns
at a link (its own, and those of its root), its share of `nFinished`, and the references
of its pending entry. -/
structure Tally where
  handled : ℕ := 0
  direct : ℕ := 0
  drained : ℕ := 0
  counted : ℕ := 0
  dirTaken : ℕ := 0
  pathTaken : ℕ := 0
  dirReleased : ℕ := 0
  pathReleased : ℕ := 0
deriving DecidableEq, Repr

structure NameState where
  dst : Option ℕ
  tmp : Option ℕ := none
  pc : Pc := .start
  loc : Local := {}
  tally : Tally := {}

structure State (Name : Type) where
  name : Name → NameState
  fwd : ℕ → Option Ref := fun _ => none
  rev : ℕ → Option Ref := fun _ => none
  info : Ref → Option (HLinkInfo Name) := fun _ => none
  revinfo : Ref → Option HLinkInfoRev := fun _ => none
  nextRef : Ref := 0

variable {Name : Type} [Fintype Name] [DecidableEq Name]

namespace NameState
variable (v : NameState)

def goto (p : Pc) : NameState := { v with pc := p }

def finish : NameState :=
  { v with pc := .done, tally := { v.tally with counted := v.tally.counted + 1 } }

end NameState

namespace State
variable (s : State Name)

def reading : Bool := decide (∃ n, (s.name n).pc.reads = true)

def put (n : Name) (v : NameState) : State Name := { s with name := Function.update s.name n v }

def goto (n : Name) (p : Pc) : State Name := s.put n ((s.name n).goto p)

def finish (n : Name) : State Name := s.put n (s.name n).finish

def setInfo (r : Ref) (h : Option (HLinkInfo Name)) : State Name :=
  { s with info := Function.update s.info r h }

def setRevinfo (q : Ref) (x : Option HLinkInfoRev) : State Name :=
  { s with revinfo := Function.update s.revinfo q x }

def nlink (T : SourceTree Name) (i : ℕ) : ℕ :=
  T.others i + count (fun n => (s.name n).dst == some i) +
    count (fun n => (s.name n).tmp == some i)

def Ended : Prop := ∀ n, (s.name n).pc = .done

end State

def SourceTree.ino (T : SourceTree Name) (n : Name) : ℕ := (T.stx n).stx_ino

end Copy2.HLink
