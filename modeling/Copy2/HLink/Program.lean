import Copy2.HLink.State
import Copy2.Lib.Protocol

/-! # The two functions of the link table, call by call

`hlinkStateRegisterLinkRoot` and `hlinkStateHandleTransfer` as one thread runs them: every
lock that is taken or given back, every look at a table with its key, every use of a record.
What other threads do to the tables and the records shows in the answers. -/
namespace Copy2.HLink.Program
open FileJob Lib Os

/-- The two tables, as they are while their lock is held. -/
structure Tables where
  forward : ℕ → Option Ref := fun _ => none
  rev : ℕ → Option Ref := fun _ => none

/-- Records of the two kinds are named apart. Taking the state lock answers with the tables
as they are then. -/
inductive Call
  | rdlock
  | wrlock
  | unlock
  | readForward (k : ℕ)
  | readRev (k : ℕ)
  | writeForward (k : ℕ) (r : Ref)
  | writeRev (k : ℕ) (q : Ref)
  | deleteForward (k : ℕ)
  | deleteRev (k : ℕ)
  | newInfo (remote : String) (destInode nlinkRC : ℕ)
  | newRev (srcInode nlinkRC : ℕ)
  | freeInfo (r : Ref)
  | freeRev (q : Ref)
  | lockInfo (r : Ref)
  | unlockInfo (r : Ref)
  | lockRev (q : Ref)
  | unlockRev (q : Ref)
  | destInode (r : Ref)
  | remote (r : Ref)
  | transferred (r : Ref)
  | setTransferred (r : Ref) (destInode : ℕ)
  | links (r : Ref)
  | appendLink (r : Ref) (remote : String) (dstDirFD : FDRCRef)
  | decInfo (r : Ref)
  | srcInode (q : Ref)
  | decRev (q : Ref)
  | unlinkat (path : String)
  | linkat (old new : String)
  | incref (dir : FDRCRef)
  | increfPath (path : String)
  | releaseDir (dir : FDRCRef)
  | releasePath (path : String)

/-- A decrement of `nlinkRC` answers with the count it finds. -/
def Call.Answer : Call → Type
  | rdlock | wrlock => Tables
  | readForward _ | readRev _ => Option Ref
  | newInfo .. | newRev .. => Ref
  | destInode _ | srcInode _ | decInfo _ | decRev _ => ℕ
  | remote _ => String
  | transferred _ => Bool
  | links _ => List (String × FDRCRef)
  | unlinkat _ | linkat .. => Except Errno Unit
  | _ => Unit

abbrev Sys : Interface := ⟨Call, Call.Answer⟩

def sys (c : Call) : Prog Sys c.Answer := .call c .ret

@[simp] theorem sys_bind {α : Type} (c : Call) (f : c.Answer → Prog Sys α) :
    sys c >>= f = .call c f := rfl

structure Args where
  remote : String
  srcInode : ℕ
  destInode : ℕ
  destExists : Bool
  srcNLinksExpected : ℕ
  destNLinksExpected : ℕ
  shouldTransfer : Bool
  dstDirFD : FDRCRef

section Register
variable (a : Args)

def unlockAndReturn (out : LinkOutcome) : Prog Sys (Option LinkOutcome) := do
  sys .unlock
  return some out

/-- A link of the destination inode is accounted for. A record that is no longer in the table
when its count is zero stays locked, and so does one that is not the record in the table. -/
def countDown (out : LinkOutcome) (haveWrlock : Bool) (revinfoRef : Ref) :
    Prog Sys (Option LinkOutcome) := do
  sys (.lockRev revinfoRef)
  let nlinkRC : ℕ ← sys (.decRev revinfoRef)
  if decSize nlinkRC = 0 then
    if !haveWrlock then
      sys (.unlockRev revinfoRef)
      sys .unlock
      let _ ← sys .wrlock
      sys (.lockRev revinfoRef)
      retire
    else retire
  else
    sys (.unlockRev revinfoRef)
    unlockAndReturn out
where
  retire : Prog Sys (Option LinkOutcome) := do
    match ← sys (.readRev a.destInode) with
    | some current =>
      sys (.deleteRev a.destInode)
      sys (.freeRev current)
      unlockAndReturn out
    | none => unlockAndReturn out

/-- `reroll_dststate`, when the write lock is held. -/
def rerollWrite (out : LinkOutcome) (revinfoRef : Option Ref) : Prog Sys (Option LinkOutcome) :=
  match revinfoRef with
  | some revinfoRef => countDown a out true revinfoRef
  | none =>
    if a.destExists && decide (1 < a.destNLinksExpected) then do
      let revinfoRef ← sys (.newRev (if out.shouldTransfer then uint64Max else a.srcInode)
        a.destNLinksExpected)
      sys (.writeRev a.destInode revinfoRef)
      unlockAndReturn out
    else unlockAndReturn out

/-- `reroll_dststate`: without a write lock the reverse table is read again, under the source
inode. -/
def rerollDststate (out : LinkOutcome) (haveWrlock : Bool) (revinfoRef : Option Ref) :
    Prog Sys (Option LinkOutcome) :=
  if haveWrlock then rerollWrite a out revinfoRef
  else match revinfoRef with
    | some revinfoRef => countDown a out false revinfoRef
    | none =>
      if a.destExists && decide (1 < a.destNLinksExpected) then do
        sys .unlock
        let _ ← sys .wrlock
        let revinfoRef ← sys (.readRev a.srcInode)
        rerollWrite a out revinfoRef
      else unlockAndReturn out

/-- The name is linked to the root of its inode, or left to the root as a pending entry. -/
def relink (hinfoRef : Ref) (revinfoRef : Option Ref) : Prog Sys (Option LinkOutcome) := do
  let linkRoot ← sys (.remote hinfoRef)
  sys (.lockInfo hinfoRef)
  let transferred : Bool ← sys (.transferred hinfoRef)
  if transferred then
    match ← sys (.unlinkat a.remote) with
    | .ok _ => link linkRoot
    | .error e => if e = enoent then link linkRoot else counted
  else
    sys (.incref a.dstDirFD)
    sys (.increfPath a.remote)
    sys (.appendLink hinfoRef a.remote a.dstDirFD)
    sys (.unlockInfo hinfoRef)
    rerollDststate a ⟨false, false, true⟩ false revinfoRef
where
  out : LinkOutcome := ⟨false, false, false⟩
  /-- When the link fails, the function returns as it is. -/
  link (linkRoot : String) : Prog Sys (Option LinkOutcome) := do
    match ← sys (.linkat linkRoot a.remote) with
    | .error _ => return some out
    | .ok _ => counted
  counted : Prog Sys (Option LinkOutcome) := do
    let nlinkRC : ℕ ← sys (.decInfo hinfoRef)
    if nlinkRC = 0 then
      sys (.unlockInfo hinfoRef)
      sys .unlock
      let _ ← sys .wrlock
      match ← sys (.readForward a.srcInode) with
      | some current =>
        sys (.lockInfo hinfoRef)
        sys (.deleteForward a.srcInode)
        sys (.freeInfo current)
        rerollDststate a out true revinfoRef
      | none => rerollDststate a out true revinfoRef
    else
      sys (.unlockInfo hinfoRef)
      rerollDststate a out false revinfoRef

def becomeRoot (revinfoRef : Option Ref) : Prog Sys (Option LinkOutcome) := do
  let hinfoRef ← sys (.newInfo a.remote a.destInode a.srcNLinksExpected)
  sys (.increfPath a.remote)
  sys (.writeForward a.srcInode hinfoRef)
  match revinfoRef with
  | some q =>
    if a.destExists && !a.shouldTransfer then
      let srcInode : ℕ ← sys (.srcInode q)
      rerollDststate a ⟨srcInode != a.srcInode, true, false⟩ true revinfoRef
    else rerollDststate a ⟨a.shouldTransfer, true, false⟩ true revinfoRef
  | none => rerollDststate a ⟨a.shouldTransfer, true, false⟩ true revinfoRef

def found (hinfoRef : Ref) (revinfoRef : Option Ref) : Prog Sys (Option LinkOutcome) := do
  let destInode : ℕ ← sys (.destInode hinfoRef)
  if !a.destExists || a.destInode != destInode then relink a hinfoRef revinfoRef
  else rerollDststate a ⟨a.shouldTransfer, false, false⟩ false revinfoRef

def missing (reroll : Prog Sys (Option LinkOutcome)) (revinfoRef : Option Ref) :
    Prog Sys (Option LinkOutcome) := do
  sys .unlock
  let _ ← sys .wrlock
  match ← sys (.readForward a.srcInode) with
  | some _ =>
    sys .unlock
    reroll
  | none => becomeRoot a revinfoRef

/-- The whole function, with at most so many turns of `reroll`; without an answer it has not
returned yet. -/
def hlinkStateRegisterLinkRoot : ℕ → Prog Sys (Option LinkOutcome)
  | 0 => .ret none
  | turns + 1 => do
    let _ ← sys .rdlock
    match ← sys (.readForward a.srcInode) with
    | some hinfoRef =>
      if a.destExists then
        let revinfoRef ← sys (.readRev a.destInode)
        found a hinfoRef revinfoRef
      else found a hinfoRef none
    | none =>
      if a.destExists then
        let revinfoRef ← sys (.readRev a.destInode)
        missing a (hlinkStateRegisterLinkRoot turns) revinfoRef
      else missing a (hlinkStateRegisterLinkRoot turns) none

end Register

/-- The pending entries are linked to the root; how many there were. -/
def drain (remote : String) : List (String × FDRCRef) → ℕ → Prog Sys ℕ
  | [], nFinishedInc => .ret nFinishedInc
  | (linkRoot, dstFDRef) :: entries, nFinishedInc => do
    let _ ← sys (.unlinkat linkRoot)
    let _ ← sys (.linkat remote linkRoot)
    sys (.releasePath linkRoot)
    sys (.releaseDir dstFDRef)
    drain remote entries (nFinishedInc + 1)

/-- The forward table is read under the destination inode, and what is deleted is the entry of
the source inode in the reverse table. A record that is not found there is unlocked twice. -/
def retireRoot (srcInode destInode : ℕ) (hinfoRef : Ref) : Prog Sys Unit := do
  sys (.unlockInfo hinfoRef)
  sys .unlock
  let _ ← sys .wrlock
  match ← sys (.readForward destInode) with
  | some current =>
    sys (.lockInfo hinfoRef)
    sys (.deleteRev srcInode)
    sys (.freeInfo current)
  | none => sys (.unlockInfo hinfoRef)

def hlinkStateHandleTransfer (remote : String) (srcInode destInode : ℕ) : Prog Sys ℕ := do
  let _ ← sys .rdlock
  match ← sys (.readForward srcInode) with
  | none =>
    sys .unlock
    return 0
  | some hinfoRef =>
    sys (.lockInfo hinfoRef)
    sys (.setTransferred hinfoRef destInode)
    let entries ← sys (.links hinfoRef)
    let nFinishedInc ← drain remote entries 0
    let nlinkRC : ℕ ← sys (.decInfo hinfoRef)
    if decSize nlinkRC = 0 then
      retireRoot srcInode destInode hinfoRef
      sys .unlock
      return nFinishedInc
    else
      sys (.unlockInfo hinfoRef)
      sys .unlock
      return nFinishedInc

inductive Held
  | reading
  | writing
deriving DecidableEq, Repr

/-- The tables since the state lock was last taken, that lock as this thread has it, the
records it has locked. -/
structure World where
  tables : Tables := {}
  acquired : ℕ := 0
  released : ℕ := 0
  held : Option Held := none
  infoLocked : Ref → Bool := fun _ => false
  revLocked : Ref → Bool := fun _ => false

namespace World
variable (w : World)

def setForward (k : ℕ) (r : Option Ref) : World :=
  { w with tables := { w.tables with forward := Function.update w.tables.forward k r } }

def setRev (k : ℕ) (q : Option Ref) : World :=
  { w with tables := { w.tables with rev := Function.update w.tables.rev k q } }

def acquire (h : Held) (tables : Tables) : World :=
  { w with tables, acquired := w.acquired + 1, held := some h }

def lockInfo (r : Ref) (locked : Bool) : World :=
  { w with infoLocked := Function.update w.infoLocked r locked }

def lockRev (q : Ref) (locked : Bool) : World :=
  { w with revLocked := Function.update w.revLocked q locked }

def step : Sys.Event → World
  | ⟨.rdlock, tables⟩ => w.acquire .reading tables
  | ⟨.wrlock, tables⟩ => w.acquire .writing tables
  | ⟨.unlock, _⟩ => { w with released := w.released + 1, held := none }
  | ⟨.writeForward k r, _⟩ => w.setForward k (some r)
  | ⟨.writeRev k q, _⟩ => w.setRev k (some q)
  | ⟨.deleteForward k, _⟩ => w.setForward k none
  | ⟨.deleteRev k, _⟩ => w.setRev k none
  | ⟨.lockInfo r, _⟩ => w.lockInfo r true
  | ⟨.unlockInfo r, _⟩ => w.lockInfo r false
  | ⟨.newInfo .., r⟩ => w.lockInfo r false
  | ⟨.lockRev q, _⟩ => w.lockRev q true
  | ⟨.unlockRev q, _⟩ => w.lockRev q false
  | ⟨.newRev .., q⟩ => w.lockRev q false
  | _ => w

/-- A look at a table finds what is there; a new record is none that is in a table. -/
def ok : Sys.Event → Prop
  | ⟨.readForward k, r⟩ => r = w.tables.forward k
  | ⟨.readRev k, q⟩ => q = w.tables.rev k
  | ⟨.newInfo .., r⟩ => ∀ k, w.tables.forward k ≠ some r
  | ⟨.newRev .., q⟩ => ∀ k, w.tables.rev k ≠ some q
  | _ => True

end World

/-- Answers to a call that no other thread disturbs. -/
def undisturbed (tables : Tables) (transferred : Bool) (nlinkRC : ℕ) (linked : Except Errno Unit) :
    (c : Call) → c.Answer
  | .rdlock | .wrlock => tables
  | .readForward k => tables.forward k
  | .readRev k => tables.rev k
  | .newInfo .. | .newRev .. => (30 : ℕ)
  | .destInode _ | .srcInode _ => (0 : ℕ)
  | .decInfo _ | .decRev _ => nlinkRC
  | .remote _ => "root"
  | .transferred _ => transferred
  | .links _ => ([] : List (String × FDRCRef))
  | .unlinkat _ => .ok ()
  | .linkat .. => linked
  | .unlock | .writeForward .. | .writeRev .. | .deleteForward _ | .deleteRev _ | .freeInfo _
  | .freeRev _ | .lockInfo _ | .unlockInfo _ | .lockRev _ | .unlockRev _ | .setTransferred ..
  | .appendLink .. | .incref _ | .increfPath _ | .releaseDir _ | .releasePath _ => ()

end Copy2.HLink.Program
