import Copy2.HLink.State

/-! # The steps of the names

One step is what a thread does under one hold of the table lock, or inside one critical
section of a record. A step is refused while its lock is not to be had, and where a
system call would fail. -/
namespace Copy2.HLink
open FileJob Lib Os

variable {Name : Type} [Fintype Name] [DecidableEq Name]

namespace SourceTree
variable (T : SourceTree Name) (s : State Name) (n : Name)

/-- Is a source with these attributes to be copied over a destination with those? -/
def differs (src dst : Statx) : Bool :=
  src.stx_mtime.tv_sec != dst.stx_mtime.tv_sec || src.stx_size != dst.stx_size

def statDest : Local :=
  match (s.name n).dst with
  | none => { origShouldTransfer := true }
  | some i =>
    { destStx := { T.dstStx i with stx_ino := i, stx_nlink := s.nlink T i }
      destExists := true
      origShouldTransfer := differs (T.stx n) (T.dstStx i) }

def start : State Name :=
  let v := s.name n
  let l := T.statDest s n
  if 1 < (T.stx n).stx_nlink ∨ 1 < l.destStx.stx_nlink then
    s.put n { v with loc := l, pc := .register }
  else s.put n { v with loc := { l with out := ⟨l.origShouldTransfer, true, false⟩ }, pc := .transfer }

def register : State Name :=
  let v := s.name n
  let l := { v.loc with
    out := ⟨v.loc.origShouldTransfer, false, false⟩
    revinfoRef := if v.loc.destExists then s.rev v.loc.destStx.stx_ino else none }
  match s.fwd (T.ino n) with
  | some r => s.put n { v with loc := { l with hinfoRef := r }, pc := .compare }
  | none => s.put n { v with loc := l, pc := .promote }

def dropRev (d : ℕ) : State Name :=
  match s.rev d with
  | some q => { s with rev := Function.update s.rev d none }.setRevinfo q none
  | none => s

def addRev (d : ℕ) (x : HLinkInfoRev) : State Name :=
  { s with
    rev := Function.update s.rev d (some s.nextRef)
    revinfo := Function.update s.revinfo s.nextRef (some x)
    nextRef := s.nextRef + 1 }

/-- `reroll_dststate` under the write lock. -/
def reverseWrite : Option (State Name) :=
  let l := (s.name n).loc
  let d := l.destStx.stx_ino
  if l.destExists then
    match l.revinfoRef with
    | none =>
      if 1 < l.destStx.stx_nlink then
        let x := { srcInode := if l.out.shouldTransfer then uint64Max else T.ino n
                   nlinkRC := l.destStx.stx_nlink }
        some ((addRev s d x).goto n .transfer)
      else some (s.goto n .transfer)
    | some q => do
      let x ← s.revinfo q
      if x.locked then none
      else
        let x := { x with nlinkRC := decSize x.nlinkRC }
        -- the record stays locked when its entry is no longer there
        if x.nlinkRC = 0 then
          some ((dropRev (s.setRevinfo q (some { x with locked := true })) d).goto n .transfer)
        else some ((s.setRevinfo q (some x)).goto n .transfer)
  else some (s.goto n .transfer)

/-- Does the reverse entry that was read promise the inode to another source? -/
def revMismatch : Option Bool :=
  let l := (s.name n).loc
  if l.destExists && !l.origShouldTransfer then
    match l.revinfoRef with
    | none => some false
    | some q => (s.revinfo q).map fun x => x.srcInode != T.ino n
  else some false

def addInfo : State Name :=
  { s with
    fwd := Function.update s.fwd (T.ino n) (some s.nextRef)
    info := Function.update s.info s.nextRef
      (some { destInode := (s.name n).loc.destStx.stx_ino, remote := n
              nlinkRC := (T.stx n).stx_nlink })
    nextRef := s.nextRef + 1 }

def promote : Option (State Name) :=
  if s.reading then none
  else
    match s.fwd (T.ino n) with
    | some _ => some (s.goto n .register)
    | none => do
      let v := s.name n
      let mismatch ← T.revMismatch s n
      let l := { v.loc with
        out := ⟨v.loc.origShouldTransfer || mismatch, true, false⟩, hinfoRef := s.nextRef }
      T.reverseWrite ((T.addInfo s n).put n { v with loc := l }) n

/-- The destination inode of the root is read without its lock. -/
def compare : Option (State Name) := do
  let v := s.name n
  let h ← s.info v.loc.hinfoRef
  if !v.loc.destExists || v.loc.destStx.stx_ino != h.destInode then
    let l := { v.loc with out := { v.loc.out with shouldTransfer := false } }
    some (s.put n { v with loc := l, pc := .relink })
  else some (s.goto n .reverse)

def rootInode (root : Name) (unlinked : List Name) : Option ℕ :=
  if root ∈ unlinked then none else (s.name root).dst

/-- What is under a name after it was to be linked or published: the new inode, or the old
one, or nothing. -/
inductive Fate
  | linked
  | kept
  | gone
deriving DecidableEq, Repr

/-- Under the lock of the record: link to the root, or leave that to the root. When the
link fails, the call returns with both locks held. -/
def relink (fate : Fate) : Option (State Name) := do
  let v := s.name n
  let h ← s.info v.loc.hinfoRef
  if h.locked then none
  else if h.transferred then
    let counted := some { h with nlinkRC := decSize h.nlinkRC }
    -- the count is tested before it is decremented
    let pc := if h.nlinkRC = 0 then .retire else .reverse
    match fate with
    | .linked =>
      let y ← rootInode s h.remote [n]
      let v := { v with
        dst := some y, tally := { v.tally with direct := v.tally.direct + 1 }, pc := pc }
      some ((s.setInfo v.loc.hinfoRef counted).put n v)
    | .kept => some ((s.setInfo v.loc.hinfoRef counted).put n { v with
        tally := { v.tally with direct := v.tally.direct + 1 }, pc := pc })
    | .gone => some ((s.setInfo v.loc.hinfoRef (some { h with locked := true })).put n
        { v.finish with dst := none, pc := .leaked })
  else
    let v := { v with
      loc := { v.loc with out := { v.loc.out with isPendingHardlink := true } }
      tally := { v.tally with
        dirTaken := v.tally.dirTaken + 1, pathTaken := v.tally.pathTaken + 1 }
      pc := .reverse }
    some ((s.setInfo v.loc.hinfoRef (some { h with links := n :: h.links })).put n v)

/-- The forward entry is removed, and its record freed. -/
def retire : Option (State Name) :=
  if s.reading then none
  else
    match s.fwd (T.ino n) with
    | some r =>
      T.reverseWrite ({ s with fwd := Function.update s.fwd (T.ino n) none }.setInfo r none) n
    | none => T.reverseWrite s n

/-- `reroll_dststate` under the read lock. -/
def reverse : Option (State Name) :=
  let l := (s.name n).loc
  if l.destExists then
    match l.revinfoRef with
    | none => some (s.goto n (if 1 < l.destStx.stx_nlink then .revPromote else .transfer))
    | some q => do
      let x ← s.revinfo q
      if x.locked then none
      else
        let x := { x with nlinkRC := decSize x.nlinkRC }
        some ((s.setRevinfo q (some x)).goto n (if x.nlinkRC = 0 then .revRetire else .transfer))
  else some (s.goto n .transfer)

/-- The reverse table is read again, under the source inode. -/
def revPromote : Option (State Name) :=
  if s.reading then none
  else
    let v := s.name n
    T.reverseWrite (s.put n { v with loc := { v.loc with revinfoRef := s.rev (T.ino n) } }) n

def revRetire : Option (State Name) :=
  if s.reading then none
  else do
    let l := (s.name n).loc
    let q ← l.revinfoRef
    let x ← s.revinfo q
    if x.locked then none
    else
      let s := dropRev (s.setRevinfo q (some { x with locked := true })) l.destStx.stx_ino
      some (s.goto n .transfer)

def create (y : ℕ) (p : Pc) : Option (State Name) :=
  if s.nlink T y = 0 then some (s.put n { s.name n with tmp := some y, pc := p }) else none

def transfer (y : ℕ) : Option (State Name) :=
  let out := (s.name n).loc.out
  if out.shouldTransfer && !out.isPendingHardlink then
    if isReg (T.stx n).stx_mode then T.create s n y .queued
    else if isLnk (T.stx n).stx_mode then
      T.create s n y (if out.firstLook then .queued else .done)
    else some (s.goto n .done)
  else if out.isPendingHardlink then some (s.goto n .done)
  else if out.firstLook then some (s.goto n .queued)
  else some (s.finish n)

def transferFails : Option (State Name) :=
  let out := (s.name n).loc.out
  if out.shouldTransfer && !out.isPendingHardlink &&
      (isReg (T.stx n).stx_mode || isLnk (T.stx n).stx_mode) then some (s.goto n .done)
  else none

/-- The temporary file takes the name; without one the destination is right already. -/
def publish : Option (State Name) := do
  let v := s.name n
  let y ← v.tmp.or v.dst
  let v := { v with dst := some y, tmp := none, loc := { v.loc with finishIno := y } }
  some (s.put n (if 1 < (T.stx n).stx_nlink then v.goto .handle else v.finish))

/-- Something fails, and the job ends without a call of `hlinkStateHandleTransfer`: the
old destination is kept, or it is gone already, or the new one has taken its place. -/
def publishFails (fate : Fate) : Option (State Name) :=
  let v := s.name n
  match fate, v.tmp with
  | .linked, some y => some (s.put n ({ v with dst := some y, tmp := none }).finish)
  | .gone, some _ => some (s.put n ({ v with dst := none, tmp := none }).finish)
  | _, _ => some (s.put n ({ v with tmp := none }).finish)

def handle : State Name :=
  let v := s.name n
  match s.fwd (T.ino n) with
  | some r => s.put n { v with loc := { v.loc with hinfoRef := r }, pc := .drain }
  | none => s.finish n

/-- A pending entry is linked to the root, counted, and gives its references back. -/
def drainEntry (fate : Fate) (y k : ℕ) (v : NameState) : NameState :=
  if k = 0 then v
  else
    { v with
      dst := match fate with
        | .linked => some y
        | .kept => v.dst
        | .gone => none
      tally := { v.tally with
        drained := v.tally.drained + k
        counted := v.tally.counted + k
        dirReleased := v.tally.dirReleased + k
        pathReleased := v.tally.pathReleased + k } }

/-- Under the lock of the record: the root has been transferred. -/
def drain (fate : Name → Fate) : Option (State Name) := do
  let v := s.name n
  let h ← s.info v.loc.hinfoRef
  let y ← rootInode s n h.links
  if h.locked then none
  else
    let h' := { h with
      transferred := true, destInode := v.loc.finishIno, nlinkRC := decSize h.nlinkRC }
    let s := { s with name := fun e => drainEntry (fate e) y (h.links.count e) (s.name e) }
    let s := s.setInfo v.loc.hinfoRef (some h')
    let v := { v with tally := { v.tally with handled := v.tally.handled + 1 } }
    some (s.put n (if h'.nlinkRC = 0 then v.goto .handleRetire else v.finish))

/-- The forward table is read under the destination inode, and what is removed from the
reverse table is the source inode. -/
def handleRetire : Option (State Name) :=
  if s.reading then none
  else
    match s.fwd (s.name n).loc.finishIno with
    | some r =>
      some (({ s with rev := Function.update s.rev (T.ino n) none }.setInfo r none).finish n)
    | none => some (s.finish n)

end SourceTree

/-- A thread goes on with a name, and creates its temporary file under the given inode
if it is time to; or its calls fail, with those fates of the names it would link or
publish; or freed memory is used again. -/
inductive Op (Name : Type)
  | run (n : Name) (y : ℕ)
  | fail (n : Name) (fate : Name → SourceTree.Fate)
  | reuseInfo (r : Ref) (h : HLinkInfo Name)
  | reuseRevinfo (q : Ref) (x : HLinkInfoRev)

namespace SourceTree
variable (T : SourceTree Name) (s : State Name)

def step (n : Name) (y : ℕ) : Option (State Name) :=
  match (s.name n).pc with
  | .start => some (T.start s n)
  | .register => some (T.register s n)
  | .promote => T.promote s n
  | .compare => compare s n
  | .relink => relink s n .linked
  | .retire => T.retire s n
  | .reverse => reverse s n
  | .revPromote => T.revPromote s n
  | .revRetire => revRetire s n
  | .transfer => T.transfer s n y
  | .queued => T.publish s n
  | .handle => some (T.handle s n)
  | .drain => drain s n fun _ => .linked
  | .handleRetire => T.handleRetire s n
  | .leaked | .done => none

/-- The steps that can go wrong. -/
def stepFails (n : Name) (fate : Name → Fate) : Option (State Name) :=
  match (s.name n).pc with
  | .relink => relink s n (fate n)
  | .transfer => T.transferFails s n
  | .queued => publishFails s n (fate n)
  | .drain => drain s n fate
  | _ => none

def next : Op Name → Option (State Name)
  | .run n y => T.step s n y
  | .fail n fate => T.stepFails s n fate
  | .reuseInfo r h =>
    if r < s.nextRef ∧ (s.info r).isNone then some (s.setInfo r (some h)) else none
  | .reuseRevinfo q x =>
    if q < s.nextRef ∧ (s.revinfo q).isNone then some (s.setRevinfo q (some x)) else none

def system : TransitionSystem (State Name) (Op Name) where
  init s := ∃ dst : Name → Option ℕ, s = { name := fun n => { dst := dst n } }
  next s op := T.next s op

end SourceTree
end Copy2.HLink
