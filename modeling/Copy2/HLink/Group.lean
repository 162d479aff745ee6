import Copy2.HLink.Steps

/-! # One group of links

What holds of the names that share a source inode: one of them is the root, and every
other one is joined to the root, or waits for it, or has not looked yet. -/
namespace Copy2.HLink
open FileJob Lib Os

variable {Name : Type} [Fintype Name] [DecidableEq Name]

/-- The forward table has not been seen. -/
def Pc.early : Pc → Bool
  | start | register | promote => true
  | _ => false

/-- An entry of the forward table has been found, and is looked at. -/
def Pc.looking : Pc → Bool
  | compare | relink => true
  | _ => false

/-- What becomes of a name that is no root has been decided. -/
def Pc.resolved : Pc → Bool
  | reverse | revPromote | revRetire | transfer | done => true
  | _ => false

def Pc.rooted : Pc → Bool
  | transfer | queued | handle | drain | done => true
  | _ => false

/-- The inode of the name is no longer up to its own thread's lookup. -/
def Pc.settled (p : Pc) : Bool := !p.early && !p.looking

/-- The destination of a root is about to be replaced, if it ever is. -/
def Pc.before : Pc → Bool
  | transfer | queued => true
  | _ => false

theorem Pc.resolved_of_early {p : Pc} (h : p.early = true) : p.resolved = false := by
  revert h
  cases p <;> decide

theorem Pc.resolved_of_looking {p : Pc} (h : p.looking = true) : p.resolved = false := by
  revert h
  cases p <;> decide

theorem Pc.rooted_of_early {p : Pc} (h : p.early = true) : p.rooted = false := by
  revert h
  cases p <;> decide

theorem Pc.rooted_of_looking {p : Pc} (h : p.looking = true) : p.rooted = false := by
  revert h
  cases p <;> decide

def Local.home (l : Local) : Option ℕ := if l.destExists then some l.destStx.stx_ino else none

namespace SourceTree
variable (T : SourceTree Name) (s : State Name) (n : Name)

/-- Only regular files and symbolic links are copied. -/
def copied : Bool := isReg (T.stx n).stx_mode || isLnk (T.stx n).stx_mode

def replaces (v : NameState) : Bool := v.loc.out.shouldTransfer && T.copied n

def stale (l : Local) : Bool :=
  !l.destExists || differs (T.stx n) (T.dstStx l.destStx.stx_ino)

/-- The name keeps the inode it has. -/
def firm (v : NameState) : Bool := !T.replaces n v || !v.pc.before

/-- The name still has the inode that `statx` found. -/
def atHome (v : NameState) : Bool :=
  v.pc == .register || v.pc == .promote || v.pc.looking ||
    v.loc.out.firstLook && (v.pc.before || !T.replaces n v)

def directs (i : ℕ) : ℕ :=
  count fun n => T.ino n == i && (s.name n).tally.direct != 0

end SourceTree

structure NameOk (T : SourceTree Name) (n : Name) (v : NameState) : Prop where
  stale : v.pc ≠ .start → v.loc.origShouldTransfer = T.stale n v.loc
  home : T.atHome n v = true → v.dst = v.loc.home
  tmp : v.pc ≠ .queued → v.tmp = none
  queued : v.pc = .queued → v.tmp.isSome = T.replaces n v
  flags : v.loc.out.firstLook = true → v.pc.rooted = true ∧ v.loc.out.isPendingHardlink = false ∧
    (v.loc.origShouldTransfer = true → v.loc.out.shouldTransfer = true)
  look : v.loc.out.firstLook = false → v.pc.before = true → v.pc = .transfer
  offered : v.pc = .compare → v.loc.out.shouldTransfer = v.loc.origShouldTransfer
  undecided : v.pc.early = true ∨ v.pc.looking = true → v.loc.out.isPendingHardlink = false
  withdrawn : v.pc = .relink → v.loc.out.shouldTransfer = false
  linked : v.pc = .handle ∨ v.pc = .drain → 1 < (T.stx n).stx_nlink
  untouched : v.pc.early = true ∨ v.pc.looking = true ∨ v.loc.out.firstLook = true →
    v.tally.direct = 0

def Unregistered (T : SourceTree Name) (n : Name) (v : NameState) : Prop :=
  v.pc.early = true ∨
    (T.stx n).stx_nlink ≤ 1 ∧ v.loc.out.firstLook = true ∧
      (v.pc = .transfer ∨ v.pc = .queued ∨ v.pc = .done)

/-- The root of a group, and what its record says of it. -/
structure Root (T : SourceTree Name) (r : Ref) (h : HLinkInfo Name) (v : NameState) : Prop where
  firstLook : v.loc.out.firstLook = true
  drain : v.pc = .drain → v.loc.hinfoRef = r
  moved : v.pc = .handle ∨ v.pc = .drain → v.dst = some v.loc.finishIno
  recorded : h.transferred = false → h.destInode = v.loc.destStx.stx_ino
  handled : h.transferred = false → v.pc = .done → T.copied h.remote = true →
    (T.stx h.remote).stx_nlink ≤ 1
  transferred : h.transferred = true → v.pc = .done ∧ v.dst = some h.destInode

/-- A name that has been decided is joined to the root for good, or waits in its list. -/
def Attached (T : SourceTree Name) (h : HLinkInfo Name) (root : NameState) (n : Name)
    (v : NameState) : Prop :=
  v.loc.out.isPendingHardlink = true ∧ h.transferred = false ∧ n ∈ h.links ∨
    v.dst = root.dst ∧ T.firm h.remote root = true

structure Member (T : SourceTree Name) (r : Ref) (h : HLinkInfo Name) (root : NameState)
    (n : Name) (v : NameState) : Prop where
  phase : v.pc.early = true ∨ v.pc.looking = true ∧ v.loc.hinfoRef = r ∨ v.pc.resolved = true
  firstLook : v.loc.out.firstLook = false
  replaces : v.pc.resolved = true → T.replaces n v = false
  listed : v.loc.out.isPendingHardlink = true → n ∈ h.links
  attached : v.pc.resolved = true → Attached T h root n v
  direct : v.tally.direct ≠ 0 → h.transferred = true

structure Registered (T : SourceTree Name) (s : State Name) (i : ℕ) (r : Ref)
    (h : HLinkInfo Name) : Prop where
  ref_lt : r < s.nextRef
  ino_root : T.ino h.remote = i
  root : Root T r h (s.name h.remote)
  member : ∀ n, T.ino n = i → n ≠ h.remote → Member T r h (s.name h.remote) n (s.name n)
  links : ∀ n ∈ h.links, T.ino n = i ∧ n ≠ h.remote ∧
    (s.name n).loc.out.isPendingHardlink = true ∧ (s.name n).pc.resolved = true
  nodup : h.links.Nodup
  rc : h.nlinkRC + h.transferred.toNat + T.directs s i = (T.stx h.remote).stx_nlink

structure Group (T : SourceTree Name) (s : State Name) (i : ℕ) : Prop where
  names : ∀ n, T.ino n = i → NameOk T n (s.name n)
  unregistered : s.fwd i = none → ∀ n, T.ino n = i → Unregistered T n (s.name n)
  registered : ∀ r, s.fwd i = some r → ∃ h, s.info r = some h ∧ Registered T s i r h

structure Fresh (T : SourceTree Name) (s : State Name) : Prop where
  unused : ∀ m y, (s.name m).tmp = some y → ∀ n, (s.name n).dst ≠ some y
  own : ∀ m y, (s.name m).tmp = some y → ∀ n, (s.name n).tmp = some y → n = m
  replaced : ∀ m, T.replaces m (s.name m) = true → (s.name m).loc.out.firstLook = true →
    (s.name m).pc.before = false → ∀ n, (s.name n).dst = (s.name m).dst →
    T.ino n = T.ino m ∧ (s.name n).pc.settled = true

section frame
variable {T : SourceTree Name} {s s' : State Name} {i : ℕ}

/-- Nothing that a group depends on has changed. -/
structure SameGroup (T : SourceTree Name) (s s' : State Name) (i : ℕ) : Prop where
  fwd : s'.fwd i = s.fwd i
  info : ∀ r, s.fwd i = some r → s'.info r = s.info r
  nextRef : s.nextRef ≤ s'.nextRef
  name : ∀ n, T.ino n = i → s'.name n = s.name n

theorem SameGroup.directs (h : SameGroup T s s' i) : T.directs s' i = T.directs s i := by
  refine congrArg count (funext fun n => ?_)
  by_cases hn : T.ino n = i
  · rw [h.name n hn]
  · have hfalse : (T.ino n == i) = false := by simpa using hn
    simp only [hfalse, Bool.false_and]

theorem Group.frame (hg : Group T s i) (h : SameGroup T s s' i) : Group T s' i where
  names n hn := h.name n hn ▸ hg.names n hn
  unregistered hf n hn := h.name n hn ▸ hg.unregistered (h.fwd ▸ hf) n hn
  registered r hf := by
    rw [h.fwd] at hf
    obtain ⟨x, hx, hreg⟩ := hg.registered r hf
    have hroot := h.name _ hreg.ino_root
    refine ⟨x, (h.info r hf).trans hx, ?_⟩
    exact {
      ref_lt := hreg.ref_lt.trans_le h.nextRef
      ino_root := hreg.ino_root
      root := hroot ▸ hreg.root
      member := fun n hn hne => by
        rw [hroot, h.name n hn]
        exact hreg.member n hn hne
      links := fun n hn => by
        rw [h.name n (hreg.links n hn).1]
        exact hreg.links n hn
      nodup := hreg.nodup
      rc := h.directs ▸ hreg.rc }

end frame

section move
variable {T : SourceTree Name} {s s' : State Name} {n : Name} {v : NameState}

structure Moved (s s' : State Name) (n : Name) (v : NameState) : Prop where
  fwd : s'.fwd = s.fwd
  info : s'.info = s.info
  nextRef : s.nextRef ≤ s'.nextRef
  name : s'.name = Function.update s.name n v

theorem Moved.other (h : Moved s s' n v) {i : ℕ} (hi : i ≠ T.ino n) : SameGroup T s s' i where
  fwd := by rw [h.fwd]
  info r _ := by rw [h.info]
  nextRef := h.nextRef
  name m hm := by
    rw [h.name, Function.update_of_ne]
    rintro rfl
    exact hi hm.symm

theorem Moved.directs (h : Moved s s' n v) (hv : v.tally.direct = (s.name n).tally.direct)
    (i : ℕ) : T.directs s' i = T.directs s i := by
  refine congrArg count (funext fun m => ?_)
  rw [h.name]
  by_cases hm : m = n
  · subst hm
    rw [Function.update_self, hv]
  · rw [Function.update_of_ne hm]

def Replaced (T : SourceTree Name) (m : Name) (v : NameState) : Prop :=
  T.replaces m v = true ∧ v.loc.out.firstLook = true ∧ v.pc.before = false

/-- What a move does to the tally: a name is counted when it is done, unless its root
counts it or there is nothing that the program can do with it. -/
inductive TallyStep (T : SourceTree Name) (n : Name) (u v : NameState) : Prop
  | same (hp : v.pc ≠ .done) (h : v.tally = u.tally)
  | stop (h : v.tally = u.tally) (hpend : v.loc.out.isPendingHardlink = true)
  | skip (h : v.tally = u.tally) (hs : v.loc.out.shouldTransfer = true) (hc : T.copied n = false)
  | count (hp : v.pc = .done) (hpend : v.loc.out.isPendingHardlink = false)
      (h : v.tally = { u.tally with counted := u.tally.counted + 1 })

/-- What a move does to the files: nothing, or a temporary file is created, or takes the
name. -/
inductive FileStep (T : SourceTree Name) (s : State Name) (n : Name) (v : NameState) : Prop
  | same (hdst : v.dst = (s.name n).dst) (htmp : v.tmp = (s.name n).tmp)
      (hrep : Replaced T n v → Replaced T n (s.name n))
  | create (y : ℕ) (hy : s.nlink T y = 0) (hdst : v.dst = (s.name n).dst) (htmp : v.tmp = some y)
      (hrep : v.pc.before = true)
  | publish (y : ℕ) (hy : (s.name n).tmp = some y) (hdst : v.dst = some y) (htmp : v.tmp = none)
      (hset : v.pc.settled = true)

structure Change (T : SourceTree Name) (s : State Name) (n : Name) (v : NameState) : Prop where
  notDone : (s.name n).pc ≠ .done
  tally : TallyStep T n (s.name n) v
  files : FileStep T s n v
  settled : (s.name n).pc.settled = true → v.pc.settled = true
  pending : v.loc.out.isPendingHardlink = (s.name n).loc.out.isPendingHardlink
  first : v.loc.out.firstLook = true →
    (s.name n).loc.out.firstLook = true ∨ (s.name n).pc.early = true
  decided : v.pc.resolved = true → v.loc.out.firstLook = true ∨ (s.name n).pc = .compare ∨
    (s.name n).pc.resolved = true ∧ v.loc.out = (s.name n).loc.out

theorem Change.direct (h : Change T s n v) : v.tally.direct = (s.name n).tally.direct := by
  cases h.tally with
  | same _ h => rw [h]
  | stop h _ => rw [h]
  | skip h _ _ => rw [h]
  | count _ _ h => rw [h]

def Waits (u v : NameState) : Prop :=
  u.loc.out.isPendingHardlink = true → u.pc.resolved = true →
    v.loc.out.isPendingHardlink = true ∧ v.pc.resolved = true

structure MoveOk (T : SourceTree Name) (s : State Name) (n : Name) (v : NameState) : Prop where
  ok : NameOk T n v
  change : Change T s n v
  unregistered : s.fwd (T.ino n) = none → Unregistered T n v
  root : ∀ r h, s.fwd (T.ino n) = some r → s.info r = some h → n = h.remote →
    Root T r h v ∧ (T.firm n (s.name n) = true → T.firm n v = true ∧ v.dst = (s.name n).dst)
  member : ∀ r h, s.fwd (T.ino n) = some r → s.info r = some h → n ≠ h.remote →
    Member T r h (s.name h.remote) n v ∧ Waits (s.name n) v

theorem MoveOk.of_unregistered (hf : s.fwd (T.ino n) = none) (ok : NameOk T n v)
    (change : Change T s n v) (hun : Unregistered T n v) :
    MoveOk T s n v where
  ok := ok
  change := change
  unregistered _ := hun
  root r h hf' := by simp [hf] at hf'
  member r h hf' := by simp [hf] at hf'

theorem MoveOk.of_root {r : Ref} {h : HLinkInfo Name} (hf : s.fwd (T.ino n) = some r)
    (hh : s.info r = some h) (hn : n = h.remote) (ok : NameOk T n v)
    (change : Change T s n v) (hroot : Root T r h v)
    (hfirm : T.firm n (s.name n) = true → T.firm n v = true ∧ v.dst = (s.name n).dst) :
    MoveOk T s n v where
  ok := ok
  change := change
  unregistered hf' := by simp [hf] at hf'
  root r' h' hf' hh' _ := by
    obtain rfl : r = r' := Option.some.inj (hf.symm.trans hf')
    obtain rfl : h = h' := Option.some.inj (hh.symm.trans hh')
    exact ⟨hroot, hfirm⟩
  member r' h' hf' hh' hne := by
    obtain rfl : r = r' := Option.some.inj (hf.symm.trans hf')
    obtain rfl : h = h' := Option.some.inj (hh.symm.trans hh')
    exact absurd hn hne

theorem MoveOk.of_member {r : Ref} {h : HLinkInfo Name} (hf : s.fwd (T.ino n) = some r)
    (hh : s.info r = some h) (hne : n ≠ h.remote) (ok : NameOk T n v)
    (change : Change T s n v)
    (hmem : Member T r h (s.name h.remote) n v) (hwaits : Waits (s.name n) v) :
    MoveOk T s n v where
  ok := ok
  change := change
  unregistered hf' := by simp [hf] at hf'
  root r' h' hf' hh' hn := by
    obtain rfl : r = r' := Option.some.inj (hf.symm.trans hf')
    obtain rfl : h = h' := Option.some.inj (hh.symm.trans hh')
    exact absurd hn hne
  member r' h' hf' hh' _ := by
    obtain rfl : r = r' := Option.some.inj (hf.symm.trans hf')
    obtain rfl : h = h' := Option.some.inj (hh.symm.trans hh')
    exact ⟨hmem, hwaits⟩

theorem Attached.root {h : HLinkInfo Name} {u u' w : NameState} {m : Name}
    (ha : Attached T h u m w)
    (hu : T.firm h.remote u = true → T.firm h.remote u' = true ∧ u'.dst = u.dst) :
    Attached T h u' m w := by
  rcases ha with hp | ⟨hd, hf⟩
  · exact .inl hp
  · exact .inr ⟨hd.trans (hu hf).2.symm, (hu hf).1⟩

theorem Group.moved {i : ℕ} (hg : Group T s i) (hi : T.ino n = i) (hmv : Moved s s' n v)
    (hok : MoveOk T s n v) : Group T s' i where
  names m hm := by
    rw [hmv.name]
    by_cases hmn : m = n
    · subst hmn
      rw [Function.update_self]
      exact hok.ok
    · rw [Function.update_of_ne hmn]
      exact hg.names m hm
  unregistered hf m hm := by
    rw [hmv.fwd] at hf
    rw [hmv.name]
    by_cases hmn : m = n
    · subst hmn
      rw [Function.update_self]
      exact hok.unregistered (hi ▸ hf)
    · rw [Function.update_of_ne hmn]
      exact hg.unregistered hf m hm
  registered r hf := by
    rw [hmv.fwd] at hf
    obtain ⟨h, hh, hreg⟩ := hg.registered r hf
    have hf' : s.fwd (T.ino n) = some r := hi ▸ hf
    refine ⟨h, by rw [hmv.info, hh], hreg.ref_lt.trans_le hmv.nextRef, hreg.ino_root, ?_, ?_, ?_,
      hreg.nodup, by rw [hmv.directs hok.change.direct]; exact hreg.rc⟩
    · by_cases hroot : n = h.remote
      · rw [hmv.name, ← hroot, Function.update_self]
        exact (hok.root r h hf' hh hroot).1
      · rw [hmv.name, Function.update_of_ne (Ne.symm hroot)]
        exact hreg.root
    · intro m hm hne
      rw [hmv.name]
      by_cases hroot : n = h.remote
      · have hmn : m ≠ n := fun he => hne (he.trans hroot)
        rw [Function.update_of_ne hmn, ← hroot, Function.update_self]
        have hmem := hreg.member m hm hne
        rw [← hroot] at hmem
        refine { hmem with attached := fun hres => (hmem.attached hres).root fun hfirm => ?_ }
        rw [← hroot] at hfirm ⊢
        exact (hok.root r h hf' hh hroot).2 hfirm
      · rw [Function.update_of_ne (Ne.symm hroot)]
        by_cases hmn : m = n
        · subst hmn
          rw [Function.update_self]
          exact (hok.member r h hf' hh hroot).1
        · rw [Function.update_of_ne hmn]
          exact hreg.member m hm hne
    · intro m hm
      obtain ⟨hmi, hne, hpend, hres⟩ := hreg.links m hm
      refine ⟨hmi, hne, ?_⟩
      rw [hmv.name]
      by_cases hmn : m = n
      · subst hmn
        rw [Function.update_self]
        exact (hok.member r h hf' hh hne).2 hpend hres
      · rw [Function.update_of_ne hmn]
        exact ⟨hpend, hres⟩

end move
end Copy2.HLink
