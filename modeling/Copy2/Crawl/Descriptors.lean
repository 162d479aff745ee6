import Copy2.Crawl.ProcessDir
import Copy2.Lib.Protocol

/-! # The descriptors of one directory

What `processDir` opens, who owns it, and the units of `fdSem` that go with it. Tasks and
jobs drop and take references while the call runs; a record whose last reference goes
closes its descriptor, or, on the destination side, first becomes a finish job. -/
namespace Copy2.Crawl.Descriptors
open FileJob Lib Os

/-- An FDRC record: the references of this call, and those of tasks and jobs. -/
structure Record where
  fd : Fd
  dst : Bool
  mine : ℕ
  others : ℕ
deriving DecidableEq

/-- The descriptors that the call has obtained and that are open, the records it has made, the
units of the semaphore that it has taken and that have been given back. -/
structure Account where
  fds : Finset Fd := ∅
  records : FDRCRef → Option Record := fun _ => none
  taken : ℕ := 0
  back : ℕ := 0
  now : ℕ := 0

inductive Move
  | incref (ref : FDRCRef)
  | release (ref : FDRCRef)

namespace Account
variable (w : Account)

def obtained (fd : Fd) : Account := { w with fds := insert fd w.fds, taken := w.taken + 1 }

/-- `close_wrapper` and `closedir_wrapper`. -/
def close (fd : Fd) : Account := { w with fds := w.fds.erase fd, back := w.back + 1 }

def record (ref : FDRCRef) (r : Option Record) : Account :=
  { w with records := Function.update w.records ref r }

/-- The end of `~FDRCGuard`: a destination record lives on for its finish job. -/
def settle (ref : FDRCRef) (r : Record) : Account :=
  if r.mine + r.others ≠ 0 then w.record ref (some r)
  else if r.dst then w.record ref (some { r with dst := false, others := 1 })
  else (w.record ref none).close r.fd

def onRecord (ref : FDRCRef) (f : Record → Account) : Account :=
  match w.records ref with
  | some r => f r
  | none => w

def handOver (ref : FDRCRef) : Account :=
  w.onRecord ref fun r => w.record ref (some { r with mine := r.mine - 1, others := r.others + 1 })

def move : Move → Account
  | .incref ref => w.onRecord ref fun r =>
    if 0 < r.others then w.record ref (some { r with others := r.others + 1 }) else w
  | .release ref => w.onRecord ref fun r =>
    if 0 < r.others then w.settle ref { r with others := r.others - 1 } else w

/-- What the call itself does. `dup` comes with a bare `sem_wait`. -/
def own : Sys.Event → Account
  | ⟨.openat .., .ok fd⟩ => w.obtained fd
  | ⟨.openat .., .error _⟩ => { w with taken := w.taken + 1, back := w.back + 1 }
  | ⟨.dup _, .ok fd⟩ => w.obtained fd
  | ⟨.dup _, .error _⟩ => { w with taken := w.taken + 1 }
  | ⟨.fdopendir _, .error _⟩ => { w with back := w.back + 1 }
  | ⟨.close fd, _⟩ => w.close fd
  | ⟨.closedir fd, _⟩ => w.close fd
  | ⟨.newFDRC fd _ dst _, ref⟩ => w.record ref (some ⟨fd, dst, 1, 0⟩)
  | ⟨.incref ref, _⟩ => w.onRecord ref fun r => w.record ref (some { r with mine := r.mine + 1 })
  | ⟨.releaseDir ref, _⟩ => w.onRecord ref fun r => w.settle ref { r with mine := r.mine - 1 }
  | ⟨.taskProcessDir _ _ srcParent dstParent, _⟩ => (w.handOver srcParent).handOver dstParent
  | ⟨.taskProcessNonDir _ _ srcParent dstParent, _⟩ => (w.handOver srcParent).handOver dstParent
  | _ => w

/-- After each event of the call, tasks and jobs move as the schedule has it. -/
def step (schedule : ℕ → List Move) (w : Account) (e : Sys.Event) : Account :=
  { (schedule w.now).foldl move (w.own e) with now := w.now + 1 }

/-- A new descriptor is none that is open, a new record is none that is there. -/
def ok (parents : List FDRCRef) (w : Account) : Sys.Event → Prop
  | ⟨.openat .., .ok fd⟩ => fd ∉ w.fds
  | ⟨.dup _, .ok fd⟩ => fd ∉ w.fds
  | ⟨.newFDRC .., ref⟩ => w.records ref = none ∧ ref ∉ parents
  | _ => True

/-- Every open descriptor is owned by a record that is referenced, and there are as many of them
as units have not been given back. -/
def Balanced : Prop :=
  (∀ fd ∈ w.fds, ∃ ref r, w.records ref = some r ∧ r.fd = fd ∧ 0 < r.mine + r.others) ∧
    w.taken = w.back + w.fds.card

/-- Once a descriptor has been obtained, nothing that could fail does, and the device is the one
that is expected. -/
def Succeeds (dev : Option (ℕ × ℕ)) (w : Account) : Sys.Event → Prop
  | ⟨.openat .., .error _⟩ => w.fds = ∅
  | ⟨.statx .., .error _⟩ => False
  | ⟨.statx .., .ok stx⟩ =>
    dev.getD (stx.stx_dev_major, stx.stx_dev_minor) = (stx.stx_dev_major, stx.stx_dev_minor)
  | ⟨.mkdirat .., .error e⟩ => e = eexist
  | ⟨.dup _, .error _⟩ => False
  | ⟨.fdopendir _, .error _⟩ => False
  | _ => True

/-- The open descriptors are those that the call has in its hands, and those of the records. -/
structure Accounted (hands : Finset Fd) (w : Account) : Prop where
  fds_iff : ∀ fd, fd ∈ w.fds ↔ fd ∈ hands ∨ ∃ ref r, w.records ref = some r ∧ r.fd = fd
  apart : ∀ ref r, w.records ref = some r → r.fd ∉ hands
  injective : ∀ ref r ref' r', w.records ref = some r → w.records ref' = some r' →
    r.fd = r'.fd → ref = ref'
  referenced : ∀ ref r, w.records ref = some r → 0 < r.mine + r.others
  units : w.taken = w.back + w.fds.card

def Leaks (fd : Fd) : Prop := fd ∈ w.fds ∧ ∀ ref r, w.records ref = some r → r.fd ≠ fd

structure Kept (P : Account → Prop) : Prop where
  update : ∀ w ref r r', P w → w.records ref = some r → r'.fd = r.fd → 0 < r'.mine + r'.others →
    P (w.record ref (some r'))
  drop : ∀ w ref r, P w → w.records ref = some r → P ((w.record ref none).close r.fd)
  tick : ∀ w n, P w → P { w with now := n }

section Kept
variable {w : Account} {P : Account → Prop} {hands : Finset Fd} {fd : Fd} {ref : FDRCRef}
  {r : Record} {m : ℕ → List Move} {e : Sys.Event}

theorem Accounted.balanced (h : Accounted ∅ w) : w.Balanced := by
  refine ⟨fun fd hfd => ?_, h.units⟩
  obtain hfd | ⟨ref, r, hr, rfl⟩ := (h.fds_iff fd).mp hfd
  · simp at hfd
  · exact ⟨ref, r, hr, rfl, h.referenced ref r hr⟩

theorem Leaks.not_balanced (h : w.Leaks fd) : ¬ w.Balanced := fun hb => by
  obtain ⟨ref, r, hr, hfd, -⟩ := hb.1 fd h.1
  exact h.2 ref r hr hfd

theorem Accounted.leaks (h : Accounted hands w) (hfd : fd ∈ hands) : w.Leaks fd :=
  ⟨(h.fds_iff fd).mpr (.inl hfd), fun ref r hr he => h.apart ref r hr (he ▸ hfd)⟩

theorem leaks_kept (fd : Fd) : Kept fun w => w.Leaks fd where
  update w ref r r' h hr hfd _ := by
    refine ⟨h.1, fun j x hj => ?_⟩
    by_cases hjr : j = ref
    · subst hjr
      obtain rfl : r' = x := by simpa [record] using hj
      rw [hfd]
      exact h.2 j r hr
    · exact h.2 j x (by simpa [record, hjr] using hj)
  drop w ref r h hr := by
    refine ⟨Finset.mem_erase.mpr ⟨(h.2 ref r hr).symm, h.1⟩, fun j x hj => ?_⟩
    by_cases hjr : j = ref
    · simp [record, close, hjr] at hj
    · exact h.2 j x (by simpa [record, close, hjr] using hj)
  tick w n h := h

theorem accounted_kept (hands : Finset Fd) : Kept (Accounted hands) where
  update w ref r r' h hr hfd hpos := by
    have hrec : ∀ j x, (w.record ref (some r')).records j = some x →
        ∃ y, w.records j = some y ∧ x.fd = y.fd ∧ 0 < x.mine + x.others := by
      intro j x hj
      by_cases hjr : j = ref
      · subst hjr
        obtain rfl : r' = x := by simpa [record] using hj
        exact ⟨r, hr, hfd, hpos⟩
      · have hj' : w.records j = some x := by simpa [record, hjr] using hj
        exact ⟨x, hj', rfl, h.referenced j x hj'⟩
    refine ⟨fun fd => ?_, fun j x hj => ?_, fun j x k y hj hk hxy => ?_, fun j x hj => ?_, h.units⟩
    · rw [show fd ∈ (w.record ref (some r')).fds ↔ fd ∈ w.fds from Iff.rfl, h.fds_iff]
      refine or_congr_right ⟨fun ⟨j, x, hj, hx⟩ => ?_, fun ⟨j, x, hj, hx⟩ => ?_⟩
      · by_cases hjr : j = ref
        · subst hjr
          obtain rfl : r = x := Option.some.inj (hr.symm.trans hj)
          exact ⟨j, r', by simp [record], hfd.trans hx⟩
        · exact ⟨j, x, by simpa [record, hjr] using hj, hx⟩
      · obtain ⟨y, hy, hxy, -⟩ := hrec j x hj
        exact ⟨j, y, hy, hxy.symm.trans hx⟩
    · obtain ⟨y, hy, hxy, -⟩ := hrec j x hj
      rw [hxy]
      exact h.apart j y hy
    · obtain ⟨x', hx', hxx, -⟩ := hrec j x hj
      obtain ⟨y', hy', hyy, -⟩ := hrec k y hk
      exact h.injective j x' k y' hx' hy' (hxx.symm.trans (hxy.trans hyy))
    · obtain ⟨y, -, -, hx⟩ := hrec j x hj
      exact hx
  drop w ref r h hr := by
    have hrec : ∀ j x, ((w.record ref none).close r.fd).records j = some x ↔
        j ≠ ref ∧ w.records j = some x := by
      intro j x
      by_cases hjr : j = ref
      · simp [record, close, hjr]
      · simp [record, close, hjr]
    have hopen : r.fd ∈ w.fds := (h.fds_iff r.fd).mpr (.inr ⟨ref, r, hr, rfl⟩)
    refine ⟨fun fd => ?_, fun j x hj => h.apart j x ((hrec j x).mp hj).2, fun j x k y hj hk =>
      h.injective j x k y ((hrec j x).mp hj).2 ((hrec k y).mp hk).2,
      fun j x hj => h.referenced j x ((hrec j x).mp hj).2, ?_⟩
    · rw [show fd ∈ ((w.record ref none).close r.fd).fds ↔ fd ≠ r.fd ∧ fd ∈ w.fds from
        Finset.mem_erase, h.fds_iff]
      constructor
      · rintro ⟨hne, hfd | ⟨j, x, hj, rfl⟩⟩
        · exact .inl hfd
        · refine .inr ⟨j, x, (hrec j x).mpr ⟨fun hjr => ?_, hj⟩, rfl⟩
          subst hjr
          exact hne (congrArg Record.fd (Option.some.inj (hj.symm.trans hr)))
      · rintro (hfd | ⟨j, x, hj, rfl⟩)
        · exact ⟨fun he => h.apart ref r hr (he ▸ hfd), .inl hfd⟩
        · obtain ⟨hjr, hj⟩ := (hrec j x).mp hj
          exact ⟨fun he => hjr (h.injective j x ref r hj hr he), .inr ⟨j, x, hj, rfl⟩⟩
    · have hcard := Finset.card_erase_of_mem hopen
      have hpos := Finset.card_pos.mpr ⟨_, hopen⟩
      have hunits := h.units
      simp only [record, close]
      omega
  tick w n h := ⟨h.fds_iff, h.apart, h.injective, h.referenced, h.units⟩

theorem Kept.settle (hP : Kept P) (h : P w) (hr : w.records ref = some r) {r' : Record}
    (hfd : r'.fd = r.fd) : P (w.settle ref r') := by
  rw [Account.settle]
  split
  · exact hP.update w ref r r' h hr hfd (by omega)
  · split
    · exact hP.update w ref r _ h hr hfd (by simp)
    · rw [hfd]
      exact hP.drop w ref r h hr

theorem Kept.onRecord {f : Record → Account} (h : P w)
    (hf : ∀ r, w.records ref = some r → P (f r)) : P (w.onRecord ref f) := by
  rw [Account.onRecord]
  split
  · exact hf _ ‹_›
  · exact h

theorem Kept.move (hP : Kept P) (h : P w) (m : Move) : P (w.move m) := by
  cases m with
  | incref ref =>
    refine Kept.onRecord h fun r hr => ?_
    split
    · exact hP.update w ref r _ h hr rfl (by simp)
    · exact h
  | release ref =>
    refine Kept.onRecord h fun r hr => ?_
    split
    · exact hP.settle h hr rfl
    · exact h

/-- Whatever the others do after an event. -/
theorem Kept.step (hP : Kept P) (h : P (w.own e)) : P (w.step m e) := by
  have hmoves : ∀ (l : List Move) (w : Account), P w → P (l.foldl Account.move w) := by
    intro l
    induction l with
    | nil => exact fun w h => h
    | cons m l ih => exact fun w h => ih _ (hP.move h m)
  exact hP.tick _ _ (hmoves _ _ h)

theorem Kept.incref (hP : Kept P) (h : P w) (ref : FDRCRef) :
    P (w.step m ⟨.incref ref, ()⟩) :=
  hP.step (Kept.onRecord h fun r hr => hP.update w ref r _ h hr rfl (by simp))

theorem Kept.release (hP : Kept P) (h : P w) (ref : FDRCRef) :
    P (w.step m ⟨.releaseDir ref, ()⟩) :=
  hP.step (Kept.onRecord h fun _ hr => hP.settle h hr rfl)

theorem Kept.handOver (hP : Kept P) (h : P w) (ref : FDRCRef) : P (w.handOver ref) :=
  Kept.onRecord h fun r hr => hP.update w ref r _ h hr rfl (by simp)

theorem Accounted.obtained (h : Accounted hands w) (hfd : fd ∉ w.fds) :
    Accounted (insert fd hands) (w.obtained fd) := by
  have hne : ∀ ref r, w.records ref = some r → r.fd ≠ fd := fun ref r hr he =>
    hfd ((h.fds_iff fd).mpr (.inr ⟨ref, r, hr, he⟩))
  refine ⟨fun x => ?_, fun ref r hr hmem => ?_, h.injective, h.referenced, ?_⟩
  · rw [show x ∈ (w.obtained fd).fds ↔ x = fd ∨ x ∈ w.fds from Finset.mem_insert,
      Finset.mem_insert, h.fds_iff, or_assoc]
    exact Iff.rfl
  · obtain he | hr' := Finset.mem_insert.mp hmem
    · exact hne ref r hr he
    · exact h.apart ref r hr hr'
  · have hunits := h.units
    simp only [Account.obtained, Finset.card_insert_of_notMem hfd]
    omega

/-- A descriptor goes from the hands of the call to a record. -/
theorem Accounted.own (h : Accounted hands w) (hr : w.records ref = none) (hfd : fd ∈ hands)
    {r : Record} (hrfd : r.fd = fd) (hpos : 0 < r.mine + r.others) :
    Accounted (hands.erase fd) (w.record ref (some r)) := by
  have hrec : ∀ j x, (w.record ref (some r)).records j = some x ↔
      j = ref ∧ r = x ∨ w.records j = some x := by
    intro j x
    by_cases hj : j = ref
    · subst hj
      simp [record, hr]
    · simp [record, hj]
  refine ⟨fun x => ?_, fun j x hj => ?_, fun j x k y hj hk hxy => ?_, fun j x hj => ?_, h.units⟩
  · rw [show x ∈ (w.record ref (some r)).fds ↔ x ∈ w.fds from Iff.rfl, h.fds_iff,
      Finset.mem_erase]
    constructor
    · rintro (hx | ⟨j, y, hj, rfl⟩)
      · by_cases hxfd : x = fd
        · exact .inr ⟨ref, r, (hrec ref r).mpr (.inl ⟨rfl, rfl⟩), hrfd.trans hxfd.symm⟩
        · exact .inl ⟨hxfd, hx⟩
      · exact .inr ⟨j, y, (hrec j y).mpr (.inr hj), rfl⟩
    · rintro (hx | ⟨j, y, hj, rfl⟩)
      · exact .inl hx.2
      · obtain ⟨rfl, rfl⟩ | hj := (hrec j y).mp hj
        · exact .inl (hrfd ▸ hfd)
        · exact .inr ⟨j, y, hj, rfl⟩
  · obtain ⟨rfl, rfl⟩ | hj := (hrec j x).mp hj
    · simp [hrfd]
    · exact fun hmem => h.apart j x hj (Finset.mem_of_mem_erase hmem)
  · obtain ⟨rfl, rfl⟩ | hj' := (hrec j x).mp hj
    · obtain ⟨rfl, -⟩ | hk' := (hrec k y).mp hk
      · rfl
      · exact absurd (hxy.symm.trans hrfd ▸ hfd) (h.apart k y hk')
    · obtain ⟨rfl, rfl⟩ | hk' := (hrec k y).mp hk
      · exact absurd (hxy.trans hrfd ▸ hfd) (h.apart j x hj')
      · exact h.injective j x k y hj' hk' hxy
  · obtain ⟨rfl, rfl⟩ | hj := (hrec j x).mp hj
    · exact hpos
    · exact h.referenced j x hj

/-- A unit that is taken and given back at once. -/
theorem Accounted.bounced (h : Accounted hands w) :
    Accounted hands { w with taken := w.taken + 1, back := w.back + 1 } := by
  refine ⟨h.fds_iff, h.apart, h.injective, h.referenced, ?_⟩
  have hunits := h.units
  simp only
  omega

theorem Accounted.closed (h : Accounted hands w) (hfd : fd ∈ hands) :
    Accounted (hands.erase fd) (w.close fd) := by
  have hopen : fd ∈ w.fds := (h.fds_iff fd).mpr (.inl hfd)
  refine ⟨fun x => ?_, fun ref r hr hmem => h.apart ref r hr (Finset.mem_of_mem_erase hmem),
    h.injective, h.referenced, ?_⟩
  · rw [show x ∈ (w.close fd).fds ↔ x ≠ fd ∧ x ∈ w.fds from Finset.mem_erase, h.fds_iff,
      Finset.mem_erase, and_or_left]
    refine or_congr_right (and_iff_right_of_imp ?_)
    rintro ⟨ref, r, hr, rfl⟩ he
    exact h.apart ref r hr (he ▸ hfd)
  · have hcard := Finset.card_erase_of_mem hopen
    have hpos := Finset.card_pos.mpr ⟨_, hopen⟩
    have hunits := h.units
    simp only [Account.close]
    omega

end Kept
end Account

open Account

/-- Either all was well and is accounted for, or something failed and a descriptor leaks. -/
def Ends (hands : Finset Fd) (b : Prop) (w : Account) : Prop :=
  (b ∧ Accounted hands w) ∨ (¬ b ∧ ∃ fd, w.Leaks fd)

section Parts
variable {schedule : ℕ → List Move} {dev : Option (ℕ × ℕ)} {parents : List FDRCRef}
  {w : Account} {b : Prop} {hands : Finset Fd} {fd : Fd} {path : String} {α : Type}
  {Q : α → Prop → Account → Prop}

theorem ends_kept (b : Prop) : Kept (Ends hands b) where
  update w ref r r' h hr hfd hpos := h.imp
    (And.imp_right fun ha => (accounted_kept hands).update w ref r r' ha hr hfd hpos)
    (And.imp_right fun ⟨fd, hl⟩ => ⟨fd, (leaks_kept fd).update w ref r r' hl hr hfd hpos⟩)
  drop w ref r h hr := h.imp
    (And.imp_right fun ha => (accounted_kept hands).drop w ref r ha hr)
    (And.imp_right fun ⟨fd, hl⟩ => ⟨fd, (leaks_kept fd).drop w ref r hl hr⟩)
  tick w n h := h.imp (And.imp_right fun ha => (accounted_kept hands).tick w n ha)
    (And.imp_right fun ⟨fd, hl⟩ => ⟨fd, hl⟩)

theorem Ends.iff (h : Ends ∅ b w) : w.Balanced ↔ b := by
  obtain ⟨hb, ha⟩ | ⟨hb, fd, hl⟩ := h
  · exact iff_of_true ha.balanced hb
  · exact iff_of_false hl.not_balanced hb

abbrev Accounts (schedule : ℕ → List Move) (dev : Option (ℕ × ℕ)) (parents : List FDRCRef)
    (Q : α → Prop → Account → Prop) (p : Prog Sys α) (b : Prop) (w : Account) : Prop :=
  p.Judged (Account.step schedule) (Account.ok parents) (Account.Succeeds dev) Q b w

/-- A call that cannot fail, and at most moves references. -/
theorem Accounts.keep {P : Account → Prop} (hP : Kept P) {c : Call}
    {next : c.Answer → Prog Sys α} (h : ∀ r, w.Succeeds dev ⟨c, r⟩ ∧ P (w.own ⟨c, r⟩) ∧
      ∀ w', P w' → Accounts schedule dev parents Q (next r) b w') :
    Accounts schedule dev parents Q (.call c next) b w :=
  Prog.Judged.pass fun r _ => ⟨(h r).1, (h r).2.2 _ (hP.step (h r).2.1)⟩

def Opened : Except ℤ SourceDir → Prop → Account → Prop
  | .error _, b, w => Ends ∅ b w
  | .ok dir, b, w => b ∧ dir.fd ≠ dir.newSrcFD ∧ Accounted {dir.newSrcFD, dir.fd} w

theorem dupSource_accounts {stx : Statx} {thisdev : ℕ × ℕ} (h : Accounted {fd} w) (hb : b) :
    Accounts schedule dev parents Opened (openSource.dupSource fd stx thisdev) b w := by
  intro (result : Except Errno Fd) hr
  cases result with
  | error e =>
    exact .inr ⟨fun hall => hall.2, fd, (leaks_kept fd).step (h.leaks (Finset.mem_singleton_self fd))⟩
  | ok newSrcFD =>
    refine ⟨⟨hb, trivial⟩, ?_, (accounted_kept _).step (h.obtained hr)⟩
    intro (hsame : fd = newSrcFD)
    exact hr ((h.fds_iff _).mpr (.inl (Finset.mem_singleton.mpr hsame.symm)))

theorem openSource_accounts {srcParent dstParent : FDRCRef} (hfds : w.fds = ∅)
    (h : Accounted ∅ w) (hb : b) :
    Accounts schedule dev parents Opened (openSource path dev srcParent dstParent) b w := by
  intro (result : Except Errno Fd) hr
  cases result with
  | error e => exact .inl ⟨⟨hb, hfds⟩, (accounted_kept ∅).step h.bounced⟩
  | ok fd =>
    have hopen : Accounted {fd} (w.step schedule ⟨.openat srcParent (baseName path)
        [.rdonly, .directory, .noatime] 0, .ok fd⟩) := (accounted_kept {fd}).step (h.obtained hr)
    have hfd := Finset.mem_singleton_self fd
    have hleaks : ∀ {w' : Account} {e : Sys.Event}, Accounted {fd} w' → w'.own e = w' →
        ∃ fd, (w'.step schedule e).Leaks fd := fun ha he =>
      ⟨fd, (leaks_kept fd).step (he.symm ▸ ha.leaks hfd)⟩
    intro (result : Except Errno Statx) _
    cases result with
    | error e => exact .inr ⟨fun hall => hall.2, hleaks hopen rfl⟩
    | ok stx =>
      change Accounts _ _ _ _ (ite _ _ _) _ _
      by_cases hdev : dev.getD (stx.stx_dev_major, stx.stx_dev_minor) =
          (stx.stx_dev_major, stx.stx_dev_minor)
      · rw [if_neg (not_not.mpr hdev)]
        have hstat := (accounted_kept {fd}).step (m := schedule)
          (e := ⟨.statx srcParent (baseName path), .ok stx⟩) hopen
        split
        · exact dupSource_accounts hstat ⟨⟨hb, trivial⟩, hdev⟩
        · intro (result : Except Errno Unit) _
          have hmade := (accounted_kept {fd}).step (m := schedule)
            (e := ⟨.mkdirat dstParent (baseName path) stx.stx_mode, result⟩) hstat
          cases result with
          | ok u => exact dupSource_accounts hmade ⟨⟨⟨hb, trivial⟩, hdev⟩, trivial⟩
          | error e =>
            change Accounts _ _ _ _ (ite _ _ _) _ _
            by_cases he : e = eexist
            · rw [if_neg (not_not.mpr he)]
              exact dupSource_accounts hmade ⟨⟨⟨hb, trivial⟩, hdev⟩, he⟩
            · rw [if_pos he]
              exact .inr ⟨fun hall => he hall.2, hleaks hstat rfl⟩
      · rw [if_pos hdev]
        exact .inr ⟨fun hall => hdev hall.2, hleaks hopen rfl⟩

/-- The probes of `--sync`, and the removals, open nothing here. -/
theorem collectExtra_accounts {newSrcFD : Fd} (entries : List Dirent) (toRemove : List String)
    {U : List String → Prop → Account → Prop} {P : Account → Prop} (hP : Kept P) (h : P w)
    (hend : ∀ l w, P w → U l b w) :
    Accounts schedule dev parents U (collectExtra newSrcFD path entries toRemove) b w := by
  induction entries generalizing w toRemove with
  | nil => exact hend _ _ h
  | cons d ds ih =>
    refine Accounts.keep hP fun result => ⟨trivial, h, fun w' h' => ?_⟩
    cases result with
    | error e => exact ih _ h'
    | ok u => exact ih _ h'

theorem removeExtra_accounts (paths : List String) {U : Unit → Prop → Account → Prop}
    {P : Account → Prop} (hP : Kept P) (h : P w) (hend : ∀ w, P w → U () b w) :
    Accounts schedule dev parents U (removeExtra paths) b w := by
  induction paths generalizing w with
  | nil => exact hend _ h
  | cons path paths ih => exact Accounts.keep hP fun _ => ⟨trivial, h, fun w' h' => ih h'⟩

/-- A directory that cannot be read leaves its descriptor, and what was open before. -/
theorem pruneDst_accounts {newSrcFD : Fd} {dstParent : FDRCRef} (hfd : fd ∈ hands)
    (h : Accounted hands w) (hb : b) :
    Accounts schedule dev parents (fun pruned b w =>
        if pruned = true then b ∧ Accounted hands w else ¬ b ∧ ∃ fd, w.Leaks fd)
      (pruneDst path newSrcFD dstParent) b w := by
  intro (result : Except Errno Fd) hr
  cases result with
  | error e =>
    refine ⟨fun hall => ?_, fd, (leaks_kept fd).step (h.leaks hfd)⟩
    have hempty : w.fds = ∅ := hall.2
    exact Finset.notMem_empty fd (hempty ▸ (h.leaks hfd).1)
  | ok dstFdDup =>
    have hopen := (accounted_kept _).step (m := schedule) (e := ⟨.openat dstParent
      (baseName path) [.directory, .noatime] 0, .ok dstFdDup⟩) (h.obtained hr)
    intro (result : Except Errno Unit) _
    cases result with
    | error e =>
      exact ⟨fun hall => hall.2, fd,
        (leaks_kept fd).step (hopen.leaks (Finset.mem_insert_of_mem hfd))⟩
    | ok u =>
      have hb' : ((b ∧ True) ∧ True) = b := by simp
      change Accounts _ _ _ _ _ ((b ∧ True) ∧ True) _
      rw [hb']
      refine Accounts.keep (accounted_kept (insert dstFdDup hands)) fun entries =>
        ⟨trivial, (accounted_kept _).step hopen, fun w' h' => ?_⟩
      refine (collectExtra_accounts (U := fun _ b w => b ∧ Accounted (insert dstFdDup hands) w)
        entries [] (accounted_kept _) h' fun _ _ h => ⟨hb, h⟩).bind ?_
      rintro toRemove b w' ⟨hb, h'⟩
      refine Prog.Judged.pass fun _ _ => ⟨trivial, ?_⟩
      have hclosed := (accounted_kept _).step (m := schedule) (e := ⟨.closedir dstFdDup, ()⟩)
        (h'.closed (Finset.mem_insert_self dstFdDup hands))
      rw [Finset.erase_insert fun hmem => hr ((h.fds_iff dstFdDup).mpr (.inl hmem))] at hclosed
      exact (removeExtra_accounts (U := fun _ b w => b ∧ Accounted hands w) toRemove
        (accounted_kept _) hclosed fun _ h => ⟨hb, h⟩).bind fun _ _ _ h => h

/-- The tasks get their references. -/
theorem startTasks_accounts {thisdev : ℕ × ℕ} {newSrcFDRef newDstFDRef : FDRCRef}
    (entries : List Dirent) {U : Unit → Prop → Account → Prop} {P : Account → Prop} (hP : Kept P)
    (h : P w) (hend : ∀ w, P w → U () b w) :
    Accounts schedule dev parents U (startTasks path thisdev newSrcFDRef newDstFDRef entries) b
      w := by
  induction entries generalizing w with
  | nil => exact hend _ h
  | cons d ds ih =>
    rw [startTasks]
    split
    · exact ih h
    · refine Prog.Judged.pass fun _ _ => ⟨trivial, ?_⟩
      refine Prog.Judged.pass fun _ _ => ⟨trivial, ?_⟩
      have hrefs := hP.incref (m := schedule) (hP.incref (m := schedule) h newDstFDRef)
        newSrcFDRef
      split
      · exact Accounts.keep hP fun _ =>
          ⟨trivial, hP.handOver (hP.handOver hrefs _) _, fun w' h' => ih h'⟩
      · exact Accounts.keep hP fun _ =>
          ⟨trivial, hP.handOver (hP.handOver hrefs _) _, fun w' h' => ih h'⟩

theorem readTasks_accounts {dir : SourceDir} {newSrcFDRef newDstFDRef : FDRCRef}
    (h : Accounted {dir.fd} w) (hb : b) :
    Accounts schedule dev parents (fun _ => Ends ∅)
      (crawlSource.readTasks path dir newSrcFDRef newDstFDRef) b w := by
  have hfd := Finset.mem_singleton_self dir.fd
  intro (result : Except Errno Unit) _
  cases result with
  | error e => exact .inr ⟨fun hall => hall.2, dir.fd, (leaks_kept _).step (h.leaks hfd)⟩
  | ok u =>
    change Accounts _ _ _ _ _ (b ∧ True) _
    rw [and_true]
    refine Accounts.keep (accounted_kept {dir.fd}) fun entries =>
      ⟨trivial, (accounted_kept _).step h, fun w' h' => ?_⟩
    refine (startTasks_accounts (U := fun _ b w => b ∧ Accounted {dir.fd} w) entries
      (accounted_kept _) h' fun _ h => ⟨hb, h⟩).bind ?_
    rintro _ b w' ⟨hb, h'⟩
    refine Prog.Judged.pass fun _ _ => ⟨trivial, .inl ⟨hb, ?_⟩⟩
    have hclosed := (accounted_kept _).step (m := schedule) (e := ⟨.closedir dir.fd, ()⟩)
      (h'.closed hfd)
    rwa [Finset.erase_singleton] at hclosed

theorem crawlSource_accounts {dir : SourceDir} {dstParent : FDRCRef}
    (hne : dir.fd ≠ dir.newSrcFD) (h : Accounted {dir.newSrcFD, dir.fd} w) (hb : b) :
    Accounts schedule dev parents (fun _ => Ends ∅) (crawlSource path dstParent dir) b w := by
  have hfd : dir.fd ∈ ({dir.newSrcFD, dir.fd} : Finset Fd) := by simp
  intro (result : Except Errno Fd) hr
  cases result with
  | error e =>
    refine .inr ⟨fun hall => ?_, dir.fd, (leaks_kept _).step (h.leaks hfd)⟩
    have hempty : w.fds = ∅ := hall.2
    exact Finset.notMem_empty _ (hempty ▸ (h.leaks hfd).1)
  | ok newDstFD =>
    change Accounts _ _ _ _ _ (b ∧ True) _
    rw [and_true]
    have hnew : ∀ fd ∈ ({dir.newSrcFD, dir.fd} : Finset Fd), fd ≠ newDstFD := by
      rintro fd hmem rfl
      exact hr ((h.fds_iff fd).mpr (.inl hmem))
    have hopen := (accounted_kept _).step (m := schedule) (e := ⟨.openat dstParent
      (baseName path) [.directory, .noatime] 0, .ok newDstFD⟩) (h.obtained hr)
    refine Prog.Judged.pass fun newSrcFDRef hsrc => ⟨trivial, ?_⟩
    have hsrcOwned := (accounted_kept _).step (m := schedule)
      (e := ⟨.newFDRC dir.newSrcFD path false {}, newSrcFDRef⟩)
      (hopen.own hsrc.1 (show dir.newSrcFD ∈ _ by simp) rfl (by simp))
    refine Prog.Judged.pass fun newDstFDRef hdst => ⟨trivial, ?_⟩
    have hdstOwned := (accounted_kept _).step (m := schedule)
      (e := ⟨.newFDRC newDstFD path true dir.stx, newDstFDRef⟩)
      (hsrcOwned.own hdst.1
        (show newDstFD ∈ _ by simp [hnew dir.newSrcFD (by simp), Ne.symm]) rfl (by simp))
    have hhands : ((insert newDstFD {dir.newSrcFD, dir.fd} : Finset Fd).erase
        dir.newSrcFD).erase newDstFD = {dir.fd} := by
      ext fd
      have hsrcNew := hnew dir.newSrcFD (by simp)
      have hfdNew := hnew dir.fd (by simp)
      simp only [Finset.mem_erase, Finset.mem_insert, Finset.mem_singleton]
      grind
    rw [hhands] at hdstOwned
    refine Accounts.keep (accounted_kept {dir.fd}) fun _ => ⟨trivial, hdstOwned, fun w' h' => ?_⟩
    refine Accounts.keep (accounted_kept {dir.fd}) fun _ => ⟨trivial, h', fun w' h' => ?_⟩
    refine (readTasks_accounts h' hb).bind fun ret b w' hend => ?_
    refine Prog.Judged.pass fun _ _ => ⟨trivial, ?_⟩
    refine Prog.Judged.pass fun _ _ => ⟨trivial, ?_⟩
    exact (ends_kept b).release ((ends_kept b).release hend _) _

theorem processDirBody_accounts {sync : Bool} {srcParent dstParent : FDRCRef} (hfds : w.fds = ∅)
    (h : Accounted ∅ w) (hb : b) :
    Accounts schedule dev parents (fun _ => Ends ∅)
      (processDirBody sync path dev srcParent dstParent) b w := by
  refine (openSource_accounts hfds h hb).bind fun result b w hopened => ?_
  cases result with
  | error ret => exact hopened
  | ok dir =>
    obtain ⟨hb, hne, h⟩ := hopened
    cases sync with
    | false => exact crawlSource_accounts hne h hb
    | true =>
      refine (pruneDst_accounts (Finset.mem_insert_self dir.newSrcFD {dir.fd}) h hb).bind
        fun pruned b w hpruned => ?_
      cases pruned with
      | true => exact crawlSource_accounts hne hpruned.2 hpruned.1
      | false => exact .inr hpruned

theorem processDir_accounts {sync : Bool} {srcParent dstParent : FDRCRef} (hfds : w.fds = ∅)
    (h : Accounted ∅ w) (hb : b) :
    Accounts schedule dev parents (fun _ b w => w.Balanced ↔ b)
      (processDir sync path dev srcParent dstParent) b w := by
  refine (processDirBody_accounts hfds h hb).bind fun ret b w hend => ?_
  refine Prog.Judged.pass fun _ _ => ⟨trivial, ?_⟩
  refine Prog.Judged.pass fun _ _ => ⟨trivial, ?_⟩
  refine Prog.Judged.pass fun _ _ => ⟨trivial, Ends.iff ?_⟩
  exact (ends_kept b).step ((ends_kept b).release ((ends_kept b).release hend _) _)

end Parts

/-- Whatever the calls answer, and however tasks and jobs take and drop references meanwhile:
when `processDir` returns, its descriptors are owned or closed, and the units of the semaphore
agree with those that are open, exactly if nothing failed, and the device was the expected
one, after the source directory had been opened. -/
theorem descriptors_balanced_iff (schedule : ℕ → List Move) (sync : Bool) (path : String)
    (dev : Option (ℕ × ℕ)) (srcParent dstParent : FDRCRef) :
    (processDir sync path dev srcParent dstParent).Every fun _ l =>
      Protocol.Consistent (Account.step schedule) (Account.ok [srcParent, dstParent]) {} l →
        ((l.foldl (Account.step schedule) {}).Balanced ↔
          Protocol.Consistent (Account.step schedule) (Account.Succeeds dev) {} l) := by
  refine (processDir_accounts rfl ⟨fun fd => ?_, fun _ _ hr => ?_, fun _ _ _ _ hr => ?_,
    fun _ _ hr => ?_, rfl⟩ trivial).every
  · simp
  all_goals cases hr

def working : Sys.Environment := fun past c =>
  match c with
  | .openat .. | .dup _ => .ok (past.length : Fd)
  | .newFDRC .. => (10 + past.length : ℕ)
  | .readdir _ => [⟨"f", false⟩]
  | c => c.succeed {}

def workingRun : ℤ × List Sys.Event := (processDir false "d" none 1 2).run working []

/-- The task for the file is over before `processDir` gives its own references back. -/
def quickTask (now : ℕ) : List Move := if now = 14 then [.release 15, .release 16] else []

theorem working_ok :
    Protocol.Consistent (Account.step quickTask) (Account.ok [1, 2]) {} workingRun.2 := by
  have hdup : (3 : Fd) ∉ ({0} : Finset Fd) := by decide
  have hopen : (4 : Fd) ∉ ({3, 0} : Finset Fd) := by decide
  have hsrc : 15 ∉ [1, 2] := by decide
  have hdst : 16 ∉ [1, 2] := by decide
  refine ⟨Finset.notMem_empty _, trivial, trivial, hdup, hopen, ⟨rfl, hsrc⟩, ⟨rfl, hdst⟩, ?_⟩
  repeat constructor

/-- The destination stays open, for the finish job; everything else is closed. -/
theorem descriptors_balanced_sample :
    (workingRun.2.foldl (Account.step quickTask) {}).fds = {4} ∧
      (workingRun.2.foldl (Account.step quickTask) {}).Balanced := by
  refine ⟨by decide, ?_⟩
  refine ((descriptors_balanced_iff quickTask false "d" none 1 2).run_nil working_ok).mpr ?_
  refine ⟨trivial, rfl, ?_⟩
  repeat constructor

/-- The source directory can be opened, but `statx` fails. -/
def unreadable : (c : Call) → c.Answer
  | .statx .. => .error 5
  | c => c.succeed {}

def unreadableRun : ℤ × List Sys.Event :=
  (processDir false "d" none 1 2).run (fun _ => unreadable) []

/-- Its descriptor stays open, and nobody has it. -/
theorem descriptor_leaks :
    Protocol.Consistent (Account.step fun _ => []) (Account.ok [1, 2]) {} unreadableRun.2 ∧
      ¬ (unreadableRun.2.foldl (Account.step fun _ => []) {}).Balanced := by
  refine ⟨⟨Finset.notMem_empty 5, trivial, trivial, trivial, trivial, trivial⟩, fun h => ?_⟩
  obtain ⟨ref, r, hr, -⟩ := h.1 5 (by decide)
  cases hr

end Copy2.Crawl.Descriptors
