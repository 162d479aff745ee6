import Mathlib.Tactic

/-! # The semaphore of the queue

`LightweightSemaphore` counts in an atomic variable and goes to the kernel only to sleep and to
wake others up. Each place of its functions lies in front of one atomic operation. -/
namespace Copy2.Queue

/-- A place in `tryWait`, or in `waitWithPartialSpinning`. -/
inductive Waiting
  | tryLoad
  | tryCas (oldCount : ℤ)
  | spinLoad (spin : ℕ)
  | spinCas (spin : ℕ) (oldCount : ℤ)
  | fetchSub
  | sleep
  | readjust
  | tryTake
  | giveBack (oldCount : ℤ)
deriving DecidableEq, Repr

inductive Reached
  | place (w : Waiting)
  | acquired
  | refused
deriving DecidableEq, Repr

structure Semaphore where
  count : ℤ
  sema : ℕ
deriving DecidableEq, Repr

namespace Semaphore
variable (s : Semaphore)

/-- The loop of `tryWait`, on a value of the count. When it ends, `tryWait` itself refuses, and
`wait` goes on. -/
def tryLoop (maxSpins : ℕ) (timeout : Option ℤ) (oldCount : ℤ) : Reached :=
  if 0 < oldCount then .place (.tryCas oldCount)
  else if timeout = none then .refused
  else .place (.spinLoad maxSpins)

/-- One atomic operation of `tryWait` (no timeout) or of `wait` (a timeout, in microseconds). When
it is not `ok`, a weak exchange fails for no reason, or a timed wait times out. -/
def wait (maxSpins : ℕ) (timeout : Option ℤ) (ok : Bool) : Waiting → Option (Reached × Semaphore)
  | .tryLoad => some (tryLoop maxSpins timeout s.count, s)
  | .tryCas oldCount =>
    if ok = true ∧ s.count = oldCount then some (.acquired, { s with count := oldCount - 1 })
    else some (tryLoop maxSpins timeout s.count, s)
  | .spinLoad 0 => some (.place .fetchSub, s)
  | .spinLoad (spin + 1) =>
    if 0 < s.count then some (.place (.spinCas spin s.count), s)
    else some (.place (.spinLoad spin), s)
  | .spinCas spin oldCount =>
    if s.count = oldCount then some (.acquired, { s with count := oldCount - 1 })
    else some (.place (.spinLoad spin), s)
  | .fetchSub =>
    if 0 < s.count then some (.acquired, { s with count := s.count - 1 })
    else if timeout = some 0 then some (.place .readjust, { s with count := s.count - 1 })
    else some (.place .sleep, { s with count := s.count - 1 })
  | .sleep =>
    if ok then
      if 0 < s.sema then some (.acquired, { s with sema := s.sema - 1 }) else none
    else if ∃ t ∈ timeout, 0 < t then some (.place .readjust, s)
    else none
  | .readjust =>
    if 0 ≤ s.count then some (.place .tryTake, s) else some (.place (.giveBack s.count), s)
  | .tryTake =>
    if 0 < s.sema then some (.acquired, { s with sema := s.sema - 1 })
    else some (.place .readjust, s)
  | .giveBack oldCount =>
    if s.count = oldCount then some (.refused, { s with count := oldCount + 1 })
    else some (.place .readjust, s)

/-- The atomic addition of `signal`, and how many threads it is to wake up. -/
def signal (count : ℤ) : ℤ × Semaphore :=
  (if -s.count < count then -s.count else count, { s with count := s.count + count })

end Semaphore

/-- The thread has lowered the count, and waits for somebody to raise it. -/
def Waiting.lowered : Waiting → ℤ
  | .sleep | .readjust | .tryTake | .giveBack _ => 1
  | _ => 0

def Reached.lowered : Reached → ℤ
  | .place w => w.lowered
  | _ => 0

def Reached.permit : Reached → ℤ
  | .acquired => 1
  | _ => 0

def Semaphore.debt (s : Semaphore) : ℤ := max (-s.count) 0

variable {s s' : Semaphore} {maxSpins : ℕ} {timeout : Option ℤ} {ok : Bool} {w : Waiting}
variable {r : Reached} {oldCount count : ℤ}

theorem Waiting.lowered_nonneg (w : Waiting) : 0 ≤ w.lowered := by
  cases w <;> simp [Waiting.lowered]

@[simp] theorem tryLoop_lowered : (Semaphore.tryLoop maxSpins timeout oldCount).lowered = 0 := by
  rw [Semaphore.tryLoop]
  split
  · rfl
  · split <;> rfl

@[simp] theorem tryLoop_permit : (Semaphore.tryLoop maxSpins timeout oldCount).permit = 0 := by
  rw [Semaphore.tryLoop]
  split
  · rfl
  · split <;> rfl

/-- A place is only reached with a positive value of the count. -/
def Waiting.Fresh : Waiting → Prop
  | .tryCas oldCount | .spinCas _ oldCount => 0 < oldCount
  | .giveBack oldCount => oldCount < 0
  | _ => True

def Reached.Fresh : Reached → Prop
  | .place w => w.Fresh
  | _ => True

theorem tryLoop_fresh : (Semaphore.tryLoop maxSpins timeout oldCount).Fresh := by
  rw [Semaphore.tryLoop]
  split
  · assumption
  · split <;> trivial

/-- What one operation of a waiting thread does: it takes what it lacks from the kernel or from
the count, and gets a permit for what it takes away. -/
structure Semaphore.WaitStep (s s' : Semaphore) (w : Waiting) (r : Reached) : Prop where
  debt : r.lowered - w.lowered = (s'.sema - s.sema) + (s'.debt - s.debt)
  permit : r.permit + r.lowered - w.lowered = s.count - s'.count
  fresh : r.Fresh

namespace Semaphore.WaitStep

theorem stay (hlowered : r.lowered = w.lowered) (hpermit : r.permit = 0) (hfresh : r.Fresh) :
    s.WaitStep s w r :=
  ⟨by omega, by omega, hfresh⟩

/-- A permit is taken from the count. -/
theorem of_count (hpos : 0 < s.count) (hw : w.lowered = 0) :
    s.WaitStep { s with count := s.count - 1 } w .acquired := by
  refine ⟨?_, ?_, trivial⟩
  · simp only [Reached.lowered, hw, Semaphore.debt]
    omega
  · simp only [Reached.permit, Reached.lowered, hw]
    omega

/-- A permit is taken from the kernel. -/
theorem of_sema (hpos : 0 < s.sema) (hw : w.lowered = 1) :
    s.WaitStep { s with sema := s.sema - 1 } w .acquired := by
  refine ⟨?_, ?_, trivial⟩
  · simp only [Reached.lowered, hw, Semaphore.debt]
    omega
  · simp only [Reached.permit, Reached.lowered, hw]
    omega

/-- The count is lowered for a permit to come. -/
theorem lower {w' : Waiting} (hcount : s.count ≤ 0) (hw : w.lowered = 0) (hw' : w'.lowered = 1)
    (hfresh : w'.Fresh) : s.WaitStep { s with count := s.count - 1 } w (.place w') := by
  refine ⟨?_, ?_, hfresh⟩
  · simp only [Reached.lowered, hw, hw', Semaphore.debt]
    omega
  · simp only [Reached.permit, Reached.lowered, hw, hw']
    omega

/-- The count is raised again. -/
theorem giveBack (hcount : s.count < 0) (hw : w.lowered = 1) :
    s.WaitStep { s with count := s.count + 1 } w .refused := by
  refine ⟨?_, ?_, trivial⟩
  · simp only [Reached.lowered, hw, Semaphore.debt]
    omega
  · simp only [Reached.permit, Reached.lowered, hw]
    omega

end Semaphore.WaitStep

theorem Semaphore.wait_step (hw : w.Fresh)
    (h : s.wait maxSpins timeout ok w = some (r, s')) : s.WaitStep s' w r := by
  cases w with
  | tryLoad =>
    obtain ⟨rfl, rfl⟩ := Prod.mk.inj (Option.some.inj h)
    exact .stay tryLoop_lowered tryLoop_permit tryLoop_fresh
  | tryCas oldCount =>
    rw [Semaphore.wait] at h
    split at h
    · next heq =>
      obtain ⟨rfl, rfl⟩ := Prod.mk.inj (Option.some.inj h)
      obtain ⟨-, rfl⟩ := heq
      exact .of_count hw rfl
    · obtain ⟨rfl, rfl⟩ := Prod.mk.inj (Option.some.inj h)
      exact .stay tryLoop_lowered tryLoop_permit tryLoop_fresh
  | spinLoad spin =>
    cases spin with
    | zero =>
      obtain ⟨rfl, rfl⟩ := Prod.mk.inj (Option.some.inj h)
      exact .stay rfl rfl trivial
    | succ spin =>
      rw [Semaphore.wait] at h
      split at h
      · next hpos =>
        obtain ⟨rfl, rfl⟩ := Prod.mk.inj (Option.some.inj h)
        exact .stay rfl rfl hpos
      · obtain ⟨rfl, rfl⟩ := Prod.mk.inj (Option.some.inj h)
        exact .stay rfl rfl trivial
  | spinCas spin oldCount =>
    rw [Semaphore.wait] at h
    split at h
    · next heq =>
      obtain ⟨rfl, rfl⟩ := Prod.mk.inj (Option.some.inj h)
      subst heq
      exact .of_count hw rfl
    · obtain ⟨rfl, rfl⟩ := Prod.mk.inj (Option.some.inj h)
      exact .stay rfl rfl trivial
  | fetchSub =>
    rw [Semaphore.wait] at h
    split at h
    · next hpos =>
      obtain ⟨rfl, rfl⟩ := Prod.mk.inj (Option.some.inj h)
      exact .of_count hpos rfl
    · next hcount =>
      split at h
      · obtain ⟨rfl, rfl⟩ := Prod.mk.inj (Option.some.inj h)
        exact .lower (not_lt.mp hcount) rfl rfl trivial
      · obtain ⟨rfl, rfl⟩ := Prod.mk.inj (Option.some.inj h)
        exact .lower (not_lt.mp hcount) rfl rfl trivial
  | sleep =>
    rw [Semaphore.wait] at h
    split at h
    · obtain ⟨hpos, h⟩ := Option.ite_none_right_eq_some.mp h
      obtain ⟨rfl, rfl⟩ := Prod.mk.inj (Option.some.inj h)
      exact .of_sema hpos rfl
    · obtain ⟨-, h⟩ := Option.ite_none_right_eq_some.mp h
      obtain ⟨rfl, rfl⟩ := Prod.mk.inj (Option.some.inj h)
      exact .stay rfl rfl trivial
  | readjust =>
    rw [Semaphore.wait] at h
    split at h
    · obtain ⟨rfl, rfl⟩ := Prod.mk.inj (Option.some.inj h)
      exact .stay rfl rfl trivial
    · next hneg =>
      obtain ⟨rfl, rfl⟩ := Prod.mk.inj (Option.some.inj h)
      exact .stay rfl rfl (not_le.mp hneg)
  | tryTake =>
    rw [Semaphore.wait] at h
    split at h
    · next hpos =>
      obtain ⟨rfl, rfl⟩ := Prod.mk.inj (Option.some.inj h)
      exact .of_sema hpos rfl
    · obtain ⟨rfl, rfl⟩ := Prod.mk.inj (Option.some.inj h)
      exact .stay rfl rfl trivial
  | giveBack oldCount =>
    rw [Semaphore.wait] at h
    split at h
    · next heq =>
      obtain ⟨rfl, rfl⟩ := Prod.mk.inj (Option.some.inj h)
      subst heq
      exact .giveBack hw rfl
    · obtain ⟨rfl, rfl⟩ := Prod.mk.inj (Option.some.inj h)
      exact .stay rfl rfl trivial

theorem tryLoop_refused (h : Semaphore.tryLoop maxSpins timeout oldCount = .refused) :
    oldCount ≤ 0 := by
  by_contra hpos
  rw [Semaphore.tryLoop, if_pos (not_le.mp hpos)] at h
  cases h

/-- A thread only gives up when no permit is left. -/
theorem Semaphore.wait_refused (hw : w.Fresh)
    (h : s.wait maxSpins timeout ok w = some (.refused, s')) : s'.count ≤ 0 := by
  rw [Semaphore.wait.eq_def] at h
  split at h
  · obtain ⟨hr, rfl⟩ := Prod.mk.inj (Option.some.inj h)
    exact tryLoop_refused hr
  · split at h
    · cases h
    · obtain ⟨hr, rfl⟩ := Prod.mk.inj (Option.some.inj h)
      exact tryLoop_refused hr
  · cases h
  · split at h <;> cases h
  · split at h <;> cases h
  · split at h
    · cases h
    · split at h <;> cases h
  · split at h
    · obtain ⟨-, h⟩ := Option.ite_none_right_eq_some.mp h
      cases h
    · obtain ⟨-, h⟩ := Option.ite_none_right_eq_some.mp h
      cases h
  · split at h <;> cases h
  · split at h <;> cases h
  · next oldCount =>
    have hneg : oldCount < 0 := hw
    split at h
    · obtain ⟨-, rfl⟩ := Prod.mk.inj (Option.some.inj h)
      exact hneg
    · cases h

/-- A signal wakes up as many threads as it takes off the debt. -/
theorem Semaphore.signal_step (hcount : 0 < count) (h : s.signal count = (oldCount, s')) :
    s'.count = s.count + count ∧ s'.sema = s.sema ∧ max oldCount 0 = s.debt - s'.debt := by
  obtain ⟨rfl, rfl⟩ := Prod.mk.inj h
  refine ⟨rfl, rfl, ?_⟩
  simp only [Semaphore.debt]
  split <;> omega

end Copy2.Queue
