import Copy2.Lib.Census
import Copy2.Lib.TransitionSystem
import Copy2.Queue.Semaphore

/-! # The bounded queue

`Queue` lets the threads hand jobs to each other. A kernel semaphore of its own counts the places
that are left, and the semaphore of the blocking queue counts the items. Every place of a thread
lies in front of one atomic operation, and the threads move in any order.

The queue inside gives each producer a line of its own, and a call to take an item out of it may
fail for no reason. -/
namespace Copy2.Queue
open Copy2.Lib

variable {T α : Type*}

inductive Place (α : Type*)
  | idle
  | enqueueWait (item : α)
  | insert (item : α)
  | signalAdd
  | signalPost (left : ℕ)
  | acquire (timeout : Option ℤ) (w : Waiting)
  | take
  | release (item : α)
deriving DecidableEq, Repr

/-- Where the semaphore of the blocking queue lets the thread go. -/
def Place.of (timeout : Option ℤ) : Reached → Place α
  | .place w => .acquire timeout w
  | .acquired => .take
  | .refused => .idle

structure State (T α : Type*) where
  enqueueSem : ℕ
  sem : Semaphore
  inner : T → List α
  place : T → Place α

/-- A call, or the next operation. When it is not `ok`, the queue inside has no memory for the
item, or the semaphore does not do what is waited for. -/
inductive Act (T α : Type*)
  | enqueue (item : α)
  | dequeue (timeout : Option ℤ)
  | go (ok : Bool)
  | takeFrom (producer : T)
deriving DecidableEq, Repr

namespace State

def init (capacity : ℕ) : State T α where
  enqueueSem := capacity
  sem := ⟨0, 0⟩
  inner _ := []
  place _ := .idle

variable [DecidableEq T]

def move (s : State T α) (t : T) (c : Place α) : State T α :=
  { s with place := Function.update s.place t c }

section Move
variable {s : State T α} {t : T} {c : Place α}

@[simp] theorem move_place : (s.move t c).place = Function.update s.place t c := rfl

@[simp] theorem move_sem : (s.move t c).sem = s.sem := rfl

@[simp] theorem move_enqueueSem : (s.move t c).enqueueSem = s.enqueueSem := rfl

@[simp] theorem move_inner : (s.move t c).inner = s.inner := rfl

end Move

def step (maxSpins : ℕ) (s : State T α) (t : T) (a : Act T α) : Option (State T α) :=
  match s.place t, a with
  | .idle, .enqueue item => some (s.move t (.enqueueWait item))
  | .idle, .dequeue timeout => some (s.move t (.acquire timeout .tryLoad))
  | .enqueueWait item, .go _ =>
    if 0 < s.enqueueSem then
      some { s.move t (.insert item) with enqueueSem := s.enqueueSem - 1 }
    else none
  | .insert item, .go true =>
    some { s.move t .signalAdd with inner := Function.update s.inner t (s.inner t ++ [item]) }
  | .insert _, .go false => some (s.move t .idle)
  | .signalAdd, .go _ =>
    some { s.move t (.signalPost (s.sem.signal 1).1.toNat) with sem := (s.sem.signal 1).2 }
  | .signalPost 0, .go _ => some (s.move t .idle)
  | .signalPost (left + 1), .go _ =>
    some { s.move t (.signalPost left) with sem := { s.sem with sema := s.sem.sema + 1 } }
  | .acquire timeout w, .go ok =>
    (s.sem.wait maxSpins timeout ok w).map fun r =>
      { s.move t (.of timeout r.1) with sem := r.2 }
  | .take, .takeFrom producer =>
    match s.inner producer with
    | item :: rest =>
      some { s.move t (.release item) with inner := Function.update s.inner producer rest }
    | [] => none
  -- The loop around the call of the queue inside goes on.
  | .take, .go _ => some s
  | .release _, .go _ => some { s.move t .idle with enqueueSem := s.enqueueSem + 1 }
  | _, _ => none

end State

def threads (T α : Type*) [DecidableEq T] (capacity maxSpins : ℕ) :
    TransitionSystem (State T α) (T × Act T α) where
  init s := s = .init capacity
  next s a := s.step maxSpins a.1 a.2

def Stored (s : State T α) (a : T × Act T α) : Prop :=
  ∀ item, s.place a.1 = .insert item → a.2 ≠ .go false

namespace Place

@[simp] def lowered : Place α → ℤ
  | .acquire _ w => w.lowered
  | _ => 0

@[simp] def posted : Place α → ℤ
  | .signalPost left => left
  | _ => 0

/-- The thread has inserted an item that is not counted. -/
@[simp] def added : Place α → ℤ
  | .signalAdd => 1
  | _ => 0

/-- The thread may take an item. -/
@[simp] def taking : Place α → ℤ
  | .take => 1
  | _ => 0

/-- The thread has a place for its item. -/
@[simp] def inserting : Place α → ℤ
  | .insert _ => 1
  | _ => 0

/-- The thread has taken an item, and its place is not free. -/
@[simp] def releasing : Place α → ℤ
  | .release _ => 1
  | _ => 0

end Place

def State.items [Fintype T] (s : State T α) : ℤ := census (fun l => (l.length : ℤ)) s.inner

/-- The values of the count that a thread has seen are such that it goes where it is. -/
def Place.Fresh : Place α → Prop
  | .acquire _ w => w.Fresh
  | _ => True

variable [Fintype T]

/-- What the threads hold is what the semaphores and the lines lack. -/
structure Balanced (capacity : ℕ) (s : State T α) : Prop where
  slept : census Place.lowered s.place =
    s.sem.sema + census Place.posted s.place + s.sem.debt
  counted : s.items = census Place.added s.place + census Place.taking s.place + s.sem.count +
    census Place.lowered s.place
  room : s.enqueueSem + census Place.inserting s.place + s.items +
    census Place.releasing s.place ≤ capacity
  fresh : ∀ t, (s.place t).Fresh

/-- Every place that is not free has an item, or a thread that is about to fill or to free it. -/
def Full (capacity : ℕ) (s : State T α) : Prop :=
  s.enqueueSem + census Place.inserting s.place + s.items +
    census Place.releasing s.place = capacity

variable {s s' : State T α} {t : T} {a : Act T α} {c : Place α} {capacity maxSpins : ℕ}

theorem full_init : Full capacity (.init capacity : State T α) := by
  simp [Full, State.items, State.init, census]

theorem balanced_init : Balanced capacity (.init capacity : State T α) where
  slept := by simp [State.init, census, Semaphore.debt]
  counted := by simp [State.init, State.items, census]
  room := full_init.le
  fresh _ := trivial

/-- What one operation moves between the semaphores, the lines and the hands of a thread. -/
structure Shift (s s' : State T α) (c c' : Place α) : Prop where
  slept : c'.lowered - c.lowered = (s'.sem.sema - s.sem.sema) + (c'.posted - c.posted) +
    (s'.sem.debt - s.sem.debt)
  counted : s'.items - s.items = (c'.added - c.added) + (c'.taking - c.taking) +
    (s'.sem.count - s.sem.count) + (c'.lowered - c.lowered)
  room : (s'.enqueueSem - s.enqueueSem) + (c'.inserting - c.inserting) + (s'.items - s.items) +
    (c'.releasing - c.releasing) ≤ 0
  fresh : c'.Fresh

/-- No place gets lost. -/
def Shift.Full (s s' : State T α) (c c' : Place α) : Prop :=
  (s'.enqueueSem - s.enqueueSem : ℤ) + (c'.inserting - c.inserting) + (s'.items - s.items) +
    (c'.releasing - c.releasing) = 0

variable [DecidableEq T]

@[simp] theorem items_move : (s.move t c).items = s.items := rfl

section Of
variable {timeout : Option ℤ} {r : Reached}

theorem of_lowered : (Place.of timeout r : Place α).lowered = r.lowered := by
  cases r <;> rfl

theorem of_posted : (Place.of timeout r : Place α).posted = 0 := by
  cases r <;> rfl

theorem of_added : (Place.of timeout r : Place α).added = 0 := by
  cases r <;> rfl

theorem of_taking : (Place.of timeout r : Place α).taking = r.permit := by
  cases r <;> rfl

theorem of_inserting : (Place.of timeout r : Place α).inserting = 0 := by
  cases r <;> rfl

theorem of_releasing : (Place.of timeout r : Place α).releasing = 0 := by
  cases r <;> rfl

theorem of_fresh (h : r.Fresh) : (Place.of timeout r : Place α).Fresh := by
  cases r with
  | place w => exact h
  | acquired => trivial
  | refused => trivial

end Of

theorem Shift.of_wait {timeout : Option ℤ} {w : Waiting} {r : Reached} {sem : Semaphore}
    (hw : s.sem.WaitStep sem w r) :
    Shift s { s.move t (.of timeout r) with sem := sem } (.acquire timeout w) (.of timeout r) := by
  obtain ⟨hdebt, hpermit, hfresh⟩ := hw
  refine ⟨?_, ?_, ?_, of_fresh hfresh⟩
  · rw [of_lowered, of_posted]
    simp only [Place.lowered, Place.posted]
    omega
  · rw [of_lowered, of_added, of_taking]
    simp only [Place.lowered, Place.added, Place.taking, State.items, State.move_inner]
    omega
  · rw [of_inserting, of_releasing]
    simp [State.items]

/-- An operation leads to one place, and moves what it gives for it. -/
theorem step_shift (hfresh : (s.place t).Fresh) (h : s.step maxSpins t a = some s') :
    ∃ c, s'.place = Function.update s.place t c ∧ Shift s s' (s.place t) c ∧
      (Stored s (t, a) → Shift.Full s s' (s.place t) c) := by
  rw [State.step.eq_def] at h
  split at h
  · next item hc =>
    obtain rfl := Option.some.inj h
    rw [hc]
    exact ⟨_, rfl, ⟨by simp, by simp, by simp, trivial⟩, fun _ => by simp [Shift.Full]⟩
  · next timeout hc =>
    obtain rfl := Option.some.inj h
    rw [hc]
    exact ⟨_, rfl, ⟨by simp [Waiting.lowered], by simp [Waiting.lowered], by simp, trivial⟩,
      fun _ => by simp [Shift.Full]⟩
  · next item ok hc =>
    obtain ⟨hpos, h⟩ := Option.ite_none_right_eq_some.mp h
    obtain rfl := Option.some.inj h
    rw [hc]
    refine ⟨_, rfl, ⟨by simp, by simp [State.items], ?_, trivial⟩, fun _ => ?_⟩
    · simp [State.items]
      omega
    · simp [Shift.Full, State.items]
      omega
  · next item hc =>
    obtain rfl := Option.some.inj h
    rw [hc]
    exact ⟨_, rfl, ⟨by simp, by simp [State.items, census_update],
      by simp [State.items, census_update], trivial⟩,
      fun _ => by simp [Shift.Full, State.items, census_update]⟩
  · next item hc =>
    obtain rfl := Option.some.inj h
    rw [hc]
    exact ⟨_, rfl, ⟨by simp, by simp, by simp, trivial⟩, fun hst => absurd rfl (hst item hc)⟩
  · next ok hc =>
    obtain rfl := Option.some.inj h
    obtain ⟨hcount, hsema, hdebt⟩ := s.sem.signal_step one_pos
      (Prod.mk.eta (p := s.sem.signal 1)).symm
    rw [hc]
    refine ⟨_, rfl, ⟨?_, ?_, by simp [State.items], trivial⟩,
      fun _ => by simp [Shift.Full, State.items]⟩
    · simp [hsema]
      omega
    · simp [State.items, hcount]
  · next ok hc =>
    obtain rfl := Option.some.inj h
    rw [hc]
    exact ⟨_, rfl, ⟨by simp, by simp, by simp, trivial⟩, fun _ => by simp [Shift.Full]⟩
  · next left ok hc =>
    obtain rfl := Option.some.inj h
    rw [hc]
    exact ⟨_, rfl,
      ⟨by simp [Semaphore.debt], by simp [State.items], by simp [State.items], trivial⟩,
      fun _ => by simp [Shift.Full, State.items]⟩
  · next timeout w ok hc =>
    obtain ⟨⟨r, sem⟩, hwait, rfl⟩ := Option.map_eq_some_iff.mp h
    rw [hc] at hfresh ⊢
    refine ⟨_, rfl, .of_wait (s.sem.wait_step hfresh hwait), fun _ => ?_⟩
    rw [Shift.Full, of_inserting, of_releasing]
    simp [State.items]
  · next producer hc =>
    split at h
    · next item rest hline =>
      obtain rfl := Option.some.inj h
      rw [hc]
      exact ⟨_, rfl, ⟨by simp, by simp [State.items, census_update, hline],
        by simp [State.items, census_update, hline], trivial⟩,
        fun _ => by simp [Shift.Full, State.items, census_update, hline]⟩
    · cases h
  · next ok hc =>
    obtain rfl := Option.some.inj h
    exact ⟨_, (Function.update_eq_self t s.place).symm, ⟨by simp, by simp, by simp, hfresh⟩,
      fun _ => by simp [Shift.Full]⟩
  · next item ok hc =>
    obtain rfl := Option.some.inj h
    rw [hc]
    exact ⟨_, rfl, ⟨by simp, by simp [State.items], by simp [State.items], trivial⟩,
      fun _ => by simp [Shift.Full, State.items]⟩
  · cases h

theorem Balanced.step (hb : Balanced capacity s) (h : s.step maxSpins t a = some s') :
    Balanced capacity s' := by
  obtain ⟨c, hplace, hs, -⟩ := step_shift (hb.fresh t) h
  refine ⟨?_, ?_, ?_, fun u => ?_⟩
  · have hslept := hb.slept
    have hmoved := hs.slept
    rw [hplace, census_update, census_update]
    omega
  · have hcounted := hb.counted
    have hmoved := hs.counted
    rw [hplace, census_update, census_update, census_update]
    omega
  · have hroom := hb.room
    have hmoved := hs.room
    rw [hplace, census_update, census_update]
    omega
  · rw [hplace, Function.update_apply]
    split
    · exact hs.fresh
    · exact hb.fresh u

theorem Full.step (hf : Full capacity s) (hfresh : (s.place t).Fresh) (hst : Stored s (t, a))
    (h : s.step maxSpins t a = some s') : Full capacity s' := by
  obtain ⟨c, hplace, -, hfull⟩ := step_shift hfresh h
  have hmoved := hfull hst
  rw [Full] at hf ⊢
  rw [Shift.Full] at hmoved
  rw [hplace, census_update, census_update]
  omega

theorem balanced_of_reach {C : State T α → T × Act T α → Prop}
    (h : (threads T α capacity maxSpins).Reach C s) : Balanced capacity s := by
  refine h.invariant ?_ ?_
  · rintro s rfl
    exact balanced_init
  · intro s a s' hb _ hn
    exact hb.step hn

theorem full_of_reach (h : (threads T α capacity maxSpins).Reach Stored s) : Full capacity s := by
  refine h.invariant_with (J := Balanced capacity) (fun _ => balanced_of_reach) ?_ ?_
  · rintro s rfl
    exact full_init
  · intro s a s' hf hb hst hn
    exact hf.step (hb.fresh a.1) hst hn

end Copy2.Queue
