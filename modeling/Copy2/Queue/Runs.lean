import Copy2.Queue.Bounded

/-! # Runs of the bounded queue

The queue never holds more than its capacity, whoever is let through finds what it has been
promised, and nobody sleeps in front of an item that is there for it. -/
namespace Copy2.Queue
open Copy2.Lib

variable {T α : Type*} [Fintype T]
variable {s s' : State T α} {t : T} {capacity maxSpins : ℕ}

theorem Place.added_nonneg (c : Place α) : 0 ≤ c.added := by
  cases c <;> simp

theorem Place.posted_nonneg (c : Place α) : 0 ≤ c.posted := by
  cases c <;> simp

theorem Place.taking_nonneg (c : Place α) : 0 ≤ c.taking := by
  cases c <;> simp

theorem Place.releasing_nonneg (c : Place α) : 0 ≤ c.releasing := by
  cases c <;> simp

theorem Place.lowered_nonneg (c : Place α) : 0 ≤ c.lowered := by
  cases c with
  | acquire timeout w => exact w.lowered_nonneg
  | _ => simp

/-- Somebody can take what the queue holds. -/
theorem exists_item (h : 0 < s.items) : ∃ producer item rest, s.inner producer = item :: rest := by
  obtain ⟨producer, hp⟩ := exists_of_census_pos h
  cases hline : s.inner producer with
  | nil => simp [hline] at hp
  | cons item rest => exact ⟨producer, item, rest, hline⟩

/-- An item is on its way to the count, or to a sleeper, or promised, or free for anybody. -/
theorem Balanced.items_eq (hb : Balanced capacity s) : s.items = census Place.added s.place +
    census Place.taking s.place + max s.sem.count 0 + s.sem.sema +
    census Place.posted s.place := by
  have hslept := hb.slept
  have hcounted := hb.counted
  rw [Semaphore.debt] at hslept
  omega

/-- The thread does nothing until it is called, let in or woken up. -/
def Rests (s : State T α) (t : T) : Prop :=
  s.place t = .idle ∨ (∃ item, s.place t = .enqueueWait item) ∧ s.enqueueSem = 0 ∨
    (∃ timeout, s.place t = .acquire timeout .sleep) ∧ s.sem.sema = 0

theorem Rests.census_zero {weight : Place α → ℤ} (hrest : ∀ t, Rests s t)
    (hidle : weight .idle = 0) (hwait : ∀ item, weight (.enqueueWait item) = 0)
    (hsleep : ∀ timeout, weight (.acquire timeout .sleep) = 0) :
    census weight s.place = 0 := by
  refine census_const_zero fun t => ?_
  obtain hc | ⟨⟨item, hc⟩, -⟩ | ⟨⟨timeout, hc⟩, -⟩ := hrest t
  · rw [hc, hidle]
  · rw [hc, hwait]
  · rw [hc, hsleep]

/-- Threads at rest: whoever waits to enqueue waits at a full queue, and whoever sleeps, at an
empty one. -/
theorem Balanced.of_rests (hb : Balanced capacity s) (hfull : Full capacity s)
    (hrest : ∀ t, Rests s t) :
    (∀ t item, s.place t = .enqueueWait item → s.items = capacity) ∧
    (∀ t timeout, s.place t = .acquire timeout .sleep → s.items = 0) := by
  have hzero : ∀ weight : Place α → ℤ, weight .idle = 0 →
      (∀ item, weight (.enqueueWait item) = 0) →
      (∀ timeout, weight (.acquire timeout .sleep) = 0) → census weight s.place = 0 :=
    fun weight => Rests.census_zero hrest
  have hadded := hzero Place.added rfl (fun _ => rfl) fun _ => rfl
  have hposted := hzero Place.posted rfl (fun _ => rfl) fun _ => rfl
  have htaking := hzero Place.taking rfl (fun _ => rfl) fun _ => rfl
  have hinserting := hzero Place.inserting rfl (fun _ => rfl) fun _ => rfl
  have hreleasing := hzero Place.releasing rfl (fun _ => rfl) fun _ => rfl
  refine ⟨fun t item ht => ?_, fun t timeout ht => ?_⟩
  · have hsem : s.enqueueSem = 0 := by
      obtain hc | ⟨-, hsem⟩ | ⟨⟨timeout, hc⟩, -⟩ := hrest t
      · simp [hc] at ht
      · exact hsem
      · simp [hc] at ht
    rw [Full, hinserting, hreleasing, hsem] at hfull
    omega
  · have hsema : s.sem.sema = 0 := by
      obtain hc | ⟨⟨item, hc⟩, -⟩ | ⟨-, hsema⟩ := hrest t
      · simp [hc] at ht
      · simp [hc] at ht
      · exact hsema
    have hone : (s.place t).lowered ≤ census Place.lowered s.place :=
      le_census Place.lowered_nonneg t
    rw [ht] at hone
    simp only [Place.lowered, Waiting.lowered] at hone
    have hslept := hb.slept
    have hitems := hb.items_eq
    rw [Semaphore.debt] at hslept
    omega

variable [DecidableEq T]

/-- Two threads on a queue for one number, and what is known at the end of a run. -/
theorem sampleThreads_run (acts : List (Bool × Act Bool ℕ)) {P : State Bool ℕ → Prop}
    [DecidablePred P] (h : ((threads Bool ℕ 1 0).exec (fun _ a => decide (a.2 ≠ .go false))
      (.init 1) acts).any (fun s => decide (P s)) = true) :
    ∃ s, (threads Bool ℕ 1 0).Reach Stored s ∧ P s := by
  obtain ⟨s, hs, hP⟩ := (Option.any_eq_true _ _).mp h
  exact ⟨s, (TransitionSystem.Reach.init rfl).run (.of_exec _ (fun a _ _ ha => by
    intro item _
    exact of_decide_eq_true ha) hs), of_decide_eq_true hP⟩

/-- Every item has been let in, and whoever has been let through takes one: an enqueuer that
inserts finds room, and the loop around the queue inside does not turn on an empty queue. -/
theorem room_and_items (h : (threads T α capacity maxSpins).Reach (fun _ _ => True) s) :
    s.items + census Place.inserting s.place ≤ capacity ∧
    census Place.taking s.place ≤ s.items ∧
    ∀ t, s.place t = .take → ∃ producer item rest, s.inner producer = item :: rest := by
  have hb := balanced_of_reach h
  have htaking : census Place.taking s.place ≤ s.items := by
    have hitems := hb.items_eq
    have hadded : 0 ≤ census Place.added s.place := census_nonneg Place.added_nonneg
    have hposted : 0 ≤ census Place.posted s.place := census_nonneg Place.posted_nonneg
    omega
  refine ⟨?_, htaking, fun t ht => ?_⟩
  · have hroom := hb.room
    have hreleasing : 0 ≤ census Place.releasing s.place := census_nonneg Place.releasing_nonneg
    omega
  · have hone : (s.place t).taking ≤ census Place.taking s.place :=
      le_census Place.taking_nonneg t
    rw [ht] at hone
    exact exists_item (by simp at hone; omega)

theorem room_and_items_sample : ∃ s, (threads Bool ℕ 1 0).Reach (fun _ _ => True) s ∧
    s.place false = .take ∧ ∃ producer item rest, s.inner producer = item :: rest := by
  obtain ⟨s, hs, htake⟩ := sampleThreads_run
    [(true, .enqueue 7), (true, .go true), (true, .go true), (true, .go true),
      (false, .dequeue none), (false, .go true), (false, .go true)]
    (P := fun s => s.place false = .take) (by decide +kernel)
  have hreach := hs.mono fun _ _ _ => trivial
  exact ⟨s, hreach, htake, (room_and_items hreach).2.2 false htake⟩

/-- While a thread sleeps and there is an item that no other thread is about to take, somebody
can wake up, or a thread is about to wake up a sleeper. -/
theorem sleeper_noticed (h : (threads T α capacity maxSpins).Reach (fun _ _ => True) s)
    {timeout : Option ℤ} (ht : s.place t = .acquire timeout .sleep)
    (hfree : census Place.taking s.place < s.items) :
    0 < s.sem.sema ∨ ∃ u, s.place u = .signalAdd ∨ ∃ left, s.place u = .signalPost (left + 1) := by
  have hb := balanced_of_reach h
  have hslept := hb.slept
  have hitems := hb.items_eq
  have hone : (s.place t).lowered ≤ census Place.lowered s.place :=
    le_census Place.lowered_nonneg t
  rw [ht] at hone
  simp only [Place.lowered, Waiting.lowered] at hone
  rw [Semaphore.debt] at hslept
  by_contra hno
  push Not at hno
  obtain ⟨hsema, hu⟩ := hno
  have hadded : census Place.added s.place = 0 := census_const_zero fun u => by
    have hplace := (hu u).1
    cases hc : s.place u with
    | signalAdd => exact absurd hc hplace
    | _ => rfl
  have hposted : census Place.posted s.place = 0 := census_const_zero fun u => by
    have hplace := (hu u).2
    cases hc : s.place u with
    | signalPost left =>
      cases left with
      | zero => rfl
      | succ left => exact absurd hc (hplace left)
    | _ => rfl
  omega

theorem sleeper_noticed_sample : ∃ s, (threads Bool ℕ 1 0).Reach (fun _ _ => True) s ∧
    s.sem.sema = 0 ∧ ∃ u, s.place u = .signalAdd ∨ ∃ left, s.place u = .signalPost (left + 1) := by
  obtain ⟨s, hs, hsleep, hfree, hsema⟩ := sampleThreads_run
    [(false, .dequeue (some (-1))), (false, .go true), (false, .go true), (false, .go true),
      (true, .enqueue 7), (true, .go true), (true, .go true)]
    (P := fun s => s.place false = .acquire (some (-1)) .sleep ∧
      census Place.taking s.place < s.items ∧ s.sem.sema = 0) (by decide +kernel)
  have hreach := hs.mono fun _ _ _ => trivial
  exact ⟨s, hreach, hsema, (sleeper_noticed hreach hsleep hfree).resolve_left (by omega)⟩

/-- When no thread goes on by itself, those that wait to enqueue wait at a full queue, and those
that sleep, at an empty one. So not both are there. -/
theorem waits_for_a_reason (h : (threads T α capacity maxSpins).Reach Stored s)
    (hrest : ∀ t, Rests s t) :
    (∀ t item, s.place t = .enqueueWait item → s.items = capacity) ∧
    (∀ t timeout, s.place t = .acquire timeout .sleep → s.items = 0) ∧
    (0 < capacity → ∀ t u item timeout, s.place t = .enqueueWait item →
      s.place u ≠ .acquire timeout .sleep) := by
  obtain ⟨hwait, hsleep⟩ := (balanced_of_reach h).of_rests (full_of_reach h) hrest
  refine ⟨hwait, hsleep, fun hcap t u item timeout ht hu => ?_⟩
  have hitems := hwait t item ht
  have hnone := hsleep u timeout hu
  omega

theorem waits_for_a_reason_sample : ∃ s, (threads Bool ℕ 1 0).Reach Stored s ∧
    s.place true = .enqueueWait 8 ∧ s.items = 1 := by
  obtain ⟨s, hs, hwait, hsem, hidle⟩ := sampleThreads_run
    [(true, .enqueue 7), (true, .go true), (true, .go true), (true, .go true), (true, .go true),
      (true, .enqueue 8)]
    (P := fun s => s.place true = .enqueueWait 8 ∧ s.enqueueSem = 0 ∧ s.place false = .idle)
    (by decide +kernel)
  have hrest : ∀ t, Rests s t := by
    intro t
    cases t with
    | false => exact .inl hidle
    | true => exact .inr (.inl ⟨⟨8, hwait⟩, hsem⟩)
  exact ⟨s, hs, hwait, (waits_for_a_reason hs hrest).1 true 8 hwait⟩

/-- A dequeuer that gives up leaves no item that is there for anybody: all that the queue holds
has not been counted yet, or is promised to another thread. -/
theorem refused_when_promised (h : (threads T α capacity maxSpins).Reach (fun _ _ => True) s)
    {timeout : Option ℤ} {w : Waiting} {ok : Bool} (ht : s.place t = .acquire timeout w)
    (hn : s.step maxSpins t (.go ok) = some s') (hidle : s'.place t = .idle) :
    s'.items = census Place.added s'.place + census Place.taking s'.place + s'.sem.sema +
      census Place.posted s'.place := by
  have hb := balanced_of_reach h
  have hfresh : w.Fresh := by
    have hc := hb.fresh t
    rwa [ht] at hc
  have hcount : s'.sem.count ≤ 0 := by
    simp only [State.step, ht] at hn
    obtain ⟨⟨r, sem⟩, hwait, rfl⟩ := Option.map_eq_some_iff.mp hn
    rw [State.move_place, Function.update_self] at hidle
    cases r with
    | refused => exact Semaphore.wait_refused hfresh hwait
    | place w' => cases hidle
    | acquired => cases hidle
  have hitems := (hb.step hn).items_eq
  omega

theorem refused_when_promised_sample : ∃ s s' : State Bool ℕ,
    (threads Bool ℕ 1 0).Reach (fun _ _ => True) s ∧ s.step 0 false (.go true) = some s' ∧
    s'.items = 1 ∧ s'.items = census Place.added s'.place + census Place.taking s'.place +
      s'.sem.sema + census Place.posted s'.place := by
  obtain ⟨s, hs, htry, hstep⟩ := sampleThreads_run
    [(true, .enqueue 7), (true, .go true), (true, .go true), (false, .dequeue none)]
    (P := fun s => s.place false = .acquire none .tryLoad ∧
      (s.step 0 false (.go true)).any
        (fun s' => decide (s'.place false = .idle ∧ s'.items = 1)) = true) (by decide +kernel)
  obtain ⟨s', hn, hd⟩ := (Option.any_eq_true _ _).mp hstep
  obtain ⟨hidle, hitems⟩ := of_decide_eq_true hd
  have hreach := hs.mono fun _ _ _ => trivial
  exact ⟨s, s', hreach, hn, hitems, refused_when_promised hreach htry hn hidle⟩

end Copy2.Queue
