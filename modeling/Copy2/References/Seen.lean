import Copy2.References.Holders

/-! # Is every entry that has been seen counted once?

A name is counted by its finish job, from the list of its root or on the spot, a directory
by the job that its last holder queues. A name that is to be transferred but is nothing the
program can transfer gets no job, and is not counted at all. -/
namespace Copy2.References
open FileJob Lib HLink

set_option linter.unusedSectionVars false

variable {Name Dir : Type} [Fintype Name] [DecidableEq Name] [Fintype Dir] [DecidableEq Dir]
variable {L : Layout Name Dir} {s t : State Name Dir} {n : Name} {d : Dir}

def State.queuesEmpty (s : State Name Dir) : Prop :=
  (∀ n, (s.names.name n).pc ≠ .queued) ∧ ∀ d, (s.fdrc d).queued = 0

instance : Decidable s.queuesEmpty := inferInstanceAs (Decidable (_ ∧ _))

def NoFailure : Act Name Dir → Prop
  | .name op => Faultless op
  | .failName _ => False
  | _ => True

/-- No system call fails, no name is dropped, no record is removed for another or drained twice,
and the threads end with empty queues. -/
def AccountsAll (L : Layout Name Dir) (s : State Name Dir) : Act Name Dir → Prop
  | .name op => CountsAll L.tree s.names op
  | .failName _ => False
  | .stop => s.queuesEmpty
  | _ => True

/-- All that has been seen has been counted once, and nothing else. -/
structure SeenOnce (s : State Name Dir) : Prop where
  name : ∀ n, (s.names.name n).tally.counted = ((s.names.name n).pc != .start).toNat
  dir : ∀ d, (s.fdrc d).finished = (s.pc d).seen.toNat
  total : s.nFinished = s.filesSeen

theorem AccountsAll.keepsRefs {a : Act Name Dir} (hg : AccountsAll L s a) (h : Held L s) :
    KeepsRefs L s a := by
  cases a with
  | name op => exact ⟨hg.noneStrands h.orderly, hg.once⟩
  | _ => exact trivial

structure Counting (L : Layout Name Dir) (s : State Name Dir) : Prop where
  held : Held L s
  counted : ∀ m, Counted (s.names.name m)
  stopped : s.stopped = true → s.quiet ∧ s.queuesEmpty

theorem Layout.act_stopped {a : Act Name Dir} (h : L.act s a = some t) (hs : s.stopped = false)
    (ht : t.stopped = true) : a = .stop := by
  cases a with
  | stop => rfl
  | name op =>
    obtain ⟨-, h⟩ := Option.ite_none_right_eq_some.mp h
    obtain ⟨u, -, rfl⟩ := Option.map_eq_some_iff.mp h
    simp [hs] at ht
  | _ =>
    obtain ⟨-, h⟩ := Option.ite_none_right_eq_some.mp h
    obtain rfl := Option.some.inj h
    simp [State.put, hs] at ht

theorem Layout.act_names {a : Act Name Dir} (h : L.act s a = some t) (ha : ∀ op, a ≠ .name op) :
    t.names = s.names := by
  cases a with
  | name op => exact absurd rfl (ha op)
  | _ =>
    obtain ⟨-, h⟩ := Option.ite_none_right_eq_some.mp h
    obtain rfl := Option.some.inj h
    simp [State.put]

theorem Counting.next {a : Act Name Dir} (hc : Counting L s) (hg : AccountsAll L s a)
    (hn : L.next s a = some t) : Counting L t := by
  have hheld := hc.held.next (hg.keepsRefs hc.held) hn
  obtain ⟨hrun, hn⟩ := Option.ite_none_left_eq_some.mp hn
  refine ⟨hheld, fun m => ?_, fun ht => ?_⟩
  · by_cases ha : ∃ op, a = .name op
    · obtain ⟨op, rfl⟩ := ha
      obtain ⟨-, hn⟩ := Option.ite_none_right_eq_some.mp hn
      obtain ⟨u, hu, rfl⟩ := Option.map_eq_some_iff.mp hn
      exact (Accounted.next ⟨hc.held.orderly, hc.held.refs, hc.counted⟩ hg hu).counted m
    · rw [Layout.act_names hn (by simpa using ha)]
      exact hc.counted m
  · obtain rfl := Layout.act_stopped hn (by simpa using hrun) ht
    obtain ⟨hq, hn⟩ := Option.ite_none_right_eq_some.mp hn
    obtain rfl := Option.some.inj hn
    exact ⟨hq, hg⟩

theorem Counting.reach (h : L.system.Reach (AccountsAll L) s) : Counting L s := by
  refine h.invariant ?_ fun s a t hc hg hn => hc.next hg hn
  rintro s ⟨dst, rfl⟩
  exact ⟨.init, fun _ => ⟨fun _ => rfl, fun _ => rfl⟩, by simp⟩

theorem Held.over (h : Held L s) (hq : s.quiet) (he : s.queuesEmpty) (m : Name) :
    (s.names.name m).pc = .start ∨ (s.names.name m).pc.ended = true := by
  obtain ⟨hm, hqueue⟩ := hq.1 m
  simp only [State.nameOver, Bool.or_eq_true, bne_iff_ne] at hm
  rcases hm with (htask | hin) | hend
  · exact .inl (h.idle m htask)
  · exact absurd (hqueue hin) (he.1 m)
  · exact .inr hend

/-- Nobody holds a directory any more. -/
theorem Held.holders_zero (h : Held L s) (hq : s.quiet) (he : s.queuesEmpty) (d : Dir) :
    L.holders s d = 0 := by
  have hbusy := hq.2
  have hhold : ∀ m, hold s m = 0 := fun m => by
    have hrun : (s.task m == .running && !(s.names.name m).pc.ended) = false := by
      rcases h.over hq he m with hp | hp
      · have := (hq.1 m).1
        simpa [State.nameOver, hp, Pc.inQueue, Pc.ended] using this
      · simp [hp]
    have hback : (s.names.name m).tally.dirTaken ≤ (s.names.name m).tally.dirReleased := by
      cases hpend : (s.names.name m).pending with
      | true => exact h.orderly.given_back (h.over hq he) hpend
      | false =>
        rw [h.refs.taken, hpend]
        exact Nat.zero_le _
    simp [hold, hrun, hback]
  have hguard : guard s d = 0 := by
    have := hbusy d
    rw [guard]
    revert this
    cases s.pc d <;> simp [DirPc.busy]
  have hchild : ∀ c, child L s d c = 0 := fun c => by simp [child, hbusy c]
  simp [Layout.holders, hguard, Layout.sumIn, hhold, hchild]

/-- The job of every directory that was opened has been processed. -/
theorem Held.finished (h : Held L s) (hq : s.quiet) (he : s.queuesEmpty) (d : Dir) :
    (s.fdrc d).finished = (s.pc d).seen.toNat ∧ (s.fdrc d).closed = (s.pc d).seen.toNat := by
  have hempty := he.2 d
  have hphase := h.phase d
  rw [h.holders_zero hq he] at hphase
  cases hphase with
  | unseen hs hf _ => rw [hs, hf]; exact ⟨rfl, rfl⟩
  | opened _ _ hk => exact absurd hk (lt_irrefl 0)
  | last _ hf _ => simp [hf] at hempty
  | closed hs hf _ => rw [hs, hf]; exact ⟨rfl, rfl⟩

theorem Counting.seenOnce (hc : Counting L s) (hstop : s.stopped = true) : SeenOnce s := by
  obtain ⟨hq, he⟩ := hc.stopped hstop
  have hover := hc.held.over hq he
  have hname : ∀ n, (s.names.name n).tally.counted = ((s.names.name n).pc != .start).toNat := by
    intro n
    rcases hover n with hp | hp
    · have hpend := hc.held.orderly.unpended (n := n) (by rw [hp]; rfl)
      rw [(hc.counted n).own hpend, hp]
      rfl
    · have hacc : Accounted L.tree s.names := ⟨hc.held.orderly, hc.held.refs, hc.counted⟩
      rw [hacc.counts_one hover hp]
      revert hp
      cases (s.names.name n).pc <;> intro hp <;> first | rfl | cases hp
  have hdir := fun d => (hc.held.finished hq he d).1
  refine ⟨hname, hdir, ?_⟩
  simp only [State.nFinished, State.filesSeen, hname, hdir]

/-- In every run without failures in which no name is dropped, no record removed for another or
drained twice, and the threads end with empty queues, every entry seen is counted once. -/
theorem entries_accounted (L : Layout Name Dir) (h : L.system.Reach (AccountsAll L) s)
    (hstop : s.stopped = true) : SeenOnce s :=
  (Counting.reach h).seenOnce hstop

def accountsAll (L : Layout Name Dir) (s : State Name Dir) : Act Name Dir → Bool
  | .name (.run n _) => (s.names.name n).pc != .handleRetire && isReg (L.tree.stx n).stx_mode &&
    ((s.names.name n).pc != .drain || match s.names.info (s.names.name n).loc.hinfoRef with
      | some x => !x.transferred
      | none => true)
  | .name (.fail ..) => false
  | .failName _ => false
  | .stop => decide s.queuesEmpty
  | _ => true

theorem accountsAll_sound {a : Act Name Dir} (h : accountsAll L s a = true) :
    AccountsAll L s a := by
  cases a with
  | name op =>
    cases op with
    | run n y =>
      simp only [accountsAll, Bool.and_eq_true, bne_iff_ne] at h
      obtain ⟨⟨hpc, hreg⟩, hdrain⟩ := h
      refine ⟨trivial, fun he => absurd he hpc, ?_, ?_⟩
      · rintro n' y' ⟨⟩ ⟨-, -, -, hno, -⟩
        simp [hreg] at hno
      · rintro ⟨hd, x, hx, htr, -⟩
        simp [hd, hx, htr] at hdrain
    | fail n fate => cases h
    | reuseInfo r x => exact ⟨trivial, trivial, by simp, trivial⟩
    | reuseRevinfo q x => exact ⟨trivial, trivial, by simp, trivial⟩
  | failName n => cases h
  | stop =>
    show s.queuesEmpty
    exact of_decide_eq_true h
  | _ => exact trivial

def flat {Name : Type} [Fintype Name] [DecidableEq Name] (T : SourceTree Name) :
    Layout Name Unit where
  tree := T
  dir _ := ()
  parent _ := none
  parent_ne _ := by simp

def flatStart {k : ℕ} : State (Fin k) Unit := { names := { name := fun _ => { dst := none } } }

/-- Name 1 waits for the root 0; name 2 is a file of its own. -/
def flatRun : List (Act (Fin 3) Unit) :=
  [.spawnDir (), .openDir (), .spawnName 0, .spawnName 1, .spawnName 2] ++
    (waitRun ++ [Op.run 1 0, Op.run 2 0, Op.run 2 12]).map .name ++ [.returnDir ()] ++
    [.name (.run 2 0), .finishDir (), .stop]

theorem entries_accounted_sample : ∃ s : State (Fin 3) Unit, s.stopped = true ∧
    s.filesSeen = 4 ∧ SeenOnce s := by
  obtain ⟨s, hs⟩ := Option.isSome_iff_exists.mp (show ((flat sampleTree).system.exec
    (accountsAll (flat sampleTree)) flatStart flatRun).isSome = true by decide +kernel)
  have hend : ((flat sampleTree).system.exec (accountsAll (flat sampleTree)) flatStart
      flatRun).map (fun s => (s.stopped, s.filesSeen)) = some (true, 4) := by decide +kernel
  have hreach : (flat sampleTree).system.Reach (AccountsAll (flat sampleTree)) s :=
    ⟨flatStart, ⟨fun _ => none, rfl⟩, .of_exec _ (fun _ _ _ h => accountsAll_sound h) hs⟩
  rw [hs] at hend
  simp only [Option.map_some, Option.some.injEq, Prod.mk.injEq] at hend
  exact ⟨s, hend.1, hend.2, entries_accounted (flat sampleTree) hreach hend.1⟩

/-- One named pipe, which the destination does not have. -/
def fifoTree : SourceTree (Fin 1) where
  stx _ := { stx_mode := 0o010644, stx_nlink := 1 }
  dstStx _ := {}
  others _ := 0
  same_inode := by decide
  names_le_nlink := by decide

def fifoRun : List (Act (Fin 1) Unit) :=
  [.spawnDir (), .openDir (), .spawnName 0, .name (.run 0 0), .name (.run 0 0), .returnDir (),
    .finishDir (), .stop]

def noFailure : Act (Fin 1) Unit → Bool
  | .name (.fail ..) => false
  | .failName _ => false
  | _ => true

theorem fifo_not_counted : ¬ ∀ s, (flat fifoTree).system.Reach (fun _ a => NoFailure a) s →
    s.stopped = true → s.nFinished = s.filesSeen := by
  intro hall
  obtain ⟨s, hs⟩ := Option.isSome_iff_exists.mp (show ((flat fifoTree).system.exec
    (fun _ => noFailure) flatStart fifoRun).isSome = true by decide +kernel)
  have hend : ((flat fifoTree).system.exec (fun _ => noFailure) flatStart fifoRun).map
      (fun s => (s.stopped, s.nFinished, s.filesSeen)) = some (true, 1, 2) := by decide +kernel
  have hreach : (flat fifoTree).system.Reach (fun _ a => NoFailure a) s := by
    refine ⟨flatStart, ⟨fun _ => none, rfl⟩, .of_exec _ (fun a _ _ h => ?_) hs⟩
    cases a with
    | name op => cases op <;> first | exact trivial | cases h
    | failName n => cases h
    | _ => exact trivial
  rw [hs] at hend
  simp only [Option.map_some, Option.some.injEq, Prod.mk.injEq] at hend
  obtain ⟨hstop, hfin, hseen⟩ := hend
  have := hall s hreach hstop
  omega

end Copy2.References
