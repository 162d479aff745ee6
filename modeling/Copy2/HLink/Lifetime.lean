import Copy2.HLink.Tables

/-! # How long the entries of the tables live

The entry of a source inode is made when its first name is registered. Nothing ever
removes it: of the two places that would, one tests the count before it is decremented,
the other looks under the destination inode. -/
namespace Copy2.HLink
open FileJob Lib Os

set_option linter.unusedSectionVars false

variable {Name : Type} [Fintype Name] [DecidableEq Name]
variable {T : SourceTree Name} {s t : State Name} {n : Name} {v : NameState} {i : ℕ}

/-- The job of the name has been put on the finish queue, and is not over. -/
def Pc.inQueue : Pc → Bool
  | queued | handle | drain | handleRetire => true
  | _ => false

def Pc.inHandle : Pc → Bool
  | handle | drain | handleRetire => true
  | _ => false

theorem Pc.inQueue_of_inHandle {p : Pc} (h : p.inHandle = true) : p.inQueue = true := by
  revert h
  cases p <;> decide

/-- The call has left the table, and is not about to remove the entry. -/
def Pc.past (p : Pc) : Bool := p.settled && p != .retire

/-- What brings a name to the finish queue, and what it has done when it is over. -/
structure Course (T : SourceTree Name) (n : Name) (v : NameState) : Prop where
  unpended : v.loc.out.firstLook = true → v.loc.out.isPendingHardlink = false
  queued : v.pc.inQueue = true → v.loc.out.firstLook = true ∨ T.copied n = true
  linked : v.pc.inHandle = true → 1 < (T.stx n).stx_nlink
  handled : v.pc = .handleRetire → v.tally.handled ≠ 0
  finished : v.pc = .done → v.loc.out.firstLook = true → 1 < (T.stx n).stx_nlink →
    T.copied n = true → v.tally.handled ≠ 0

theorem Course.same {u : NameState} (h : Course T n u) (hs : SameThread u v) : Course T n v := by
  constructor
  · rw [hs.loc]
    exact h.unpended
  · rw [hs.loc, hs.pc]
    exact h.queued
  · rw [hs.pc]
    exact h.linked
  · rw [hs.pc, hs.handled]
    exact h.handled
  · rw [hs.pc, hs.loc, hs.handled]
    exact h.finished

/-- Before the finish queue there is nothing to account for. -/
theorem Course.of_before (hun : v.loc.out.firstLook = true → v.loc.out.isPendingHardlink = false)
    (hq : v.pc.inQueue = false) (hd : v.pc ≠ .done) : Course T n v where
  unpended := hun
  queued h := by simp [hq] at h
  linked h := absurd (Pc.inQueue_of_inHandle h) (by simp [hq])
  handled h := by simp [h, Pc.inQueue] at hq
  finished h := absurd h hd

structure Onward (T : SourceTree Name) (s t : State Name) (n : Name) (v : NameState) : Prop where
  fwd : t.fwd = s.fwd
  thread : OneThread T s t n v
  firstLook : v.loc.out.firstLook = (s.name n).loc.out.firstLook
  destStx : v.loc.destStx = (s.name n).loc.destStx
  past : v.pc.past = true
  handled : (s.name n).tally.handled ≤ v.tally.handled
  course : Course T n v

theorem Onward.of_moved (hmv : Moved s t n v)
    (hloc : v.loc.out = (s.name n).loc.out ∧ v.loc.destStx = (s.name n).loc.destStx)
    (hp : v.pc.past = true) (hh : v.tally.handled = (s.name n).tally.handled)
    (hc : Course T n v) : Onward T s t n v where
  fwd := hmv.fwd
  thread := hmv.oneThread
  firstLook := by rw [hloc.1]
  destStx := hloc.2
  past := hp
  handled := hh.ge
  course := hc

theorem onward_of_transfer {y : ℕ} (hc : Course T n (s.name n))
    (h : T.transfer s n y = some t) : ∃ v, Onward T s t n v := by
  obtain ⟨v, hmv, htr⟩ := transfer_moved h
  refine ⟨v, ?_⟩
  cases htr with
  | create p hrep _ hp =>
    have hcopied : T.copied n = true := by simp_all [SourceTree.replaces]
    refine .of_moved hmv ⟨rfl, rfl⟩ ?_ rfl ⟨hc.unpended, fun _ => .inr hcopied, ?_, ?_, ?_⟩
    · rcases hp with rfl | ⟨-, rfl⟩ <;> rfl
    · rcases hp with rfl | ⟨-, rfl⟩ <;> simp [Pc.inHandle]
    · rcases hp with rfl | ⟨-, rfl⟩ <;> simp
    · rcases hp with rfl | ⟨hfl, rfl⟩
      · simp
      · simp [hfl]
  | keep hs hfl =>
    exact .of_moved hmv ⟨rfl, rfl⟩ rfl rfl
      ⟨hc.unpended, fun _ => .inl hfl, by simp [NameState.goto, Pc.inHandle],
        by simp [NameState.goto], by simp [NameState.goto]⟩
  | stop hpend =>
    refine .of_moved hmv ⟨rfl, rfl⟩ rfl rfl
      ⟨hc.unpended, by simp [NameState.goto, Pc.inQueue], by simp [NameState.goto, Pc.inHandle],
        by simp [NameState.goto], fun _ hfl => ?_⟩
    have hno : (s.name n).loc.out.isPendingHardlink = false := hc.unpended hfl
    simp [hpend] at hno
  | skip _ hcop =>
    exact .of_moved hmv ⟨rfl, rfl⟩ rfl rfl
      ⟨hc.unpended, by simp [NameState.goto, Pc.inQueue], by simp [NameState.goto, Pc.inHandle],
        by simp [NameState.goto], by simp [hcop]⟩
  | count _ _ hfl =>
    exact .of_moved hmv ⟨rfl, rfl⟩ rfl rfl
      ⟨hc.unpended, by simp [NameState.finish, Pc.inQueue], by simp [NameState.finish, Pc.inHandle],
        by simp [NameState.finish], by simp [NameState.finish, hfl]⟩

/-- A name that has left the table does not come back to it. -/
theorem onward_of_step {y : ℕ} (hpast : (s.name n).pc.past = true)
    (hf : (s.name n).pc = .handle → s.fwd (T.ino n) ≠ none) (hc : Course T n (s.name n))
    (h : T.step s n y = some t) : ∃ v, Onward T s t n v := by
  have before : ∀ p : Pc, p.past = true → p.inQueue = false → p ≠ .done →
      Course T n ((s.name n).goto p) := fun p _ hq hd => .of_before hc.unpended hq hd
  rw [SourceTree.step] at h
  split at h <;> rename_i hpc
  · simp [hpc, Pc.past, Pc.settled, Pc.early] at hpast
  · simp [hpc, Pc.past, Pc.settled, Pc.early] at hpast
  · simp [hpc, Pc.past, Pc.settled, Pc.early] at hpast
  · simp [hpc, Pc.past, Pc.settled, Pc.looking] at hpast
  · simp [hpc, Pc.past, Pc.settled, Pc.looking] at hpast
  · simp [hpc, Pc.past] at hpast
  · obtain ⟨p, hmv, hp⟩ := reverse_moved h
    refine ⟨_, .of_moved hmv ⟨rfl, rfl⟩ ?_ rfl ?_⟩
    · rcases hp with rfl | rfl | rfl <;> rfl
    · refine before p ?_ ?_ ?_ <;> rcases hp with rfl | rfl | rfl <;> decide
  · exact ⟨_, .of_moved (revPromote_moved h) ⟨rfl, rfl⟩ rfl rfl
      (.of_before hc.unpended rfl (by simp))⟩
  · exact ⟨_, .of_moved (revRetire_moved h) ⟨rfl, rfl⟩ rfl rfl (before _ rfl rfl (by simp))⟩
  · exact onward_of_transfer hc h
  · obtain ⟨y, v, -, hmv, -, -, hloc, hv⟩ := publish_moved h
    refine ⟨v, .of_moved hmv (by simp [hloc]) ?_ ?_ ?_⟩
    · rcases hv with ⟨-, hp, -⟩ | ⟨-, hp, -⟩ <;> rw [hp] <;> rfl
    · rcases hv with ⟨-, -, ht⟩ | ⟨-, -, ht⟩ <;> rw [ht]
    · have hq := hc.queued (by rw [hpc]; rfl)
      rcases hv with ⟨hn, hp, -⟩ | ⟨hn, hp, -⟩
      · exact ⟨by simpa [hloc] using hc.unpended, fun _ => by simpa [hloc] using hq, fun _ => hn,
          by simp [hp], by simp [hp]⟩
      · exact ⟨by simpa [hloc] using hc.unpended, by simp [hp, Pc.inQueue], by simp [hp, Pc.inHandle],
          by simp [hp], fun _ _ h1 => by omega⟩
  · obtain rfl := Option.some.inj h
    cases hr : s.fwd (T.ino n) with
    | none => exact absurd hr (hf hpc)
    | some r =>
      rw [SourceTree.handle, hr]
      exact ⟨_, .of_moved ((Quiet.refl s).put n _) ⟨rfl, rfl⟩ rfl rfl
        ⟨hc.unpended, fun _ => hc.queued (by rw [hpc]; rfl), fun _ => hc.linked (by rw [hpc]; rfl),
          by simp, by simp⟩⟩
  · obtain ⟨x, x', v, -, -, -, hfwd, hth, -, hloc, -, hvh, hp⟩ := drain_fate (T := T) h
    refine ⟨v, hfwd, hth, by rw [hloc], by rw [hloc], ?_, by omega, ?_⟩
    · rw [hp]
      split <;> rfl
    · refine ⟨by rw [hloc]; exact hc.unpended, fun _ => ?_, fun _ => hc.linked (by rw [hpc]; rfl),
        fun _ => by omega, fun _ _ _ _ => by omega⟩
      rw [hloc]
      exact hc.queued (by rw [hpc]; rfl)
  · obtain ⟨hfwd, hname⟩ := handleRetire_name h
    refine ⟨(s.name n).finish, hfwd, ⟨by rw [hname, Function.update_self], fun m hm => ?_⟩, rfl, rfl,
      rfl, le_rfl, hc.unpended, by simp [NameState.finish, Pc.inQueue],
      by simp [NameState.finish, Pc.inHandle], by simp [NameState.finish],
      fun _ _ _ _ => hc.handled hpc⟩
    rw [hname, Function.update_of_ne hm]
    exact .refl _
  · cases h
  · cases h

/-- Where the link count is looked at, there is an entry. -/
theorem Single.handled_entry (hs : Single T (T.ino n) s) (hpc : (s.name n).pc = .handle) :
    s.fwd (T.ino n) ≠ none := by
  have hask : T.asks n (s.name n) := by
    simpa [hpc] using (hs.name n rfl).asked (by simp [hpc])
  simp [hs.sees (by rw [hpc]; rfl) hask]

structure Whole (T : SourceTree Name) (s : State Name) : Prop extends Tables T s where
  course : ∀ n, Course T n (s.name n)

/-- Before the table is left, a step leads to a place before the finish queue. -/
theorem before_of_step {y : ℕ} (hpc : (s.name n).pc.settled = false)
    (hret : (t.name n).pc ≠ .retire) (h : T.step s n y = some t) :
    (t.name n).pc.inQueue = false ∧ (t.name n).pc ≠ .done := by
  rw [SourceTree.step] at h
  split at h <;> rename_i hp
  · obtain rfl := Option.some.inj h
    obtain ⟨v, hmv, -, -, -, hv⟩ := start_moved (T := T) (s := s) (n := n)
    rw [hmv.name, Function.update_self]
    rcases hv with ⟨hv, -⟩ | ⟨-, hv, -⟩ <;> rw [hv] <;> decide
  · obtain rfl := Option.some.inj h
    rw [SourceTree.register]
    split <;> simp [State.put, Pc.inQueue]
  · rcases promote_cases h with ⟨-, hmv⟩ | ⟨-, mismatch, -, hr⟩
    · rw [hmv.name, Function.update_self]
      exact ⟨rfl, by simp [NameState.goto]⟩
    · rw [hr.name, Function.update_self]
      exact ⟨rfl, by simp [rootState]⟩
  · obtain ⟨x, -, hmv | ⟨-, -, hmv⟩⟩ := compare_moved h
    · rw [hmv.name, Function.update_self]
      exact ⟨rfl, by simp⟩
    · rw [hmv.name, Function.update_self]
      exact ⟨rfl, by simp [NameState.goto]⟩
  · obtain ⟨x, x', v, -, hfate, -, -, hname, -⟩ := relink_fate h
    rw [hname, Function.update_self] at hret ⊢
    cases hfate with
    | counted _ hv _ =>
      rw [hv] at hret ⊢
      split <;> simp [Pc.inQueue]
    | other _ hv _ => rcases hv with hv | hv <;> simp [hv, Pc.inQueue]
  all_goals simp [hp, Pc.settled, Pc.early, Pc.looking] at hpc

theorem Whole.step {y : ℕ} (hw : Whole T s) (hmiss : Misses s n)
    (h : T.step s n y = some t) : Whole T t := by
  have hmiss' : AllMiss s (.run n y) := hmiss
  have ht : Tables T t := hw.toTables.next hmiss' h
  refine ⟨ht, fun m => ?_⟩
  by_cases hm : m = n
  · subst hm
    cases hp : (s.name m).pc.settled with
    | false =>
      obtain ⟨hq, hd⟩ := before_of_step hp (ht.single _).not_retire h
      exact .of_before (fun hfl => (((ht.single (T.ino m)).name m rfl).first hfl).2) hq hd
    | true =>
      have hpast : (s.name m).pc.past = true := by
        simp [Pc.past, hp, (hw.single (T.ino m)).not_retire]
      have hf : (s.name m).pc = .handle → s.fwd (T.ino m) ≠ none := fun hpc =>
        (hw.single _).handled_entry hpc
      obtain ⟨v, hv⟩ := onward_of_step hpast hf (hw.course m) h
      rw [hv.thread.self]
      exact hv.course
  · exact (hw.course m).same (step_thread h hm)

theorem Whole.init {dst : Name → Option ℕ} :
    Whole T ({ name := fun n => { dst := dst n } } : State Name) :=
  ⟨.init, fun _ => .of_before (by simp) rfl (by simp)⟩

/-- The forward entries of other inodes stay where they are. -/
theorem step_fwd {y j : ℕ} (h : T.step s n y = some t) (hj : j ≠ T.ino n) :
    t.fwd j = s.fwd j := by
  rw [SourceTree.step] at h
  split at h
  · obtain rfl := Option.some.inj h
    obtain ⟨v, hmv, -⟩ := start_moved (T := T) (s := s) (n := n)
    rw [hmv.fwd]
  · obtain rfl := Option.some.inj h
    obtain ⟨v, hmv⟩ := register_moved (T := T) (s := s) (n := n)
    rw [hmv.fwd]
  · rcases promote_cases h with ⟨-, hmv⟩ | ⟨-, mismatch, -, hr⟩
    · rw [hmv.fwd]
    · rw [hr.fwd, Function.update_of_ne hj]
  · obtain ⟨x, -, hmv | ⟨-, -, hmv⟩⟩ := compare_moved h <;> rw [hmv.fwd]
  · obtain ⟨x, x', v, -, -, -, hfwd, -⟩ := relink_fate h
    rw [hfwd]
  · obtain ⟨-, h⟩ := Option.ite_none_left_eq_some.mp h
    split at h
    · rw [(reverseWrite_moved h).fwd]
      exact Function.update_of_ne hj ..
    · rw [(reverseWrite_moved h).fwd]
  · obtain ⟨p, hmv, -⟩ := reverse_moved h
    rw [hmv.fwd]
  · rw [(revPromote_moved h).fwd]
  · rw [(revRetire_moved h).fwd]
  · obtain ⟨v, hmv, -⟩ := transfer_moved h
    rw [hmv.fwd]
  · obtain ⟨y, v, -, hmv, -⟩ := publish_moved h
    rw [hmv.fwd]
  · obtain rfl := Option.some.inj h
    obtain ⟨v, hmv⟩ := handle_moved (T := T) (s := s) (n := n)
    rw [hmv.fwd]
  · obtain ⟨x, x', v, -, -, -, hfwd, -⟩ := drain_fate (T := T) h
    rw [hfwd]
  · rw [(handleRetire_name h).1]
  · cases h
  · cases h

/-- No name of the inode will look at the table again. Its entry is there, and its root has
been handled or is going to be. -/
structure Closed (T : SourceTree Name) (i : ℕ) (s : State Name) : Prop where
  entry : s.fwd i ≠ none
  past : ∀ n, T.ino n = i → (s.name n).pc.past = true ∧ Course T n (s.name n)
  root : ∃ m, T.ino m = i ∧ 1 < (T.stx m).stx_nlink ∧ (s.name m).loc.out.firstLook = true ∧
    (T.copied m = true ∨ (s.name m).tally.handled ≠ 0)

theorem Closed.step {y : ℕ} (hc : Closed T i s) (h : T.step s n y = some t) : Closed T i t := by
  obtain ⟨m, hm, hnlink, hfl, hrole⟩ := hc.root
  by_cases hn : T.ino n = i
  · obtain ⟨hpast, hcourse⟩ := hc.past n hn
    obtain ⟨v, hv⟩ := onward_of_step hpast (fun _ => hn ▸ hc.entry) hcourse h
    refine ⟨by rw [hv.fwd]; exact hc.entry, fun k hk => ?_, m, hm, hnlink, ?_⟩
    · by_cases hkn : k = n
      · rw [hkn, hv.thread.self]
        exact ⟨hv.past, hv.course⟩
      · have hsame := hv.thread.other k hkn
        rw [hsame.pc]
        exact ⟨(hc.past k hk).1, (hc.past k hk).2.same hsame⟩
    · by_cases hmn : m = n
      · subst hmn
        rw [hv.thread.self, hv.firstLook]
        refine ⟨hfl, hrole.imp_right fun hh => ?_⟩
        have := hv.handled
        omega
      · rw [(hv.thread.other m hmn).loc, (hv.thread.other m hmn).handled]
        exact ⟨hfl, hrole⟩
  · have hother : ∀ k, T.ino k = i → SameThread (s.name k) (t.name k) := fun k hk =>
      step_thread h fun he => hn (he ▸ hk)
    refine ⟨by rw [step_fwd h (Ne.symm hn)]; exact hc.entry, fun k hk => ?_, m, hm, hnlink, ?_⟩
    · rw [(hother k hk).pc]
      exact ⟨(hc.past k hk).1, (hc.past k hk).2.same (hother k hk)⟩
    · rw [(hother m hm).loc, (hother m hm).handled]
      exact ⟨hfl, hrole⟩

/-- A root that does find something under its destination inode closes its own inode. -/
theorem Whole.closed (hw : Whole T s) (hpc : (s.name n).pc = .handleRetire) :
    Closed T (T.ino n) s := by
  have hlinked : 1 < (T.stx n).stx_nlink := (hw.course n).linked (by rw [hpc]; rfl)
  have hsees := (hw.single _).sees (by rw [hpc]; rfl) (.inl hlinked : T.asks n (s.name n))
  obtain ⟨m, hm, -, hfl, -, hall⟩ := (hw.single _).root _ hsees
  refine ⟨by simp [hsees], fun k hk => ⟨?_, hw.course k⟩, m, hm, ?_, hfl, ?_⟩
  · have hset := (hw.single _).retiring n k rfl hk hpc
    have hret := (hw.single (T.ino k)).not_retire
    simp [Pc.past, hset, hret]
  · rw [T.same_inode m n hm]
    exact hlinked
  · by_cases hmn : m = n
    · exact .inr (hmn ▸ (hw.course n).handled hpc)
    · rcases (hw.course n).queued (by rw [hpc]; rfl) with hfn | hcop
      · simpa [hfn] using (hall n rfl (Ne.symm hmn)).firstLook
      · left
        rwa [SourceTree.copied, T.same_inode m n hm]

/-- All entries are in order, or some inode has been closed. -/
theorem Whole.next {op : Op Name} (hw : Whole T s) (hf : Faultless op) (h : T.next s op = some t) :
    Whole T t ∨ ∃ i, Closed T i t := by
  cases op with
  | run n y =>
    by_cases hmiss : Misses s n
    · exact .inl (hw.step hmiss h)
    · obtain ⟨hpc, -⟩ := Classical.not_imp.mp hmiss
      exact .inr ⟨_, (hw.closed hpc).step h⟩
  | fail n fate => exact hf.elim
  | reuseInfo r x =>
    have hmiss : AllMiss s (.reuseInfo r x) := True.intro
    have ht : Tables T t := hw.toTables.next hmiss h
    obtain ⟨-, h⟩ := Option.ite_none_right_eq_some.mp h
    obtain rfl := Option.some.inj h
    exact .inl ⟨ht, hw.course⟩
  | reuseRevinfo q x =>
    have hmiss : AllMiss s (.reuseRevinfo q x) := True.intro
    have ht : Tables T t := hw.toTables.next hmiss h
    obtain ⟨-, h⟩ := Option.ite_none_right_eq_some.mp h
    obtain rfl := Option.some.inj h
    exact .inl ⟨ht, hw.course⟩

theorem Closed.next {op : Op Name} (hc : Closed T i s) (hf : Faultless op)
    (h : T.next s op = some t) : Closed T i t := by
  cases op with
  | run n y => exact hc.step h
  | fail n fate => exact hf.elim
  | reuseInfo r x =>
    obtain ⟨-, h⟩ := Option.ite_none_right_eq_some.mp h
    obtain rfl := Option.some.inj h
    exact ⟨hc.entry, hc.past, hc.root⟩
  | reuseRevinfo q x =>
    obtain ⟨-, h⟩ := Option.ite_none_right_eq_some.mp h
    obtain rfl := Option.some.inj h
    exact ⟨hc.entry, hc.past, hc.root⟩

theorem whole_or_closed {s₀ : State Name} (h₀ : T.system.init s₀)
    (h : T.system.Run (fun _ op => Faultless op) s₀ s) : Whole T s ∨ ∃ i, Closed T i s := by
  refine h.invariant (I := fun s => Whole T s ∨ ∃ i, Closed T i s)
    (fun s op t hs hf hn => ?_) ?_
  · rcases hs with hw | ⟨i, hc⟩
    · exact hw.next hf hn
    · exact .inr ⟨i, hc.next hf hn⟩
  · obtain ⟨dst, rfl⟩ := h₀
    exact .inl .init

instance (T : SourceTree Name) (n : Name) (v : NameState) : Decidable (T.asks n v) :=
  inferInstanceAs (Decidable (_ ∨ _))

def SourceTree.complete (T : SourceTree Name) (i : ℕ) : Prop :=
  ∀ n, T.ino n = i → count (fun b => T.ino b == i) = (T.stx n).stx_nlink

/-- From the first registration of a name of the inode until the last one has been
registered and the root has been handled. -/
def ForwardNeeded (T : SourceTree Name) (s : State Name) (i : ℕ) : Prop :=
  (∃ n, T.ino n = i ∧ T.asks n (s.name n) ∧ (s.name n).pc.early = false) ∧
    ¬ ((∀ n, T.ino n = i → Returned T n (s.name n)) ∧
      ∃ m, IsRoot T s i m ∧ (s.name m).tally.handled ≠ 0)

def SourceTree.looks (T : SourceTree Name) (s : State Name) (d : ℕ) : ℕ :=
  count fun n => (s.name n).loc.destExists && (s.name n).loc.destStx.stx_ino == d &&
    (s.name n).pc.returned && decide (T.asks n (s.name n))

/-- Both tables hold exactly what is still needed; `m` counts the links that an inode of the
destination had at first. -/
structure LiveAsNeeded (T : SourceTree Name) (s₀ s : State Name) : Prop where
  forward : ∀ i, T.complete i → (s.fwd i ≠ none ↔ ForwardNeeded T s i)
  reverse : ∀ d, T.others d = 0 → 1 < s₀.nlink T d →
    (s.rev d ≠ none ↔ 0 < T.looks s d ∧ T.looks s d < s₀.nlink T d)

theorem Whole.leaves (hw : Whole T s) (hend : s.Ended) (hn : 1 < (T.stx n).stx_nlink)
    (hc : T.copied n = true) : Closed T (T.ino n) s := by
  have hsees := (hw.single _).sees (by rw [hend n]; rfl) (.inl hn : T.asks n (s.name n))
  obtain ⟨m, hm, -, hfl, -⟩ := (hw.single _).root _ hsees
  have hstx := T.same_inode m n hm
  refine ⟨by simp [hsees], fun k _ => ⟨by rw [hend k]; rfl, hw.course k⟩, m, hm, ?_, hfl, .inl ?_⟩
  · rwa [hstx]
  · rwa [SourceTree.copied, hstx]

/-- At the end nothing is needed any more, but the entry is still there. -/
theorem Closed.not_live {s₀ : State Name} (hc : Closed T i s) (hend : s.Ended)
    (hall : T.complete i) : ¬ LiveAsNeeded T s₀ s := by
  intro hlive
  obtain ⟨m, hm, hnlink, hfl, hrole⟩ := hc.root
  have returned : ∀ n, T.ino n = i → Returned T n (s.name n) := fun n hn => by
    refine ⟨.inl ?_, by rw [hend n]; rfl⟩
    rwa [T.same_inode n m (hn.trans hm.symm)]
  have handled : (s.name m).tally.handled ≠ 0 := by
    rcases hrole with hcop | hh
    · exact (hc.past m hm).2.finished (hend m) hfl hnlink hcop
    · exact hh
  obtain ⟨-, hneed⟩ := (hlive.forward i hall).mp hc.entry
  exact hneed ⟨returned, m, ⟨hm, returned m hm, hfl⟩, handled⟩

/-- Whatever the order of the calls: as soon as the source has one file with several names,
some entry outlives the run. -/
theorem entries_outlive (T : SourceTree Name) (hall : ∀ i, T.complete i) {a : Name}
    (ha : 1 < (T.stx a).stx_nlink) (hc : T.copied a = true) {s₀ s : State Name}
    (h₀ : T.system.init s₀) (h : T.system.Run (fun _ op => Faultless op) s₀ s)
    (hend : s.Ended) : ¬ LiveAsNeeded T s₀ s := by
  rcases whole_or_closed h₀ h with hw | ⟨i, hclosed⟩
  · exact (hw.leaves hend ha hc).not_live hend (hall _)
  · exact hclosed.not_live hend (hall _)

/-- Both names of inode 1 are up to date and links of inode 10; name 2 is not there. -/
def pairStart : State (Fin 3) := { name := fun n => { dst := if n = 2 then none else some 10 } }

def pairRun : List (Op (Fin 3)) :=
  List.replicate 7 (.run 0 0) ++ List.replicate 5 (.run 1 0) ++ .run 2 0 :: .run 2 12 ::
    [.run 2 0]

theorem pairRun_end : ∃ s, sampleTree.system.Run (fun _ op => Faultless op) pairStart s ∧
    s.Ended ∧ s.fwd 1 ≠ none ∧ s.rev 10 ≠ none ∧ sampleTree.looks s 10 = 2 := by
  obtain ⟨s, hs⟩ := Option.isSome_iff_exists.mp (show (sampleTree.system.exec
    faultless pairStart pairRun).isSome = true by decide +kernel)
  have hpc : ((sampleTree.system.exec faultless pairStart pairRun).map
      fun s => List.ofFn fun n => (s.name n).pc) = some [.done, .done, .done] := by decide +kernel
  have htable : ((sampleTree.system.exec faultless pairStart pairRun).map
      fun s => (s.fwd 1, s.rev 10, sampleTree.looks s 10)) = some (some 0, some 1, 2) := by
    decide +kernel
  rw [hs] at hpc htable
  simp only [Option.map_some, Option.some.injEq, List.ofFn_succ, List.ofFn_zero,
    List.cons.injEq, Prod.mk.injEq] at hpc htable
  refine ⟨s, .of_exec _ (fun op _ _ h => ?_) hs, fun n => ?_, by simp [htable.1],
    by simp [htable.2.1], htable.2.2⟩
  · cases op with
    | fail => cases h
    | _ => trivial
  · fin_cases n
    · exact hpc.1
    · exact hpc.2.1
    · exact hpc.2.2.1

theorem sampleTree_complete (i : ℕ) : sampleTree.complete i := by
  rintro n rfl
  revert n
  decide

theorem entries_outlive_sample : ∃ s, s.Ended ∧ ¬ LiveAsNeeded sampleTree pairStart s := by
  obtain ⟨s, hs, hend, -⟩ := pairRun_end
  exact ⟨s, hend, entries_outlive sampleTree sampleTree_complete (a := 0) (by decide) (by decide)
    ⟨_, rfl⟩ hs hend⟩

/-- Both links have looked at inode 10, both names are registered and their root has been
handled, and yet both entries are there. -/
theorem entries_not_removed : ¬ ∀ s,
    sampleTree.system.Run (fun _ op => Faultless op) pairStart s → s.Ended →
      LiveAsNeeded sampleTree pairStart s := by
  intro h
  obtain ⟨s, hs, hend, -, hrev, hlooks⟩ := pairRun_end
  obtain ⟨-, hlt⟩ := ((h s hs hend).reverse 10 rfl (by decide)).mp hrev
  rw [hlooks] at hlt
  exact absurd hlt (by decide)

end Copy2.HLink
