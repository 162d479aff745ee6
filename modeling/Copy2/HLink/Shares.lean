import Copy2.HLink.Stranded

/-! # What every name counts for

A name that has been seen is counted once: by its finish job, from the list of its root,
or on the spot. What one step does to its share is said once; what a run does follows. -/
namespace Copy2.HLink
open FileJob Lib Os

set_option linter.unusedSectionVars false

variable {Name : Type} [Fintype Name] [DecidableEq Name]
variable {T : SourceTree Name} {s t : State Name} {n m : Name} {u v : NameState} {i : ℕ}

def Pc.ended : Pc → Bool
  | done | leaked => true
  | _ => false

def NameState.pending (v : NameState) : Bool := v.loc.out.isPendingHardlink

/-- The name is to be transferred, but will get no finish job: it is neither a regular file nor a
symbolic link, or it is a symbolic link and not a first look. -/
def Dropped (T : SourceTree Name) (n : Name) (v : NameState) : Prop :=
  v.pc = .transfer ∧ v.loc.out.shouldTransfer = true ∧ v.pending = false ∧ isReg (T.stx n).stx_mode = false ∧
    (isLnk (T.stx n).stx_mode = true → v.loc.out.firstLook = false)

structure SameRefs (u v : NameState) : Prop where
  pending : v.pending = u.pending
  drained : v.tally.drained = u.tally.drained
  taken : v.tally.dirTaken = u.tally.dirTaken
  released : v.tally.dirReleased = u.tally.dirReleased

inductive Share (T : SourceTree Name) (n : Name) (failed : Prop) (u v : NameState) : Prop
  | pass (hp : v.pc.ended = false) (hrefs : SameRefs u v) (hc : v.tally.counted = u.tally.counted)
  | stop (hp : v.pc = .done) (why : v.pending = true ∨ Dropped T n u ∨ failed)
      (hrefs : SameRefs u v) (hc : v.tally.counted = u.tally.counted)
  | count (hp : v.pc.ended = true) (hpend : u.pending = false) (hrefs : SameRefs u v)
      (hc : v.tally.counted = u.tally.counted + 1)

theorem Share.refs {failed : Prop} (h : Share T n failed u v) : SameRefs u v := by
  cases h with
  | pass _ h => exact h
  | stop _ _ h => exact h
  | count _ _ h => exact h

def SameLists (s t : State Name) : Prop :=
  ∀ i r x', t.fwd i = some r → t.info r = some x' → x'.links = [] ∨
    ∃ x, s.fwd i = some r ∧ s.info r = some x ∧ x'.links = x.links ∧ x'.transferred = x.transferred

/-- The name has put itself on the list of a root that has not been transferred. -/
structure Lists (T : SourceTree Name) (s t : State Name) (n : Name) (v : NameState) : Prop where
  fresh : (s.name n).pending = false
  ended : v.pc.ended = false
  pending : v.pending = true
  counted : v.tally.counted = (s.name n).tally.counted
  drained : v.tally.drained = (s.name n).tally.drained
  taken : v.tally.dirTaken = (s.name n).tally.dirTaken + 1
  released : v.tally.dirReleased = (s.name n).tally.dirReleased
  record : ∃ r x, s.fwd (T.ino n) = some r ∧ s.info r = some x ∧ x.transferred = false ∧
    t.info = Function.update s.info r (some { x with links := n :: x.links })

/-- A name on the list has been linked to the root, and counted. -/
structure Served (k : ℕ) (u v : NameState) : Prop where
  pc : v.pc = u.pc
  pending : v.pending = u.pending
  counted : v.tally.counted = u.tally.counted + k
  drained : v.tally.drained = u.tally.drained + k
  taken : v.tally.dirTaken = u.tally.dirTaken
  released : v.tally.dirReleased = u.tally.dirReleased + k

inductive ShareStep (T : SourceTree Name) (s t : State Name) (n : Name) (failed : Prop) : Prop
  | own (v : NameState) (hname : t.name = Function.update s.name n v)
      (hshare : Share T n failed (s.name n) v) (hlists : SameLists s t)
  | joins (v : NameState) (hname : t.name = Function.update s.name n v) (hfwd : t.fwd = s.fwd)
      (hjoin : Lists T s t n v)
  | drains (r : Ref) (x x' : HLinkInfo Name) (hpc : (s.name n).pc = .drain) (hfwd : t.fwd = s.fwd)
      (hr : s.fwd (T.ino n) = some r) (href : (s.name n).loc.hinfoRef = r)
      (hx : s.info r = some x) (hinfo : t.info = Function.update s.info r (some x'))
      (hlinks : x'.links = x.links) (htr : x'.transferred = true)
      (hself : Share T n failed (s.name n) (t.name n)) (hmem : n ∉ x.links)
      (hother : ∀ m ≠ n, Served (x.links.count m) (s.name m) (t.name m))

theorem Moved.sameLists (h : Moved s t n v) : SameLists s t := fun i r x' hr hx =>
  .inr ⟨x', by rw [← h.fwd]; exact hr, by rw [← h.info]; exact hx, rfl, rfl⟩

theorem Moved.share {failed : Prop} (h : Moved s t n v) (hshare : Share T n failed (s.name n) v) :
    ShareStep T s t n failed :=
  .own v h.name hshare h.sameLists

/-- A name that has not been decided waits for nobody. -/
theorem Orderly.unpended (ho : Orderly T s) (hp : (s.name n).pc.resolved = false) :
    (s.name n).pending = false :=
  ((ho.holder n).early hp).1

theorem share_of_start (ho : Orderly T s) (hpc : (s.name n).pc = .start) :
    ShareStep T s (T.start s n) n False := by
  have hpend := ho.unpended (n := n) (by rw [hpc]; rfl)
  obtain ⟨v, hmv, -, -, htally, hv⟩ := start_moved (T := T) (s := s) (n := n)
  have hp : v.pc.ended = false ∧ v.pending = false := by
    rcases hv with ⟨hp, hloc⟩ | ⟨-, hp, hloc⟩
    · exact ⟨by rw [hp]; rfl, by rw [NameState.pending, hloc, statDest_out]⟩
    · exact ⟨by rw [hp]; rfl, by rw [NameState.pending, hloc]⟩
  exact hmv.share (.pass hp.1 ⟨hp.2.trans hpend.symm, by rw [htally], by rw [htally], by rw [htally]⟩
    (by rw [htally]))

theorem share_of_register (ho : Orderly T s) (hpc : (s.name n).pc = .register) :
    ShareStep T s (T.register s n) n False := by
  have hpend := ho.unpended (n := n) (by rw [hpc]; rfl)
  rw [SourceTree.register]
  split <;> exact ((Quiet.refl s).put n _).share
    (.pass rfl ⟨hpend.symm, rfl, rfl, rfl⟩ rfl)

theorem share_of_promote (ho : Orderly T s) (hpc : (s.name n).pc = .promote)
    (h : T.promote s n = some t) : ShareStep T s t n False := by
  have hpend := ho.unpended (n := n) (by rw [hpc]; rfl)
  rcases promote_cases h with ⟨-, hmv⟩ | ⟨hf, mismatch, -, hr⟩
  · exact hmv.share (.pass rfl ⟨rfl, rfl, rfl, rfl⟩ rfl)
  · refine .own _ hr.name (.pass rfl ⟨hpend.symm, rfl, rfl, rfl⟩ rfl) fun i r x' hi hx => ?_
    rw [hr.fwd] at hi
    rw [hr.info] at hx
    by_cases hin : i = T.ino n
    · rw [hin, Function.update_self] at hi
      obtain rfl := Option.some.inj hi
      rw [Function.update_self] at hx
      obtain rfl := Option.some.inj hx
      exact .inl rfl
    · rw [Function.update_of_ne hin] at hi
      rw [Function.update_of_ne (ho.tables.bound i r hi).ne] at hx
      exact .inr ⟨x', hi, hx, rfl, rfl⟩

theorem share_of_compare (h : SourceTree.compare s n = some t) : ShareStep T s t n False := by
  obtain ⟨x, -, hmv | ⟨-, -, hmv⟩⟩ := compare_moved h
  · exact hmv.share (.pass rfl ⟨rfl, rfl, rfl, rfl⟩ rfl)
  · exact hmv.share (.pass rfl ⟨rfl, rfl, rfl, rfl⟩ rfl)

/-- The record of the name's own inode has been counted down, or marked. -/
theorem sameLists_of_update {r : Ref} {x : HLinkInfo Name} (hx : s.info r = some x)
    (hinfo : ∃ x', t.info = Function.update s.info r (some x') ∧ x'.links = x.links ∧
      x'.transferred = x.transferred) (hfwd : t.fwd = s.fwd) : SameLists s t := by
  obtain ⟨x', hinfo, hlinks, htr⟩ := hinfo
  intro j q y hj hy
  rw [hfwd] at hj
  rw [hinfo] at hy
  by_cases hq : q = r
  · subst hq
    rw [Function.update_self] at hy
    obtain rfl := Option.some.inj hy
    exact .inr ⟨x, hj, hx, hlinks, htr⟩
  · rw [Function.update_of_ne hq] at hy
    exact .inr ⟨y, hj, hy, rfl, rfl⟩

theorem share_of_relink {failed : Prop} {fate : SourceTree.Fate} (ho : Orderly T s)
    (hpc : (s.name n).pc = .relink) (h : SourceTree.relink s n fate = some t) :
    ShareStep T s t n failed := by
  have hpend := ho.unpended (n := n) (by rw [hpc]; rfl)
  have hown := ho.tables.own (n := n) (by rw [hpc]; rfl)
  obtain ⟨x, hx, h⟩ := Option.bind_eq_some_iff.mp h
  obtain ⟨-, h⟩ := Option.ite_none_left_eq_some.mp h
  have hp : ∀ k : ℕ, (if k = 0 then Pc.retire else .reverse).ended = false := fun k => by
    split <;> rfl
  split at h
  · cases fate with
    | linked =>
      obtain ⟨y, -, h⟩ := Option.bind_eq_some_iff.mp h
      obtain rfl := Option.some.inj h
      exact .own _ rfl (.pass (hp _) ⟨rfl, rfl, rfl, rfl⟩ rfl)
        (sameLists_of_update hx ⟨_, rfl, rfl, rfl⟩ rfl)
    | kept =>
      obtain rfl := Option.some.inj h
      exact .own _ rfl (.pass (hp _) ⟨rfl, rfl, rfl, rfl⟩ rfl)
        (sameLists_of_update hx ⟨_, rfl, rfl, rfl⟩ rfl)
    | gone =>
      obtain rfl := Option.some.inj h
      exact .own _ rfl (.count rfl hpend ⟨rfl, rfl, rfl, rfl⟩ rfl)
        (sameLists_of_update hx ⟨_, rfl, rfl, rfl⟩ rfl)
  · rename_i htr
    obtain rfl := Option.some.inj h
    exact .joins _ rfl rfl ⟨hpend, rfl, rfl, rfl, rfl, rfl, rfl, _, x, hown, hx, by simpa using htr, rfl⟩

theorem share_of_transfer {y : ℕ} (hpc : (s.name n).pc = .transfer)
    (h : T.transfer s n y = some t) : ShareStep T s t n False := by
  have hcreate : ∀ p, T.create s n y p = some t →
      (p = .queued ∨ p = .done ∧ Dropped T n (s.name n)) → ShareStep T s t n False := by
    intro p h hp
    obtain ⟨-, h⟩ := Option.ite_none_right_eq_some.mp h
    obtain rfl := Option.some.inj h
    refine ((Quiet.refl s).put n _).share ?_
    rcases hp with rfl | ⟨rfl, hdrop⟩
    · exact .pass rfl ⟨rfl, rfl, rfl, rfl⟩ rfl
    · exact .stop rfl (.inr (.inl hdrop)) ⟨rfl, rfl, rfl, rfl⟩ rfl
  have hgoto : ∀ p : Pc, t = s.goto n p → (p = .queued ∨ p = .done ∧ ((s.name n).pending = true ∨
      Dropped T n (s.name n))) → ShareStep T s t n False := by
    rintro p rfl hp
    refine ((Quiet.refl s).goto n p).share ?_
    rcases hp with rfl | ⟨rfl, hwhy⟩
    · exact .pass rfl ⟨rfl, rfl, rfl, rfl⟩ rfl
    · exact .stop rfl (hwhy.imp id .inl) ⟨rfl, rfl, rfl, rfl⟩ rfl
  simp only [SourceTree.transfer] at h
  split at h
  · rename_i hs
    simp only [Bool.and_eq_true, Bool.not_eq_true'] at hs
    split at h
    · exact hcreate _ h (.inl rfl)
    · rename_i hreg
      split at h
      · refine hcreate _ h ?_
        split
        · exact .inl rfl
        · rename_i hfl
          exact .inr ⟨rfl, hpc, hs.1, hs.2, by simpa using hreg, fun _ => by simpa using hfl⟩
      · rename_i hlnk
        exact hgoto .done (Option.some.inj h).symm
          (.inr ⟨rfl, .inr ⟨hpc, hs.1, hs.2, by simpa using hreg, fun hl => absurd hl hlnk⟩⟩)
  · split at h
    · rename_i hpend
      exact hgoto .done (Option.some.inj h).symm (.inr ⟨rfl, .inl hpend⟩)
    · split at h
      · exact hgoto .queued (Option.some.inj h).symm (.inl rfl)
      · obtain rfl := Option.some.inj h
        rename_i hpend _
        exact ((Quiet.refl s).put n _).share
          (.count rfl (by simpa [NameState.pending] using hpend) ⟨rfl, rfl, rfl, rfl⟩ rfl)

theorem share_of_publish (ho : Orderly T s) (hpc : (s.name n).pc = .queued)
    (h : T.publish s n = some t) : ShareStep T s t n False := by
  have hun := ho.unpended (n := n) (by rw [hpc]; rfl)
  obtain ⟨y, v, -, hmv, -, -, hloc, hv⟩ := publish_moved h
  have hpend : v.pending = (s.name n).pending := by rw [NameState.pending, hloc]; rfl
  rcases hv with ⟨-, hp, htally⟩ | ⟨-, hp, htally⟩
  · exact hmv.share (.pass (by rw [hp]; rfl) ⟨hpend, by rw [htally], by rw [htally], by rw [htally]⟩
      (by rw [htally]))
  · exact hmv.share (.count (by rw [hp]; rfl) hun
      ⟨hpend, by rw [htally], by rw [htally], by rw [htally]⟩ (by rw [htally]))

theorem share_of_handle (ho : Orderly T s) (hpc : (s.name n).pc = .handle) :
    ShareStep T s (T.handle s n) n False := by
  have hpend := ho.unpended (n := n) (by rw [hpc]; rfl)
  rw [SourceTree.handle]
  split
  · exact ((Quiet.refl s).put n _).share (.pass rfl ⟨rfl, rfl, rfl, rfl⟩ rfl)
  · exact ((Quiet.refl s).put n _).share (.count rfl hpend ⟨rfl, rfl, rfl, rfl⟩ rfl)

theorem share_of_drain {failed : Prop} {fate : Name → SourceTree.Fate} (ho : Orderly T s)
    (hpc : (s.name n).pc = .drain) (h : SourceTree.drain s n fate = some t) :
    ShareStep T s t n failed := by
  have hown := ho.tables.own (n := n) (by rw [hpc]; rfl)
  obtain ⟨x, hx, h⟩ := Option.bind_eq_some_iff.mp h
  obtain ⟨y, -, h⟩ := Option.bind_eq_some_iff.mp h
  obtain ⟨-, h⟩ := Option.ite_none_left_eq_some.mp h
  obtain rfl := Option.some.inj h
  obtain ⟨x', hx', hw⟩ := ho.waiting _ _ hown
  obtain rfl : x = x' := Option.some.inj (hx.symm.trans hx')
  have hself : n ∉ x.links := fun hm => by
    have := (ho.holder n).resolved (hw.links n hm).2
    simp [hpc, Pc.resolved] at this
  refine .drains _ x _ hpc rfl hown rfl hx rfl rfl rfl ?_ hself fun m hm => ?_
  · have hzero : x.links.count n = 0 := List.count_eq_zero.mpr hself
    simp only [State.put, Function.update_self]
    split
    · exact .pass rfl ⟨rfl, rfl, rfl, rfl⟩ rfl
    · exact .count rfl (ho.unpended (by rw [hpc]; rfl)) ⟨rfl, rfl, rfl, rfl⟩ rfl
  · simp only [State.put, State.setInfo, Function.update_of_ne hm, SourceTree.drainEntry]
    split
    · rename_i hc
      exact ⟨rfl, rfl, by omega, by omega, rfl, by omega⟩
    · exact ⟨rfl, rfl, rfl, rfl, rfl, rfl⟩

theorem share_of_handleRetire (ho : Orderly T s) (hpc : (s.name n).pc = .handleRetire)
    (hmiss : Misses s n) (h : T.handleRetire s n = some t) : ShareStep T s t n False := by
  rw [SourceTree.handleRetire, hmiss hpc] at h
  obtain ⟨-, h⟩ := Option.ite_none_left_eq_some.mp h
  obtain rfl := Option.some.inj h
  exact ((Quiet.refl s).put n _).share
    (.count rfl (ho.unpended (by rw [hpc]; rfl)) ⟨rfl, rfl, rfl, rfl⟩ rfl)

theorem share_of_step {y : ℕ} (ho : Orderly T s) (hmiss : Misses s n)
    (h : T.step s n y = some t) : ShareStep T s t n False := by
  rw [SourceTree.step] at h
  split at h <;> rename_i hpc
  · obtain rfl := Option.some.inj h
    exact share_of_start ho hpc
  · obtain rfl := Option.some.inj h
    exact share_of_register ho hpc
  · exact share_of_promote ho hpc h
  · exact share_of_compare h
  · exact share_of_relink ho hpc h
  · exact absurd hpc (ho.tables.single _).not_retire
  · obtain ⟨p, hmv, hp⟩ := reverse_moved h
    refine hmv.share (.pass ?_ ⟨rfl, rfl, rfl, rfl⟩ rfl)
    rcases hp with rfl | rfl | rfl <;> rfl
  · exact (revPromote_moved h).share (.pass rfl ⟨rfl, rfl, rfl, rfl⟩ rfl)
  · exact (revRetire_moved h).share (.pass rfl ⟨rfl, rfl, rfl, rfl⟩ rfl)
  · exact share_of_transfer hpc h
  · exact share_of_publish ho hpc h
  · obtain rfl := Option.some.inj h
    exact share_of_handle ho hpc
  · exact share_of_drain ho hpc h
  · exact share_of_handleRetire ho hpc hmiss h
  · cases h
  · cases h

theorem share_of_stepFails {fate : Name → SourceTree.Fate} (ho : Orderly T s)
    (h : T.stepFails s n fate = some t) : ShareStep T s t n True := by
  rw [SourceTree.stepFails] at h
  split at h <;> rename_i hpc
  · exact share_of_relink ho hpc h
  · obtain ⟨-, h⟩ := Option.ite_none_right_eq_some.mp h
    obtain rfl := Option.some.inj h
    exact ((Quiet.refl s).goto n _).share
      (.stop rfl (.inr (.inr trivial)) ⟨rfl, rfl, rfl, rfl⟩ rfl)
  · obtain ⟨v, hmv, hp, hloc, htally⟩ := publishFails_moved h
    exact hmv.share (.count (by rw [hp]; rfl) (ho.unpended (by rw [hpc]; rfl))
      ⟨by rw [NameState.pending, hloc]; rfl, by rw [htally], by rw [htally], by rw [htally]⟩
      (by rw [htally]))
  · exact share_of_drain ho hpc h
  · cases h

/-- Nothing that has been taken, given back or ended becomes undone. -/
structure Ahead (u v : NameState) : Prop where
  taken : u.tally.dirTaken ≤ v.tally.dirTaken
  released : u.tally.dirReleased ≤ v.tally.dirReleased
  ended : u.pc.ended = true → v.pc.ended = true

structure Still (u v : NameState) : Prop where
  pc : v.pc = u.pc
  taken : v.tally.dirTaken = u.tally.dirTaken

theorem ShareStep.ahead {failed : Prop} (h : ShareStep T s t n failed)
    (hrun : (s.name n).pc.ended = false) (m : Name) :
    Ahead (s.name m) (t.name m) ∧ (m ≠ n → Still (s.name m) (t.name m)) := by
  have hself : ∀ v, Share T n failed (s.name n) v → Ahead (s.name n) v := fun v hs =>
    ⟨hs.refs.taken.ge, hs.refs.released.ge, by simp [hrun]⟩
  by_cases hm : m = n
  · subst hm
    refine ⟨?_, fun h => absurd rfl h⟩
    cases h with
    | own v hname hshare _ =>
      rw [hname, Function.update_self]
      exact hself v hshare
    | joins v hname _ hjoin =>
      rw [hname, Function.update_self]
      exact ⟨by rw [hjoin.taken]; omega, hjoin.released.ge, by simp [hrun]⟩
    | drains r x x' _ _ _ _ _ _ _ _ hshare _ _ => exact hself _ hshare
  · have hsame : t.name m = s.name m → Ahead (s.name m) (t.name m) ∧
        (m ≠ n → Still (s.name m) (t.name m)) := fun h => by
      rw [h]
      exact ⟨⟨le_rfl, le_rfl, id⟩, fun _ => ⟨rfl, rfl⟩⟩
    cases h with
    | own v hname _ _ => exact hsame (by rw [hname, Function.update_of_ne hm])
    | joins v hname _ _ => exact hsame (by rw [hname, Function.update_of_ne hm])
    | drains r x x' _ _ _ _ _ _ _ _ _ _ hother =>
      have hs := hother m hm
      exact ⟨⟨hs.taken.ge, by rw [hs.released]; omega, by rw [hs.pc]; exact id⟩,
        fun _ => ⟨hs.pc, hs.taken⟩⟩

/-- Only a name whose processing is not over goes on. -/
theorem running_of_step {y : ℕ} (h : T.step s n y = some t) : (s.name n).pc.ended = false := by
  rw [SourceTree.step] at h
  split at h <;> rename_i hpc
  all_goals first | (rw [hpc]; rfl) | cases h

theorem running_of_stepFails {fate : Name → SourceTree.Fate} (h : T.stepFails s n fate = some t) :
    (s.name n).pc.ended = false := by
  rw [SourceTree.stepFails] at h
  split at h <;> rename_i hpc
  all_goals first | (rw [hpc]; rfl) | cases h

/-- The record has been transferred, and names are still on its list: their entries have been
freed. -/
def DrainsAgain (s : State Name) (n : Name) : Prop :=
  (s.name n).pc = .drain ∧ ∃ x, s.info (s.name n).loc.hinfoRef = some x ∧
    x.transferred = true ∧ x.links ≠ []

def DrainsOnce (s : State Name) : Op Name → Prop
  | .run n _ => ¬ DrainsAgain s n
  | .fail n _ => ¬ DrainsAgain s n
  | _ => True

/-- Who waits holds one reference to its directory until its root has been handled. -/
structure Refs (s : State Name) : Prop where
  taken : ∀ m, (s.name m).tally.dirTaken = (s.name m).pending.toNat
  released : ∀ m, (s.name m).tally.dirReleased = (s.name m).tally.drained
  drained_le : ∀ m, (s.name m).tally.drained ≤ (s.name m).pending.toNat
  nodup : ∀ i r x, s.fwd i = some r → s.info r = some x → x.links.Nodup
  drained : ∀ i r x, s.fwd i = some r → s.info r = some x →
    ∀ m ∈ x.links, (s.name m).tally.drained = x.transferred.toNat

theorem Refs.init {dst : Name → Option ℕ} :
    Refs ({ name := fun n => { dst := dst n } } : State Name) :=
  ⟨fun _ => rfl, fun _ => rfl, fun _ => Nat.zero_le _, by simp, by simp⟩

theorem Refs.released_le (hr : Refs s) (m : Name) :
    (s.name m).tally.dirReleased ≤ (s.name m).tally.dirTaken := by
  rw [hr.released, hr.taken]
  exact hr.drained_le m

/-- Nothing that the references depend on has changed for any name. -/
theorem Refs.same (hr : Refs s) (hname : ∀ m, SameRefs (s.name m) (t.name m))
    (hlists : SameLists s t) : Refs t where
  taken m := by rw [(hname m).taken, (hname m).pending, hr.taken]
  released m := by rw [(hname m).released, (hname m).drained, hr.released]
  drained_le m := by rw [(hname m).drained, (hname m).pending]; exact hr.drained_le m
  nodup i r x hi hx := by
    rcases hlists i r x hi hx with h | ⟨y, hi', hy, hl, -⟩
    · simp [h]
    · rw [hl]
      exact hr.nodup i r y hi' hy
  drained i r x hi hx m hm := by
    rcases hlists i r x hi hx with h | ⟨y, hi', hy, hl, htr⟩
    · simp [h] at hm
    · rw [(hname m).drained, htr]
      exact hr.drained i r y hi' hy m (hl ▸ hm)

theorem Refs.joins (hr : Refs s) (ho : Orderly T s) (hname : t.name = Function.update s.name n v)
    (hfwd : t.fwd = s.fwd) (h : Lists T s t n v) : Refs t := by
  have hzero : (s.name n).tally.drained = 0 := by simpa [h.fresh] using hr.drained_le n
  have hother : ∀ m ≠ n, t.name m = s.name m := fun m hm => by rw [hname, Function.update_of_ne hm]
  have hself : t.name n = v := by rw [hname, Function.update_self]
  have hdrained : ∀ m, (t.name m).tally.drained = (s.name m).tally.drained := fun m => by
    by_cases hm : m = n
    · rw [hm, hself, h.drained]
    · rw [hother m hm]
  obtain ⟨r, x, hrn, hx, htr, hinfo⟩ := h.record
  obtain ⟨x', hx', hw⟩ := ho.waiting _ r hrn
  obtain rfl : x = x' := Option.some.inj (hx.symm.trans hx')
  have hnot : n ∉ x.links := fun hm => by
    simpa [NameState.pending, (hw.links n hm).2] using h.fresh
  refine ⟨fun m => ?_, fun m => ?_, fun m => ?_, fun i q y hi hy => ?_, fun i q y hi hy m hm => ?_⟩
  · by_cases hm : m = n
    · rw [hm, hself, h.taken, h.pending, hr.taken, h.fresh]
      rfl
    · rw [hother m hm, hr.taken]
  · by_cases hm : m = n
    · rw [hm, hself, h.released, h.drained, hr.released]
    · rw [hother m hm, hr.released]
  · by_cases hm : m = n
    · rw [hm, hself, h.drained, hzero]
      exact Nat.zero_le _
    · rw [hother m hm]
      exact hr.drained_le m
  · rw [hfwd] at hi
    rw [hinfo] at hy
    by_cases hq : q = r
    · rw [hq, Function.update_self] at hy
      obtain rfl := Option.some.inj hy
      exact List.nodup_cons.mpr ⟨hnot, hr.nodup _ r x hrn hx⟩
    · rw [Function.update_of_ne hq] at hy
      exact hr.nodup i q y hi hy
  · rw [hfwd] at hi
    rw [hinfo] at hy
    rw [hdrained]
    by_cases hq : q = r
    · rw [hq, Function.update_self] at hy
      obtain rfl := Option.some.inj hy
      rcases List.mem_cons.mp hm with rfl | hm
      · rw [hzero, htr]
        rfl
      · exact hr.drained _ r x hrn hx m hm
    · rw [Function.update_of_ne hq] at hy
      exact hr.drained i q y hi hy m hm

theorem Refs.next_share {failed : Prop} (hr : Refs s) (ho : Orderly T s) (honce : ¬ DrainsAgain s n)
    (h : ShareStep T s t n failed) : Refs t := by
  cases h with
  | own v hname hshare hlists =>
    refine hr.same (fun m => ?_) hlists
    by_cases hm : m = n
    · rw [hm, hname, Function.update_self]
      exact hshare.refs
    · rw [hname, Function.update_of_ne hm]
      exact ⟨rfl, rfl, rfl, rfl⟩
  | joins v hname hfwd hjoin => exact hr.joins ho hname hfwd hjoin
  | drains r x x' hpc hfwd hrn href hx hinfo hlinks htr hself hmem hother =>
    obtain ⟨y, hy, hw⟩ := ho.waiting _ r hrn
    obtain rfl : x = y := Option.some.inj (hx.symm.trans hy)
    have hnodup := hr.nodup _ r x hrn hx
    -- what is on the list has not been drained before
    have hfresh : ∀ m ∈ x.links, (s.name m).tally.drained = 0 := fun m hm => by
      rw [hr.drained _ r x hrn hx m hm]
      cases hx' : x.transferred with
      | false => rfl
      | true => exact absurd ⟨hpc, x, href ▸ hx, hx', List.ne_nil_of_mem hm⟩ honce
    have hserved : ∀ m, ∃ k : ℕ, k = x.links.count m ∧ (t.name m).pending = (s.name m).pending ∧
        (t.name m).tally.drained = (s.name m).tally.drained + k ∧
        (t.name m).tally.dirTaken = (s.name m).tally.dirTaken ∧
        (t.name m).tally.dirReleased = (s.name m).tally.dirReleased + k := fun m => by
      refine ⟨_, rfl, ?_⟩
      by_cases hm : m = n
      · subst hm
        have hs := hself.refs
        rw [List.count_eq_zero.mpr hmem]
        exact ⟨hs.pending, hs.drained, hs.taken, hs.released⟩
      · have hs := hother m hm
        exact ⟨hs.pending, hs.drained, hs.taken, hs.released⟩
    refine ⟨fun m => ?_, fun m => ?_, fun m => ?_, fun i q z hi hz => ?_, fun i q z hi hz m hm => ?_⟩
    · obtain ⟨k, -, hp, -, ht, -⟩ := hserved m
      rw [ht, hp, hr.taken]
    · obtain ⟨k, -, -, hd, -, hrel⟩ := hserved m
      rw [hrel, hd, hr.released]
    · obtain ⟨k, hk, hp, hd, -, -⟩ := hserved m
      rw [hp, hd, hk]
      by_cases hm : m ∈ x.links
      · have hpend : (s.name m).pending = true := (hw.links m hm).2
        rw [hfresh m hm, hpend, List.count_eq_one_of_mem hnodup hm]
        rfl
      · rw [List.count_eq_zero.mpr hm]
        exact hr.drained_le m
    · rw [hfwd] at hi
      rw [hinfo] at hz
      by_cases hq : q = r
      · rw [hq, Function.update_self] at hz
        obtain rfl := Option.some.inj hz
        rw [hlinks]
        exact hnodup
      · rw [Function.update_of_ne hq] at hz
        exact hr.nodup i q z hi hz
    · rw [hfwd] at hi
      rw [hinfo] at hz
      obtain ⟨k, hk, -, hd, -, -⟩ := hserved m
      by_cases hq : q = r
      · rw [hq, Function.update_self] at hz
        obtain rfl := Option.some.inj hz
        rw [hlinks] at hm
        rw [hd, hk, hfresh m hm, htr, List.count_eq_one_of_mem hnodup hm]
        rfl
      · rw [Function.update_of_ne hq] at hz
        have hnot : m ∉ x.links := fun hmem' => by
          obtain ⟨z', hz', hw'⟩ := ho.waiting i q hi
          obtain rfl : z = z' := Option.some.inj (hz.symm.trans hz')
          have hii : i = T.ino n := (hw'.links m hm).1.symm.trans (hw.links m hmem').1
          rw [hii, hrn] at hi
          exact hq (Option.some.inj hi).symm
        rw [hd, hk, List.count_eq_zero.mpr hnot]
        exact hr.drained i q z hi hz m hm

theorem sameLists_of_reuse {r : Ref} {x : HLinkInfo Name} (ho : Orderly T s)
    (h : T.next s (.reuseInfo r x) = some t) : t.name = s.name ∧ SameLists s t := by
  obtain ⟨⟨-, hnone⟩, h⟩ := Option.ite_none_right_eq_some.mp h
  obtain rfl := Option.some.inj h
  refine ⟨rfl, fun i q y hi hy => ?_⟩
  obtain ⟨z, hz, -⟩ := ho.waiting i q hi
  have hne : q ≠ r := by
    rintro rfl
    simp [hz] at hnone
  exact .inr ⟨y, hi, (Function.update_of_ne hne _ _).symm.trans hy, rfl, rfl⟩

theorem sameLists_of_reuseRev {q : Ref} {x : HLinkInfoRev}
    (h : T.next s (.reuseRevinfo q x) = some t) : t.name = s.name ∧ SameLists s t := by
  obtain ⟨-, h⟩ := Option.ite_none_right_eq_some.mp h
  obtain rfl := Option.some.inj h
  exact ⟨rfl, fun i r y hi hy => .inr ⟨y, hi, hy, rfl, rfl⟩⟩

theorem Refs.next {op : Op Name} (hr : Refs s) (ho : Orderly T s) (hg : NoneStrands T s op)
    (honce : DrainsOnce s op) (h : T.next s op = some t) : Refs t := by
  have hsame : t.name = s.name ∧ SameLists s t → Refs t := fun ⟨hname, hlists⟩ =>
    hr.same (fun m => by rw [hname]; exact ⟨rfl, rfl, rfl, rfl⟩) hlists
  cases op with
  | run n y => exact hr.next_share ho honce (share_of_step ho hg.1 h)
  | fail n fate => exact hr.next_share ho honce (share_of_stepFails ho h)
  | reuseInfo r x => exact hsame (sameLists_of_reuse ho h)
  | reuseRevinfo q x => exact hsame (sameLists_of_reuseRev h)

/-- Who waits is counted by its root, anyone else when it is over. -/
structure Counted (v : NameState) : Prop where
  waiting : v.pending = true → v.tally.counted = v.tally.drained
  own : v.pending = false → v.tally.counted = v.pc.ended.toNat

theorem Share.counted (h : Share T n False u v) (hdrop : ¬ Dropped T n u)
    (hrun : u.pc.ended = false) (hu : Counted u) : Counted v := by
  cases h with
  | pass hp hrefs hc =>
    refine ⟨fun hpend => ?_, fun hpend => ?_⟩ <;> rw [hrefs.pending] at hpend
    · rw [hc, hrefs.drained, hu.waiting hpend]
    · rw [hc, hp, hu.own hpend, hrun]
  | stop hp why hrefs hc =>
    have hpend := (why.resolve_right (by simp [hdrop]))
    refine ⟨fun _ => ?_, fun hf => by simp [hpend] at hf⟩
    rw [hc, hrefs.drained, hu.waiting (hrefs.pending ▸ hpend)]
  | count hp hpend hrefs hc =>
    refine ⟨fun hf => by simp [hrefs.pending, hpend] at hf, fun _ => ?_⟩
    rw [hc, hp, hu.own hpend, hrun]
    rfl

theorem counted_of_share (ho : Orderly T s) (hdrop : ¬ Dropped T n (s.name n))
    (hrun : (s.name n).pc.ended = false) (hall : ∀ m, Counted (s.name m))
    (hr : Refs s) (h : ShareStep T s t n False) (m : Name) : Counted (t.name m) := by
  cases h with
  | own v hname hshare hlists =>
    by_cases hm : m = n
    · subst hm
      rw [hname, Function.update_self]
      exact hshare.counted hdrop hrun (hall m)
    · rw [hname, Function.update_of_ne hm]
      exact hall m
  | joins v hname hfwd hjoin =>
    by_cases hm : m = n
    · subst hm
      rw [hname, Function.update_self]
      refine ⟨fun _ => ?_, fun hf => by simp [hjoin.pending] at hf⟩
      have hzero := hr.drained_le m
      rw [hjoin.fresh] at hzero
      rw [hjoin.counted, hjoin.drained, (hall m).own hjoin.fresh, hrun, Nat.le_zero.mp hzero]
      rfl
    · rw [hname, Function.update_of_ne hm]
      exact hall m
  | drains r x x' hpc hfwd hrn href hx hinfo hlinks htr hself hmem hother =>
    by_cases hm : m = n
    · subst hm
      exact hself.counted hdrop hrun (hall m)
    · have hs := hother m hm
      obtain ⟨y, hy, hw⟩ := ho.waiting _ r hrn
      obtain rfl : x = y := Option.some.inj (hx.symm.trans hy)
      refine ⟨fun hpend => ?_, fun hpend => ?_⟩ <;> rw [hs.pending] at hpend
      · rw [hs.counted, hs.drained, (hall m).waiting hpend]
      · have hnot : m ∉ x.links := fun hl => by
          simp [NameState.pending, (hw.links m hl).2] at hpend
        rw [hs.counted, hs.pc, (hall m).own hpend, List.count_eq_zero.mpr hnot, Nat.add_zero]

/-- No call fails; no root finds an entry under its destination inode; no name is dropped; and no
list is drained twice. -/
structure CountsAll (T : SourceTree Name) (s : State Name) (op : Op Name) : Prop where
  faultless : Faultless op
  misses : AllMiss s op
  kept : ∀ n y, op = .run n y → ¬ Dropped T n (s.name n)
  once : DrainsOnce s op

theorem CountsAll.noneStrands {op : Op Name} (hg : CountsAll T s op) (ho : Orderly T s) :
    NoneStrands T s op := by
  cases op with
  | run n y =>
    refine ⟨hg.misses, fun hpc hs hc hfl => ?_⟩
    have hpend : (s.name n).pending = false :=
      (((ho.tables.single (T.ino n)).name n rfl).first hfl).2
    have hmode : isReg (T.stx n).stx_mode = false ∧ isLnk (T.stx n).stx_mode = false := by
      simpa [SourceTree.copied] using hc
    exact absurd ⟨hpc, hs, hpend, hmode.1, fun hl => by simp [hmode.2] at hl⟩ (hg.kept n y rfl)
  | fail n fate => exact hg.faultless.elim
  | reuseInfo r x => exact trivial
  | reuseRevinfo q x => exact trivial

/-- What a run without failures keeps of every name. -/
structure Accounted (T : SourceTree Name) (s : State Name) : Prop where
  orderly : Orderly T s
  refs : Refs s
  counted : ∀ m, Counted (s.name m)

theorem Accounted.init {dst : Name → Option ℕ} :
    Accounted T ({ name := fun n => { dst := dst n } } : State Name) where
  orderly := ⟨.init, fun _ => ⟨by simp, by simp, by simp⟩, by simp⟩
  refs := .init
  counted _ := ⟨fun _ => rfl, fun _ => rfl⟩

theorem Accounted.next {op : Op Name} (ha : Accounted T s) (hg : CountsAll T s op)
    (h : T.next s op = some t) : Accounted T t := by
  have hns := hg.noneStrands ha.orderly
  refine ⟨ha.orderly.next hns h, ha.refs.next ha.orderly hns hg.once h, fun m => ?_⟩
  cases op with
  | run n y =>
    exact counted_of_share ha.orderly (hg.kept n y rfl) (running_of_step h) ha.counted ha.refs
      (share_of_step ha.orderly hns.1 h) m
  | fail n fate => exact hg.faultless.elim
  | reuseInfo r x =>
    rw [(sameLists_of_reuse ha.orderly h).1]
    exact ha.counted m
  | reuseRevinfo q x =>
    rw [(sameLists_of_reuseRev h).1]
    exact ha.counted m

/-- When no name of the tree is still under way, nobody waits any more. -/
theorem Orderly.given_back (ho : Orderly T s)
    (hover : ∀ m, (s.name m).pc = .start ∨ (s.name m).pc.ended = true)
    (hpend : (s.name n).pending = true) :
    (s.name n).tally.dirTaken ≤ (s.name n).tally.dirReleased := by
  have hdone : (s.name n).pc = .done := by
    have hres := (ho.holder n).resolved hpend
    rcases hover n with hp | hp
    · simp [hp, Pc.resolved] at hres
    · revert hp hres
      cases (s.name n).pc <;> simp [Pc.ended, Pc.resolved]
  have hsingle := ho.tables.single (T.ino n)
  have hask : T.asks n (s.name n) := by
    rcases (hsingle.name n rfl).asked (by simp [hdone]) with h | ⟨-, hfl, -⟩
    · exact h
    · have := ((hsingle.name n rfl).first hfl).2
      simp [NameState.pending, this] at hpend
  obtain ⟨m, hm, hmask, hfl, -⟩ := hsingle.root _ (hsingle.sees (by rw [hdone]; rfl) hask)
  have hroot : (s.name m).pc = .done := by
    have hfirst := (((ho.tables.single _).name m rfl).first hfl).1
    rcases hover m with hp | hp
    · simp [hp, Pc.firstOn] at hfirst
    · revert hp hfirst
      cases (s.name m).pc <;> simp [Pc.ended, Pc.firstOn]
  exact (ho.noneStranded ⟨hm, ⟨hmask, by rw [hroot]; rfl⟩, hfl⟩ hroot).released n rfl hpend

theorem Accounted.counts_one (ha : Accounted T s)
    (hover : ∀ m, (s.name m).pc = .start ∨ (s.name m).pc.ended = true)
    (hend : (s.name n).pc.ended = true) : (s.name n).tally.counted = 1 := by
  cases hpend : (s.name n).pending with
  | false => rw [(ha.counted n).own hpend, hend]; rfl
  | true =>
    have hback := ha.orderly.given_back hover hpend
    have hle := ha.refs.drained_le n
    rw [ha.refs.taken, hpend, ha.refs.released] at hback
    rw [hpend] at hle
    rw [(ha.counted n).waiting hpend]
    exact le_antisymm hle hback

end Copy2.HLink
