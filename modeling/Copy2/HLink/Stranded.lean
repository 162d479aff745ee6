import Copy2.HLink.Tables

/-! # What a failed root leaves behind

The pending names of an inode are linked and released where its root is handled, and
nowhere else. A root whose copy fails is never handled: whoever waits for it then waits
for good. -/
namespace Copy2.HLink
open FileJob Lib Os

set_option linter.unusedSectionVars false

variable {Name : Type} [Fintype Name] [DecidableEq Name]
variable {T : SourceTree Name} {s t : State Name} {n m : Name} {u v : NameState} {i : ℕ}

/-- The name will not wait for a root that is recorded under the inode `d`. -/
def NeverWaits (d : ℕ) (v : NameState) : Prop :=
  v.pc.settled = true ∨ v.pc ≠ .relink ∧ v.dst = some d

/-- Nobody waits for the root of the record, or is going to. -/
def NoneWaits (T : SourceTree Name) (s : State Name) (h : HLinkInfo Name) : Prop :=
  ∀ m, T.ino m = T.ino h.remote → m ≠ h.remote →
    (s.name m).loc.out.isPendingHardlink = false ∧ NeverWaits h.destInode (s.name m)

structure Holder (v : NameState) : Prop where
  home : v.pc = .register ∨ v.pc = .promote ∨ v.pc = .compare → v.dst = v.loc.home
  resolved : v.loc.out.isPendingHardlink = true → v.pc.resolved = true
  taken : v.tally.dirTaken ≤ v.loc.out.isPendingHardlink.toNat

/-- The list of a record holds the pending names of its inode, each with the references that
it has taken; they are given back where the root is handled. -/
structure Waiting (T : SourceTree Name) (s : State Name) (i : ℕ) (h : HLinkInfo Name) : Prop where
  ino_root : T.ino h.remote = i
  firstLook : (s.name h.remote).loc.out.firstLook = true
  links : ∀ m ∈ h.links, T.ino m = i ∧ (s.name m).loc.out.isPendingHardlink = true
  listed : ∀ m, T.ino m = i → (s.name m).loc.out.isPendingHardlink = true → m ∈ h.links
  released : h.transferred = true → ∀ m ∈ h.links, 0 < (s.name m).tally.dirReleased
  retiring : (s.name h.remote).pc = .handleRetire → h.transferred = true
  ended : (s.name h.remote).pc = .done → h.transferred = true ∨ NoneWaits T s h

structure Orderly (T : SourceTree Name) (s : State Name) : Prop where
  tables : Tables T s
  holder : ∀ m, Holder (s.name m)
  waiting : ∀ i r, s.fwd i = some r → ∃ h, s.info r = some h ∧ Waiting T s i h

theorem Holder.early (h : Holder v) (hp : v.pc.resolved = false) :
    v.loc.out.isPendingHardlink = false ∧ v.tally.dirTaken = 0 := by
  have hpend : v.loc.out.isPendingHardlink = false := by
    by_contra hne
    simp [h.resolved (by simpa using hne)] at hp
  have := h.taken
  rw [hpend] at this
  exact ⟨hpend, Nat.le_zero.mp this⟩

/-- A name that does not look at its destination any more keeps what it holds. -/
theorem Holder.onward (h : Holder u) (hout : v.loc.out = u.loc.out)
    (hdir : v.tally.dirTaken = u.tally.dirTaken)
    (hpc : v.loc.out.isPendingHardlink = true → v.pc.resolved = true)
    (hlook : v.pc.settled = true) : Holder v where
  home hp := by rcases hp with hp | hp | hp <;> simp [hp, Pc.settled, Pc.early, Pc.looking] at hlook
  resolved := hpc
  taken := by rw [hout, hdir]; exact h.taken

theorem Waiting.frame {h : HLinkInfo Name} (hw : Waiting T s i h)
    (hname : ∀ m, T.ino m = i → t.name m = s.name m) : Waiting T t i h := by
  have hroot := hname _ hw.ino_root
  refine ⟨hw.ino_root, by rw [hroot]; exact hw.firstLook, fun m hm => ?_, fun m hm => ?_,
    fun htr m hm => ?_, by rw [hroot]; exact hw.retiring, fun hp => ?_⟩
  · rw [hname m (hw.links m hm).1]
    exact hw.links m hm
  · rw [hname m hm]
    exact hw.listed m hm
  · rw [hname m (hw.links m hm).1]
    exact hw.released htr m hm
  · rw [hroot] at hp
    refine (hw.ended hp).imp_right fun hnone m hm hne => ?_
    rw [hname m (hm.trans hw.ino_root)]
    exact hnone m hm hne

/-- It is enough to look at the inode of the name that goes on. -/
theorem Orderly.after (ho : Orderly T s) (ht : Tables T t) (htable : TableStep T s t n)
    (hname : ∀ m, T.ino m ≠ T.ino n → t.name m = s.name m)
    (hholder : ∀ m, T.ino m = T.ino n → Holder (t.name m))
    (hown : ∀ r, t.fwd (T.ino n) = some r →
      ∃ h, t.info r = some h ∧ Waiting T t (T.ino n) h) : Orderly T t := by
  refine ⟨ht, fun m => ?_, fun i r hr => ?_⟩
  · by_cases hm : T.ino m = T.ino n
    · exact hholder m hm
    · rw [hname m hm]
      exact ho.holder m
  · by_cases hi : T.ino n = i
    · exact hi ▸ hown r (hi ▸ hr)
    · have hkept := ho.tables.entryKept htable hi
      rw [hkept.fwd] at hr
      obtain ⟨h, hh, hw⟩ := ho.waiting i r hr
      exact ⟨h, hkept.info r h hr hh, hw.frame fun m hm => hname m fun he => hi (he ▸ hm)⟩

structure Passes (T : SourceTree Name) (s : State Name) (n : Name) (v : NameState)
    (h : HLinkInfo Name) : Prop where
  decided : n ≠ h.remote → h.transferred = false → NeverWaits h.destInode (s.name n) →
    NeverWaits h.destInode v
  retiring : n = h.remote → v.pc = .handleRetire → h.transferred = true
  ended : n = h.remote → v.pc = .done → h.transferred = true ∨ NoneWaits T s h

structure Calm (u v : NameState) : Prop where
  pending : v.loc.out.isPendingHardlink = u.loc.out.isPendingHardlink
  firstLook : u.loc.out.firstLook = true → v.loc.out.firstLook = true
  released : v.tally.dirReleased = u.tally.dirReleased

/-- The records say the same of their root and of those who wait for it. -/
structure SameRecord (h h' : HLinkInfo Name) : Prop where
  remote : h'.remote = h.remote
  links : h'.links = h.links
  transferred : h'.transferred = h.transferred
  destInode : h'.destInode = h.destInode

theorem Waiting.calm {h h' : HLinkInfo Name} (hw : Waiting T s (T.ino n) h) (hsame : SameRecord h h')
    (hname : t.name = Function.update s.name n v) (hc : Calm (s.name n) v)
    (hp : Passes T s n v h) : Waiting T t (T.ino n) h' := by
  have hself : t.name n = v := by rw [hname, Function.update_self]
  have hother : ∀ m, m ≠ n → t.name m = s.name m := fun m hm => by
    rw [hname, Function.update_of_ne hm]
  have hpend : ∀ m, (t.name m).loc.out.isPendingHardlink =
      (s.name m).loc.out.isPendingHardlink := by
    intro m
    by_cases hm : m = n
    · rw [hm, hself, hc.pending]
    · rw [hother m hm]
  have hnone : h.transferred = false → NoneWaits T s h → NoneWaits T t h' := by
    intro htr hnone m hm hne
    rw [hsame.remote] at hm hne
    rw [hpend m, hsame.destInode]
    refine ⟨(hnone m hm hne).1, ?_⟩
    by_cases hmn : m = n
    · subst hmn
      rw [hself]
      exact hp.decided hne htr (hnone m hm hne).2
    · rw [hother m hmn]
      exact (hnone m hm hne).2
  have hended : h.transferred = true ∨ NoneWaits T s h →
      h'.transferred = true ∨ NoneWaits T t h' := by
    intro hcase
    rw [hsame.transferred]
    cases htr : h.transferred with
    | true => exact .inl rfl
    | false => exact .inr (hnone htr (by simpa [htr] using hcase))
  refine ⟨by rw [hsame.remote]; exact hw.ino_root, ?_, fun m hm => ?_, fun m hm hpm => ?_,
    fun htr m hm => ?_, fun hpc => ?_, fun hpc => ?_⟩
  · rw [hsame.remote]
    by_cases hn : h.remote = n
    · rw [hn, hself]
      exact hc.firstLook (hn ▸ hw.firstLook)
    · rw [hother _ hn]
      exact hw.firstLook
  · rw [hpend m]
    exact hw.links m (hsame.links ▸ hm)
  · rw [hsame.links]
    exact hw.listed m hm (hpend m ▸ hpm)
  · have hpos := hw.released (hsame.transferred ▸ htr) m (hsame.links ▸ hm)
    by_cases hmn : m = n
    · subst hmn
      rw [hself, hc.released]
      exact hpos
    · rw [hother m hmn]
      exact hpos
  · rw [hsame.remote] at hpc
    rw [hsame.transferred]
    by_cases hn : h.remote = n
    · rw [hn, hself] at hpc
      exact hp.retiring hn.symm hpc
    · rw [hother _ hn] at hpc
      exact hw.retiring hpc
  · rw [hsame.remote] at hpc
    by_cases hn : h.remote = n
    · rw [hn, hself] at hpc
      exact hended (hp.ended hn.symm hpc)
    · rw [hother _ hn] at hpc
      exact hended (hw.ended hpc)

theorem Orderly.calm (ho : Orderly T s) (ht : Tables T t) (hmv : Moved s t n v)
    (hholder : Holder v) (hc : Calm (s.name n) v)
    (hp : ∀ r h, s.fwd (T.ino n) = some r → s.info r = some h → Passes T s n v h) :
    Orderly T t := by
  refine ho.after ht hmv.table (fun m hm => ?_) (fun m _ => ?_) fun r hr => ?_
  · rw [hmv.name, Function.update_of_ne fun he => hm (congrArg T.ino he)]
  · rw [hmv.name]
    by_cases hmn : m = n
    · rw [hmn, Function.update_self]
      exact hholder
    · rw [Function.update_of_ne hmn]
      exact ho.holder m
  · rw [hmv.fwd] at hr
    obtain ⟨h, hh, hw⟩ := ho.waiting _ r hr
    exact ⟨h, by rw [hmv.info, hh], hw.calm ⟨rfl, rfl, rfl, rfl⟩ hmv.name hc (hp r h hr hh)⟩

theorem Orderly.ne_remote {r : Ref} {h : HLinkInfo Name} (ho : Orderly T s)
    (hr : s.fwd (T.ino n) = some r) (hh : s.info r = some h)
    (hfl : (s.name n).loc.out.firstLook = false) : n ≠ h.remote := by
  obtain ⟨h', hh', hw⟩ := ho.waiting _ r hr
  obtain rfl : h = h' := Option.some.inj (hh.symm.trans hh')
  intro he
  have := hw.firstLook
  rw [← he, hfl] at this
  cases this

/-- A step of a name that is no root yet, and does not look at a record. -/
theorem Orderly.looks (ho : Orderly T s) (ht : Tables T t) (hmv : Moved s t n v)
    (hfl : (s.name n).loc.out.firstLook = false) (hholder : Holder v)
    (hpend : v.loc.out.isPendingHardlink = (s.name n).loc.out.isPendingHardlink)
    (htally : v.tally = (s.name n).tally)
    (hdec : ∀ d, NeverWaits d (s.name n) → NeverWaits d v) : Orderly T t := by
  refine ho.calm ht hmv hholder ⟨hpend, by simp [hfl], by rw [htally]⟩ fun r h hr hh => ?_
  have hne := ho.ne_remote hr hh hfl
  exact ⟨fun _ _ => hdec _, fun he => absurd he hne, fun he => absurd he hne⟩

theorem Orderly.unused (ho : Orderly T s) (hp : (s.name n).pc.settled = false) :
    (s.name n).loc.out.firstLook = false ∧ (s.name n).loc.out.isPendingHardlink = false ∧
      (s.name n).tally.dirTaken = 0 := by
  refine ⟨(((ho.tables.single (T.ino n)).name n rfl).unused hp).2.2, (ho.holder n).early ?_⟩
  revert hp
  cases (s.name n).pc <;> decide

theorem Orderly.start (ho : Orderly T s) (hpc : (s.name n).pc = .start)
    (ht : Tables T (T.start s n)) : Orderly T (T.start s n) := by
  obtain ⟨hfl, hpend, htaken⟩ := ho.unused (n := n) (by rw [hpc]; rfl)
  obtain ⟨v, hmv, hdst, -, htally, hv⟩ := start_moved (T := T) (s := s) (n := n)
  have hout : v.loc.out.isPendingHardlink = false := by
    rcases hv with ⟨-, hloc⟩ | ⟨-, -, hloc⟩ <;> simp [hloc, statDest_out]
  refine ho.looks ht hmv hfl ⟨fun hp => ?_, by simp [hout], by simp [htally, htaken]⟩
    (by rw [hout, hpend]) htally fun d hd => ?_
  · rcases hv with ⟨-, hloc⟩ | ⟨-, hp', -⟩
    · rw [hdst, hloc, statDest_home]
    · simp [hp'] at hp
  · rcases hv with ⟨hp, -⟩ | ⟨-, hp, -⟩
    · refine .inr ⟨by simp [hp], hdst.trans ?_⟩
      simpa [NeverWaits, hpc, Pc.settled, Pc.early] using hd
    · exact .inl (by rw [hp]; rfl)

theorem Orderly.register (ho : Orderly T s) (hpc : (s.name n).pc = .register)
    (ht : Tables T (T.register s n)) : Orderly T (T.register s n) := by
  obtain ⟨hfl, hpend, htaken⟩ := ho.unused (n := n) (by rw [hpc]; rfl)
  have hhome := (ho.holder n).home (.inl hpc)
  have hdst : ∀ d, NeverWaits d (s.name n) → (s.name n).dst = some d := fun d hd => by
    simpa [NeverWaits, hpc, Pc.settled, Pc.early] using hd
  revert ht
  rw [SourceTree.register]
  split
  · exact fun ht => ho.looks ht ((Quiet.refl s).put n _) hfl
      ⟨fun _ => hhome, by simp, by simp [htaken]⟩ hpend.symm rfl
      fun d hd => .inr ⟨by simp, hdst d hd⟩
  · exact fun ht => ho.looks ht ((Quiet.refl s).put n _) hfl
      ⟨fun _ => hhome, by simp, by simp [htaken]⟩ hpend.symm rfl
      fun d hd => .inr ⟨by simp, hdst d hd⟩

theorem Orderly.promote (ho : Orderly T s) (hpc : (s.name n).pc = .promote)
    (h : T.promote s n = some t) (ht : Tables T t) : Orderly T t := by
  obtain ⟨hfl, hpend, htaken⟩ := ho.unused (n := n) (by rw [hpc]; rfl)
  have hhome := (ho.holder n).home (.inr (.inl hpc))
  rcases promote_cases h with ⟨-, hmv⟩ | ⟨hf, mismatch, -, hr⟩
  · have hdst : ∀ d, NeverWaits d (s.name n) → (s.name n).dst = some d := fun d hd => by
      simpa [NeverWaits, hpc, Pc.settled, Pc.early] using hd
    refine ho.looks ht hmv hfl ⟨fun _ => hhome, ?_, ?_⟩ rfl rfl fun d hd => .inr ⟨?_, hdst d hd⟩
    · simp [NameState.goto, hpend]
    · simp [NameState.goto, htaken]
    · simp [NameState.goto]
  · have hself : t.name n = rootState (s.name n) s.nextRef mismatch := by
      rw [hr.name, Function.update_self]
    have hother : ∀ m, m ≠ n → t.name m = s.name m := fun m hm => by
      rw [hr.name, Function.update_of_ne hm]
    have hpends : ∀ m, T.ino m = T.ino n → (t.name m).loc.out.isPendingHardlink = false := by
      intro m hm
      by_cases hmn : m = n
      · rw [hmn, hself]
        rfl
      · rw [hother m hmn]
        rcases (ho.tables.single (T.ino n)).absent hf m hm with he | ⟨hask, -⟩
        · exact ((ho.holder m).early (Pc.resolved_of_early he)).1
        · exact absurd (.inl (one_lt_nlink hmn hm)) hask
    refine ho.after ht (.rooted hr.fwd hr.nextRef fun r hlt => ?_)
      (fun m hm => hother m fun he => hm (congrArg T.ino he)) (fun m _ => ?_) fun r hr' => ?_
    · rw [hr.info, Function.update_of_ne hlt.ne]
    · by_cases hmn : m = n
      · rw [hmn, hself]
        exact ⟨by simp [rootState], by simp [rootState], by simp [rootState, htaken]⟩
      · rw [hother m hmn]
        exact ho.holder m
    · rw [hr.fwd, Function.update_self] at hr'
      obtain rfl := Option.some.inj hr'
      refine ⟨newInfo T s n, by rw [hr.info, Function.update_self], rfl, ?_, by simp [newInfo],
        fun m hm hp => ?_, by simp [newInfo], ?_, ?_⟩
      · simp [newInfo, hself, rootState]
      · simp [hpends m hm] at hp
      · simp [newInfo, hself, rootState]
      · simp [newInfo, hself, rootState]

theorem compare_joins {x : HLinkInfo Name} (h : SourceTree.compare s n = some t)
    (hx : s.info (s.name n).loc.hinfoRef = some x) (he : (s.name n).loc.home = some x.destInode) :
    Moved s t n ((s.name n).goto .reverse) := by
  obtain ⟨hd, hi⟩ := Option.ite_none_right_eq_some.mp he
  have hi := Option.some.inj hi
  simp only [SourceTree.compare, hx, Option.bind_eq_bind, Option.bind_some, hd, hi] at h
  obtain rfl : s.goto n .reverse = t := by simpa using h
  exact (Quiet.refl s).goto n _

theorem Orderly.compare (ho : Orderly T s) (hpc : (s.name n).pc = .compare)
    (h : SourceTree.compare s n = some t) (ht : Tables T t) : Orderly T t := by
  obtain ⟨hfl, hpend, htaken⟩ := ho.unused (n := n) (by rw [hpc]; rfl)
  have hhome := (ho.holder n).home (.inr (.inr hpc))
  have hsees := (ho.tables.single (T.ino n)).sees (n := n) (by rw [hpc]; rfl)
    (by simpa [hpc] using ((ho.tables.single (T.ino n)).name n rfl).asked (by simp [hpc]))
  obtain ⟨x, hx, hmv | ⟨-, -, hmv⟩⟩ := compare_moved h
  · refine ho.calm ht hmv ⟨by simp, by simp [hpend], by simp [htaken]⟩ ⟨rfl, by simp [hfl], rfl⟩
      fun r h' hr hh => ?_
    obtain rfl := Option.some.inj (hsees.symm.trans hr)
    obtain rfl := Option.some.inj (hx.symm.trans hh)
    have hne := ho.ne_remote hr hh hfl
    refine ⟨fun _ _ hd => ?_, fun he => absurd he hne, fun he => absurd he hne⟩
    -- a name with the inode of the root does not come here
    have hdst : (s.name n).dst = some x.destInode := by
      simpa [NeverWaits, hpc, Pc.settled, Pc.early, Pc.looking] using hd
    have hname := (compare_joins h hx (hhome ▸ hdst)).name
    have := congrArg (fun f => (f n).pc) (hmv.name.symm.trans hname)
    simp [NameState.goto] at this
  · refine ho.looks ht hmv hfl ⟨by simp [NameState.goto], ?_, ?_⟩ rfl rfl fun d _ => .inl rfl
    · simp [NameState.goto, hpend]
    · simp [NameState.goto, htaken]

inductive Waited (u v : NameState) (n : Name) (x x' : HLinkInfo Name) : Prop
  | linked (htr : x.transferred = true) (hx : SameRecord x x')
      (hpend : v.loc.out.isPendingHardlink = u.loc.out.isPendingHardlink)
      (hdir : v.tally.dirTaken = u.tally.dirTaken) (hpc : v.pc.settled = true)
  | waits (htr : x.transferred = false) (hx : x' = { x with links := n :: x.links })
      (hpend : v.loc.out.isPendingHardlink = true)
      (hdir : v.tally.dirTaken = u.tally.dirTaken + 1) (hpc : v.pc = .reverse)

theorem relink_waited {fate : SourceTree.Fate} (h : SourceTree.relink s n fate = some t) :
    ∃ x x' v, s.info (s.name n).loc.hinfoRef = some x ∧ Waited (s.name n) v n x x' ∧
      t.fwd = s.fwd ∧ t.name = Function.update s.name n v ∧
      t.info = Function.update s.info (s.name n).loc.hinfoRef (some x') ∧
      v.loc.out.firstLook = (s.name n).loc.out.firstLook ∧
      v.tally.dirReleased = (s.name n).tally.dirReleased := by
  obtain ⟨x, hx, h⟩ := Option.bind_eq_some_iff.mp h
  obtain ⟨-, h⟩ := Option.ite_none_left_eq_some.mp h
  refine ⟨x, ?_⟩
  have hpc : ∀ k : ℕ, (if k = 0 then Pc.retire else .reverse).settled = true := fun k => by
    split <;> rfl
  split at h
  · rename_i htr
    cases fate with
    | linked =>
      obtain ⟨y, -, h⟩ := Option.bind_eq_some_iff.mp h
      obtain rfl := Option.some.inj h
      refine ⟨_, _, hx, ?_, rfl, rfl, rfl, rfl, rfl⟩
      exact .linked htr ⟨rfl, rfl, rfl, rfl⟩ rfl rfl (hpc _)
    | kept =>
      obtain rfl := Option.some.inj h
      refine ⟨_, _, hx, ?_, rfl, rfl, rfl, rfl, rfl⟩
      exact .linked htr ⟨rfl, rfl, rfl, rfl⟩ rfl rfl (hpc _)
    | gone =>
      obtain rfl := Option.some.inj h
      refine ⟨_, _, hx, ?_, rfl, rfl, rfl, rfl, rfl⟩
      exact .linked htr ⟨rfl, rfl, rfl, rfl⟩ rfl rfl rfl
  · rename_i htr
    obtain rfl := Option.some.inj h
    refine ⟨_, _, hx, ?_, rfl, rfl, rfl, rfl, rfl⟩
    exact .waits (by simpa using htr) rfl rfl rfl rfl

theorem Orderly.relink {fate : SourceTree.Fate} (ho : Orderly T s) (hpc : (s.name n).pc = .relink)
    (h : SourceTree.relink s n fate = some t) (ht : Tables T t) : Orderly T t := by
  obtain ⟨hfl, hpend, htaken⟩ := ho.unused (n := n) (by rw [hpc]; rfl)
  have hown := ho.tables.own (n := n) (by rw [hpc]; rfl)
  obtain ⟨x, x', v, hx, hwait, hfwd, hname, hinfo, hflv, hrel⟩ := relink_waited h
  obtain ⟨x₁, hx₁, hw⟩ := ho.waiting _ _ hown
  obtain rfl : x = x₁ := Option.some.inj (hx.symm.trans hx₁)
  have hne := ho.ne_remote hown hx hfl
  have hself : t.name n = v := by rw [hname, Function.update_self]
  have hother : ∀ m, m ≠ n → t.name m = s.name m := fun m hm => by
    rw [hname, Function.update_of_ne hm]
  have hset : v.pc.settled = true := by
    cases hwait with
    | linked _ _ _ _ hp => exact hp
    | waits _ _ _ _ hp => rw [hp]; rfl
  have hhome : ¬ (v.pc = .register ∨ v.pc = .promote ∨ v.pc = .compare) := by
    rintro (hp | hp | hp) <;> simp [hp, Pc.settled, Pc.early, Pc.looking] at hset
  refine ho.after ht (ho.tables.recordStep (by rw [hpc]; rfl) hfwd (relink_nextRef h) hinfo)
    (fun m hm => hother m fun he => hm (congrArg T.ino he)) (fun m _ => ?_) fun r hr => ?_
  · by_cases hmn : m = n
    · rw [hmn, hself]
      cases hwait with
      | linked _ _ hp hd _ => exact ⟨fun hp' => absurd hp' hhome, by simp [hp, hpend], by simp [hd, htaken]⟩
      | waits _ _ hp hd hp' =>
        exact ⟨fun hp' => absurd hp' hhome, fun _ => by rw [hp']; rfl, by simp [hd, htaken, hp]⟩
    · rw [hother m hmn]
      exact ho.holder m
  · rw [hfwd] at hr
    obtain rfl := Option.some.inj (hown.symm.trans hr)
    refine ⟨x', by rw [hinfo, Function.update_self], ?_⟩
    cases hwait with
    | linked _ hsame hp hd _ =>
      exact hw.calm hsame hname ⟨hp, by simp [hfl], hrel⟩
        ⟨fun _ _ _ => .inl hset, fun he => absurd he hne, fun he => absurd he hne⟩
    | waits htr hx' hp hd hp' =>
      subst hx'
      have hroot : t.name x.remote = s.name x.remote := hother _ (Ne.symm hne)
      refine ⟨hw.ino_root, by rw [hroot]; exact hw.firstLook, fun m hm => ?_, fun m hm hpm => ?_,
        fun htr' => ?_, by rw [hroot]; exact hw.retiring, fun hpc' => ?_⟩
      · by_cases hmn : m = n
        · rw [hmn, hself]
          exact ⟨rfl, hp⟩
        · rw [hother m hmn]
          exact hw.links m (by simpa [hmn] using hm)
      · by_cases hmn : m = n
        · exact hmn ▸ List.mem_cons_self
        · rw [hother m hmn] at hpm
          exact List.mem_cons_of_mem _ (hw.listed m hm hpm)
      · simp [htr] at htr'
      · rw [hroot] at hpc'
        rcases hw.ended hpc' with htr' | hnone
        · simp [htr] at htr'
        · -- nobody was to wait any more
          have := (hnone n hw.ino_root.symm hne).2
          simp [NeverWaits, hpc, Pc.settled, Pc.early, Pc.looking] at this

/-- Every entry of the list is given back, and nothing else that the lists see changes. -/
theorem drain_released {fate : Name → SourceTree.Fate} (h : SourceTree.drain s n fate = some t) :
    ∃ x x', s.info (s.name n).loc.hinfoRef = some x ∧
      t.info = Function.update s.info (s.name n).loc.hinfoRef (some x') ∧
      x'.remote = x.remote ∧ x'.links = x.links ∧ x'.transferred = true ∧
      (∀ m, (t.name m).loc = (s.name m).loc ∧
        (t.name m).tally.dirTaken = (s.name m).tally.dirTaken) ∧
      (∀ m ≠ n, (t.name m).tally.dirReleased =
        (s.name m).tally.dirReleased + x.links.count m ∧ (t.name m).pc = (s.name m).pc ∧
          (m ∉ x.links → t.name m = s.name m)) ∧
      ((t.name n).pc = .handleRetire ∨ (t.name n).pc = .done) := by
  obtain ⟨x, hx, h⟩ := Option.bind_eq_some_iff.mp h
  obtain ⟨y, -, h⟩ := Option.bind_eq_some_iff.mp h
  obtain ⟨-, h⟩ := Option.ite_none_left_eq_some.mp h
  obtain rfl := Option.some.inj h
  refine ⟨x, _, hx, rfl, rfl, rfl, rfl, fun m => ?_, fun m hm => ?_, ?_⟩
  · by_cases hm : m = n
    · subst hm
      simp only [State.put, Function.update_self]
      split <;> exact ⟨rfl, rfl⟩
    · simp only [State.put, State.setInfo, Function.update_of_ne hm, SourceTree.drainEntry]
      split <;> exact ⟨rfl, rfl⟩
  · simp only [State.put, State.setInfo, Function.update_of_ne hm, SourceTree.drainEntry]
    split
    · rename_i hc
      exact ⟨by omega, rfl, fun _ => rfl⟩
    · rename_i hc
      exact ⟨rfl, rfl, fun hnot => absurd (List.count_eq_zero.mpr hnot) hc⟩
  · simp only [State.put, Function.update_self]
    split
    · exact .inl rfl
    · exact .inr rfl

theorem Orderly.drain {fate : Name → SourceTree.Fate} (ho : Orderly T s)
    (hpc : (s.name n).pc = .drain) (h : SourceTree.drain s n fate = some t) (ht : Tables T t) :
    Orderly T t := by
  have hown := ho.tables.own (n := n) (by rw [hpc]; rfl)
  obtain ⟨x, x', hx, hinfo, hrem, hlinks, htr, hkept, hother, hend⟩ := drain_released h
  obtain ⟨-, -, -, -, -, -, hfwd, -⟩ := drain_fate (T := T) h
  obtain ⟨x₁, hx₁, hw⟩ := ho.waiting _ _ hown
  obtain rfl : x = x₁ := Option.some.inj (hx.symm.trans hx₁)
  have hpend : ∀ m, (t.name m).loc.out = (s.name m).loc.out := fun m => by rw [(hkept m).1]
  have hself : n ∉ x.links := fun hm => by
    have := (ho.holder n).resolved (hw.links n hm).2
    simp [hpc, Pc.resolved] at this
  have hsettled : (t.name n).pc.settled = true := by rcases hend with h | h <;> rw [h] <;> rfl
  have hholder : ∀ m, Holder (t.name m) := by
    intro m
    by_cases hmn : m = n
    · subst hmn
      refine (ho.holder m).onward (hpend m) (hkept m).2 (fun hp => ?_) hsettled
      rw [hpend] at hp
      exact absurd (hw.listed m rfl hp) hself
    · obtain ⟨-, hp, hsame⟩ := hother m hmn
      refine ⟨fun hlook => ?_, by rw [hpend, hp]; exact (ho.holder m).resolved, ?_⟩
      · rw [hp] at hlook
        rw [hsame fun hm => ?_]
        · exact (ho.holder m).home hlook
        · have := (ho.holder m).resolved (hw.links m hm).2
          rcases hlook with hl | hl | hl <;> simp [hl, Pc.resolved] at this
      · rw [hpend, (hkept m).2]
        exact (ho.holder m).taken
  refine ho.after ht (ho.tables.recordStep (by rw [hpc]; rfl) hfwd (drain_nextRef h) hinfo)
    (fun m hm => (hother m fun he => hm (congrArg T.ino he)).2.2 fun hmem => hm (hw.links m hmem).1)
    (fun m _ => hholder m) fun r hr => ?_
  rw [hfwd] at hr
  obtain rfl := Option.some.inj (hown.symm.trans hr)
  refine ⟨x', by rw [hinfo, Function.update_self], by rw [hrem]; exact hw.ino_root, ?_,
    fun m hm => ?_, fun m hm hp => ?_, fun _ m hm => ?_, fun _ => htr, fun _ => .inl htr⟩
  · rw [hpend, hrem]
    exact hw.firstLook
  · rw [hpend]
    exact hw.links m (hlinks ▸ hm)
  · rw [hlinks]
    exact hw.listed m hm (by rw [← hpend]; exact hp)
  · rw [hlinks] at hm
    have hmn : m ≠ n := fun he => hself (he ▸ hm)
    rw [(hother m hmn).1]
    exact Nat.add_pos_right _ (List.count_pos_iff.mpr hm)

/-- A step of a name that has left the table and does not end its root unhandled. -/
theorem Orderly.onward (ho : Orderly T s) (ht : Tables T t) (hmv : Moved s t n v)
    (hout : v.loc.out = (s.name n).loc.out)
    (hdir : v.tally.dirTaken = (s.name n).tally.dirTaken ∧
      v.tally.dirReleased = (s.name n).tally.dirReleased)
    (hset : v.pc.settled = true)
    (hres : v.loc.out.isPendingHardlink = true → v.pc.resolved = true)
    (hend : ∀ r h, s.fwd (T.ino n) = some r → s.info r = some h → n = h.remote →
      v.pc = .handleRetire ∨ v.pc = .done → h.transferred = true ∨ v.pc = .done ∧ NoneWaits T s h) :
    Orderly T t := by
  refine ho.calm ht hmv ((ho.holder n).onward hout hdir.1 hres hset)
    ⟨by rw [hout], by rw [hout]; exact id, hdir.2⟩ fun r h hr hh => ?_
  refine ⟨fun _ _ _ => .inl hset, fun hn hp => ?_, fun hn hp => ?_⟩
  · exact (hend r h hr hh hn (.inl hp)).resolve_right (by simp [hp])
  · exact (hend r h hr hh hn (.inr hp)).imp_right And.right

/-- The root of an inode that is about to end without being handled: nobody waits for it. -/
def EndsAlone (T : SourceTree Name) (s : State Name) (n : Name) : Prop :=
  (s.name n).loc.out.firstLook = true → ∀ r h, s.fwd (T.ino n) = some r → s.info r = some h →
    NoneWaits T s h

/-- Wherever a root ends without being handled, nobody waits for it, or is going to. -/
def NoneStrands (T : SourceTree Name) (s : State Name) : Op Name → Prop
  | .run n _ => Misses s n ∧ ((s.name n).pc = .transfer →
      (s.name n).loc.out.shouldTransfer = true → T.copied n = false → EndsAlone T s n)
  | .fail n _ => (s.name n).pc = .transfer ∨ (s.name n).pc = .queued → EndsAlone T s n
  | _ => True

theorem Orderly.ends (ho : Orderly T s) (ht : Tables T t) (hmv : Moved s t n v)
    (hp : v.pc = .done) (hout : v.loc.out = (s.name n).loc.out)
    (hdir : v.tally.dirTaken = (s.name n).tally.dirTaken ∧
      v.tally.dirReleased = (s.name n).tally.dirReleased)
    (hend : (s.name n).loc.out.firstLook = true → ∀ r h, s.fwd (T.ino n) = some r →
      s.info r = some h → h.transferred = true ∨ NoneWaits T s h) : Orderly T t := by
  refine ho.onward ht hmv hout hdir (by rw [hp]; rfl) (fun _ => by rw [hp]; rfl)
    fun r h hr hh hn _ => ?_
  obtain ⟨h', hh', hw⟩ := ho.waiting _ r hr
  obtain rfl : h = h' := Option.some.inj (hh.symm.trans hh')
  have hfl := hw.firstLook
  rw [← hn] at hfl
  exact (hend hfl r h hr hh).imp_right fun hnone => ⟨hp, hnone⟩

theorem noneWaits_of_single {h : HLinkInfo Name} (hi : T.ino h.remote = T.ino n)
    (hn : (T.stx n).stx_nlink ≤ 1) : NoneWaits T s h := by
  intro m hm hne
  have := one_lt_nlink hne hm
  rw [T.same_inode m n (hm.trans hi)] at this
  omega

theorem transfer_pending {y : ℕ} (h : T.transfer s n y = some t)
    (hpend : (s.name n).loc.out.isPendingHardlink = true) : t = s.goto n .done := by
  simp only [SourceTree.transfer, hpend, Bool.not_true, Bool.and_false, Bool.false_eq_true,
    if_false, if_true] at h
  exact (Option.some.inj h).symm

theorem Orderly.transfer {y : ℕ} (ho : Orderly T s)
    (hskip : (s.name n).loc.out.shouldTransfer = true → T.copied n = false → EndsAlone T s n)
    (h : T.transfer s n y = some t) (ht : Tables T t) : Orderly T t := by
  have hname := (ho.tables.single (T.ino n)).name n rfl
  obtain ⟨v, hmv, htr⟩ := transfer_moved h
  cases htr with
  | create p hrep _ hp =>
    rcases hp with rfl | ⟨hfl, rfl⟩
    · refine ho.onward ht hmv rfl ⟨rfl, rfl⟩ rfl (fun hpend => ?_) (by simp)
      have hgoto := congrArg (fun u => (u.name n).pc) (transfer_pending h hpend)
      simp [hmv.name, State.goto, State.put, NameState.goto] at hgoto
    · exact ho.ends ht hmv rfl rfl ⟨rfl, rfl⟩ (by simp [hfl])
  | keep _ hfl =>
    refine ho.onward ht hmv rfl ⟨rfl, rfl⟩ rfl (fun hp => ?_) (by simp [NameState.goto])
    have := (hname.first hfl).2
    simp [NameState.goto] at hp
    simp [hp] at this
  | stop hpend =>
    refine ho.ends ht hmv rfl rfl ⟨rfl, rfl⟩ fun hfl => ?_
    have := (hname.first hfl).2
    simp [hpend] at this
  | skip hs hc =>
    exact ho.ends ht hmv rfl rfl ⟨rfl, rfl⟩ fun hfl r x hr hx => .inr (hskip hs hc hfl r x hr hx)
  | count _ _ hfl => exact ho.ends ht hmv rfl rfl ⟨rfl, rfl⟩ (by simp [hfl])

theorem Orderly.publish (ho : Orderly T s) (hpc : (s.name n).pc = .queued)
    (h : T.publish s n = some t) (ht : Tables T t) : Orderly T t := by
  obtain ⟨y, v, -, hmv, -, -, hloc, ⟨hn, hp, htally⟩ | ⟨hn, hp, htally⟩⟩ := publish_moved h
  · refine ho.onward ht hmv (by rw [hloc]) ⟨by rw [htally], by rw [htally]⟩ (by rw [hp]; rfl)
      (fun hpend => ?_) (by simp [hp])
    rw [hloc] at hpend
    have := (ho.holder n).resolved hpend
    simp [hpc, Pc.resolved] at this
  · refine ho.ends ht hmv hp (by rw [hloc]) ⟨by rw [htally], by rw [htally]⟩ fun _ r x hr hx => .inr ?_
    obtain ⟨x', hx', hw⟩ := ho.waiting _ r hr
    obtain rfl : x = x' := Option.some.inj (hx.symm.trans hx')
    exact noneWaits_of_single hw.ino_root hn

theorem Orderly.handle (ho : Orderly T s) (hpc : (s.name n).pc = .handle)
    (ht : Tables T (T.handle s n)) : Orderly T (T.handle s n) := by
  have hask : T.asks n (s.name n) := by
    simpa [hpc] using ((ho.tables.single (T.ino n)).name n rfl).asked (by simp [hpc])
  have hsees := (ho.tables.single (T.ino n)).sees (n := n) (by rw [hpc]; rfl) hask
  revert ht
  rw [SourceTree.handle, hsees]
  refine fun ht => ho.onward ht ((Quiet.refl s).put n _) rfl ⟨rfl, rfl⟩ rfl (fun hpend => ?_)
    (by simp)
  have := (ho.holder n).resolved hpend
  simp [hpc, Pc.resolved] at this

theorem Orderly.handleRetire (ho : Orderly T s) (hpc : (s.name n).pc = .handleRetire)
    (hmiss : Misses s n) (h : T.handleRetire s n = some t) (ht : Tables T t) : Orderly T t := by
  rw [SourceTree.handleRetire, hmiss hpc] at h
  obtain ⟨-, h⟩ := Option.ite_none_left_eq_some.mp h
  obtain rfl := Option.some.inj h
  refine ho.onward ht ((Quiet.refl s).put n _) rfl ⟨rfl, rfl⟩ rfl (fun _ => rfl)
    fun r x hr hx hn _ => .inl ?_
  obtain ⟨x', hx', hw⟩ := ho.waiting _ r hr
  obtain rfl : x = x' := Option.some.inj (hx.symm.trans hx')
  exact hw.retiring (hn ▸ hpc)

theorem Orderly.step {y : ℕ} (ho : Orderly T s) (hg : NoneStrands T s (.run n y))
    (h : T.step s n y = some t) (ht : Tables T t) : Orderly T t := by
  rw [SourceTree.step] at h
  split at h <;> rename_i hpc
  · obtain rfl := Option.some.inj h
    exact ho.start hpc ht
  · obtain rfl := Option.some.inj h
    exact ho.register hpc ht
  · exact ho.promote hpc h ht
  · exact ho.compare hpc h ht
  · exact ho.relink hpc h ht
  · exact absurd hpc (ho.tables.single _).not_retire
  · obtain ⟨p, hmv, hp⟩ := reverse_moved h
    refine ho.onward ht hmv rfl ⟨rfl, rfl⟩ ?_ (fun _ => ?_) ?_
    · rcases hp with rfl | rfl | rfl <;> rfl
    · rcases hp with rfl | rfl | rfl <;> rfl
    · rcases hp with rfl | rfl | rfl <;> simp [NameState.goto]
  · exact ho.onward ht (revPromote_moved h) rfl ⟨rfl, rfl⟩ rfl (fun _ => rfl) (by simp)
  · exact ho.onward ht (revRetire_moved h) rfl ⟨rfl, rfl⟩ rfl (fun _ => rfl)
      (by simp [NameState.goto])
  · exact ho.transfer (hg.2 hpc) h ht
  · exact ho.publish hpc h ht
  · obtain rfl := Option.some.inj h
    exact ho.handle hpc ht
  · exact ho.drain hpc h ht
  · exact ho.handleRetire hpc hg.1 h ht
  · cases h
  · cases h

theorem Orderly.stepFails {fate : Name → SourceTree.Fate} (ho : Orderly T s)
    (hg : NoneStrands T s (.fail n fate)) (h : T.stepFails s n fate = some t) (ht : Tables T t) :
    Orderly T t := by
  rw [SourceTree.stepFails] at h
  split at h <;> rename_i hpc
  · exact ho.relink hpc h ht
  · obtain ⟨-, h⟩ := Option.ite_none_right_eq_some.mp h
    obtain rfl := Option.some.inj h
    exact ho.ends ht ((Quiet.refl s).goto n _) rfl rfl ⟨rfl, rfl⟩
      fun hfl r x hr hx => .inr (hg (.inl hpc) hfl r x hr hx)
  · obtain ⟨v, hmv, hp, hloc, htally⟩ := publishFails_moved h
    exact ho.ends ht hmv hp (by rw [hloc]) ⟨by rw [htally], by rw [htally]⟩
      fun hfl r x hr hx => .inr (hg (.inr hpc) hfl r x hr hx)
  · exact ho.drain hpc h ht
  · cases h

theorem Orderly.reuse (ho : Orderly T s) (ht : Tables T t) (hfwd : t.fwd = s.fwd)
    (hname : t.name = s.name) (hinfo : ∀ r h, s.info r = some h → t.info r = some h) :
    Orderly T t := by
  refine ⟨ht, fun m => by rw [hname]; exact ho.holder m, fun i r hr => ?_⟩
  rw [hfwd] at hr
  obtain ⟨h, hh, hw⟩ := ho.waiting i r hr
  exact ⟨h, hinfo r h hh, hw.frame fun m _ => by rw [hname]⟩

theorem NoneStrands.allMiss {op : Op Name} (hg : NoneStrands T s op) : AllMiss s op := by
  cases op with
  | run n y => exact hg.1
  | _ => exact True.intro

theorem Orderly.next {op : Op Name} (ho : Orderly T s) (hg : NoneStrands T s op)
    (h : T.next s op = some t) : Orderly T t := by
  have ht := ho.tables.next hg.allMiss h
  cases op with
  | run n y => exact ho.step hg h ht
  | fail n fate => exact ho.stepFails hg h ht
  | reuseInfo r x =>
    obtain ⟨⟨-, hnone⟩, h⟩ := Option.ite_none_right_eq_some.mp h
    obtain rfl := Option.some.inj h
    refine ho.reuse ht rfl rfl fun r' x' hr' => ?_
    have hne : r' ≠ r := by
      rintro rfl
      simp [hr'] at hnone
    exact (Function.update_of_ne hne _ _).trans hr'
  | reuseRevinfo q x =>
    obtain ⟨-, h⟩ := Option.ite_none_right_eq_some.mp h
    obtain rfl := Option.some.inj h
    exact ho.reuse ht rfl rfl fun _ _ => id

theorem Orderly.reach (h : T.system.Reach (NoneStrands T) s) : Orderly T s := by
  refine h.invariant ?_ fun s op t ho hg hn => ho.next hg hn
  rintro s ⟨dst, rfl⟩
  exact ⟨.init, fun _ => ⟨by simp, by simp, by simp⟩, by simp⟩

/-- The processing of the root is over: its pending names have been given back what they
hold, and no step makes another name wait. -/
structure NoneStranded (T : SourceTree Name) (s : State Name) (i : ℕ) : Prop where
  released : ∀ n, T.ino n = i → (s.name n).loc.out.isPendingHardlink = true →
    (s.name n).tally.dirTaken ≤ (s.name n).tally.dirReleased
  later : ∀ op t, T.next s op = some t → ∀ n, T.ino n = i →
    (t.name n).loc.out.isPendingHardlink = true → (s.name n).loc.out.isPendingHardlink = true

structure Joins (s : State Name) (n : Name) : Prop where
  pc : (s.name n).pc = .relink
  record : ∃ x, s.info (s.name n).loc.hinfoRef = some x ∧ x.transferred = false

theorem relink_joins {fate : SourceTree.Fate} (hpc : (s.name n).pc = .relink)
    (h : SourceTree.relink s n fate = some t) (hp : (t.name n).loc.out.isPendingHardlink = true) :
    (s.name n).loc.out.isPendingHardlink = true ∨ Joins s n := by
  obtain ⟨x, x', v, hx, hwait, -, hname, -⟩ := relink_waited h
  rw [hname, Function.update_self] at hp
  cases hwait with
  | linked _ _ hpend _ _ => exact .inl (hpend ▸ hp)
  | waits htr _ _ _ _ => exact .inr ⟨hpc, x, hx, htr⟩

theorem handle_out : ((T.handle s n).name n).loc.out = (s.name n).loc.out := by
  rw [SourceTree.handle]
  split <;> simp [State.put, State.finish, NameState.finish]

theorem step_joins {y : ℕ} (h : T.step s n y = some t)
    (hp : (t.name n).loc.out.isPendingHardlink = true) :
    (s.name n).loc.out.isPendingHardlink = true ∨ Joins s n := by
  have moved : ∀ v, t.name = Function.update s.name n v →
      (v.loc.out.isPendingHardlink = true → (s.name n).loc.out.isPendingHardlink = true) →
      (s.name n).loc.out.isPendingHardlink = true ∨ Joins s n := fun v hname hv => by
    rw [hname, Function.update_self] at hp
    exact .inl (hv hp)
  rw [SourceTree.step] at h
  split at h <;> rename_i hpc
  · obtain rfl := Option.some.inj h
    obtain ⟨v, hmv, -, -, -, hv⟩ := start_moved (T := T) (s := s) (n := n)
    refine moved v hmv.name fun hp => ?_
    rcases hv with ⟨-, hloc⟩ | ⟨-, -, hloc⟩ <;> simp [hloc, statDest_out] at hp
  · obtain rfl := Option.some.inj h
    rw [SourceTree.register] at hp
    split at hp <;> simp [State.put] at hp
  · rcases promote_cases h with ⟨-, hmv⟩ | ⟨-, mismatch, -, hr⟩
    · exact moved _ hmv.name id
    · exact moved _ hr.name (by simp [rootState])
  · obtain ⟨x, -, hmv | ⟨-, -, hmv⟩⟩ := compare_moved h
    · exact moved _ hmv.name id
    · exact moved _ hmv.name id
  · exact relink_joins hpc h hp
  · exact moved _ (retire_name h) id
  · obtain ⟨p, hmv, -⟩ := reverse_moved h
    exact moved _ hmv.name id
  · exact moved _ (revPromote_moved h).name id
  · exact moved _ (revRetire_moved h).name id
  · obtain ⟨v, hmv, htr⟩ := transfer_moved h
    refine moved v hmv.name ?_
    cases htr <;> exact id
  · obtain ⟨y, v, -, hmv, -, -, hloc, -⟩ := publish_moved h
    refine moved v hmv.name ?_
    rw [hloc]
    exact id
  · obtain rfl := Option.some.inj h
    rw [handle_out] at hp
    exact .inl hp
  · obtain ⟨x, x', -, -, -, -, -, hkept, -⟩ := drain_released h
    rw [(hkept n).1] at hp
    exact .inl hp
  · exact moved _ (handleRetire_name h).2 id
  · cases h
  · cases h

theorem stepFails_joins {fate : Name → SourceTree.Fate} (h : T.stepFails s n fate = some t)
    (hp : (t.name n).loc.out.isPendingHardlink = true) :
    (s.name n).loc.out.isPendingHardlink = true ∨ Joins s n := by
  rw [SourceTree.stepFails] at h
  split at h <;> rename_i hpc
  · exact relink_joins hpc h hp
  · obtain ⟨-, h⟩ := Option.ite_none_right_eq_some.mp h
    obtain rfl := Option.some.inj h
    rw [((Quiet.refl s).goto n .done).name, Function.update_self] at hp
    exact .inl hp
  · obtain ⟨v, hmv, -, hloc, -⟩ := publishFails_moved h
    rw [hmv.name, Function.update_self, hloc] at hp
    exact .inl hp
  · obtain ⟨x, x', -, -, -, -, -, hkept, -⟩ := drain_released h
    rw [(hkept n).1] at hp
    exact .inl hp
  · cases h

theorem next_joins {op : Op Name} (h : T.next s op = some t)
    (hp : (t.name n).loc.out.isPendingHardlink = true) :
    (s.name n).loc.out.isPendingHardlink = true ∨ Joins s n := by
  cases op with
  | run m y =>
    by_cases hm : n = m
    · subst hm
      exact step_joins h hp
    · rw [(step_thread h hm).loc] at hp
      exact .inl hp
  | fail m fate =>
    by_cases hm : n = m
    · subst hm
      exact stepFails_joins h hp
    · rw [(stepFails_thread h hm).loc] at hp
      exact .inl hp
  | reuseInfo r x =>
    obtain ⟨-, h⟩ := Option.ite_none_right_eq_some.mp h
    obtain rfl := Option.some.inj h
    exact .inl hp
  | reuseRevinfo q x =>
    obtain ⟨-, h⟩ := Option.ite_none_right_eq_some.mp h
    obtain rfl := Option.some.inj h
    exact .inl hp

theorem Orderly.noneStranded (ho : Orderly T s) (hroot : IsRoot T s i m)
    (hdone : (s.name m).pc = .done) : NoneStranded T s i := by
  obtain ⟨rfl, ⟨hask, -⟩, hfl⟩ := hroot
  have hsees := (ho.tables.single _).sees (by rw [hdone]; rfl) hask
  obtain ⟨h, hh, hw⟩ := ho.waiting _ _ hsees
  obtain ⟨k, hk, -, -, -, hall⟩ := (ho.tables.single _).root _ hsees
  have only : ∀ a, T.ino a = T.ino m → (s.name a).loc.out.firstLook = true → a = k := by
    intro a ha hfa
    by_contra hne
    have := (hall a ha hne).firstLook
    simp [hfa] at this
  obtain rfl : h.remote = m := (only _ hw.ino_root hw.firstLook).trans (only m rfl hfl).symm
  have hended := hw.ended hdone
  have hpend : ∀ n, T.ino n = T.ino h.remote → (s.name n).loc.out.isPendingHardlink = true →
      h.transferred = true := by
    intro n hn hp
    refine hended.resolve_right fun hnone => ?_
    by_cases hne : n = h.remote
    · have := (((ho.tables.single _).name _ hn).first (by rw [hne]; exact hfl)).2
      simp [hp] at this
    · simp [(hnone n hn hne).1] at hp
  refine ⟨fun n hn hp => ?_, fun op t hnext n hn hp => ?_⟩
  · have hpos := hw.released (hpend n hn hp) n (hw.listed n hn hp)
    have := (ho.holder n).taken
    rw [hp] at this
    exact this.trans hpos
  · refine (next_joins hnext hp).resolve_right fun hj => ?_
    obtain ⟨x, hx, htr⟩ := hj.record
    have hown := ho.tables.own (n := n) (by rw [hj.pc]; rfl)
    rw [hn, hsees] at hown
    rw [← Option.some.inj hown, hh] at hx
    obtain rfl := Option.some.inj hx
    have hne : n ≠ h.remote := by
      rintro rfl
      simpa [hdone] using hj.pc
    have hnone := hended.resolve_left (by simp [htr])
    have := (hnone n hn hne).2
    simp [NeverWaits, hj.pc, Pc.settled, Pc.early, Pc.looking] at this

/-- In every run in which no root ends unhandled while others wait for it, or are going to, all
that waited for a root has been given back when the root is over. -/
theorem pending_not_stranded (T : SourceTree Name) (h : T.system.Reach (NoneStrands T) s)
    (hroot : IsRoot T s i m) (hdone : (s.name m).pc = .done) : NoneStranded T s i :=
  (Orderly.reach h).noneStranded hroot hdone

instance (d : ℕ) (v : NameState) : Decidable (NeverWaits d v) :=
  inferInstanceAs (Decidable (_ ∨ _))

instance (h : HLinkInfo Name) : Decidable (NoneWaits T s h) :=
  inferInstanceAs (Decidable (∀ _, _))

def noneStrands (s : State (Fin 3)) : Op (Fin 3) → Bool
  | .run n _ => (s.name n).pc != .handleRetire
  | .fail n _ => (s.fwd (sampleTree.ino n)).all fun r => (s.info r).all fun h =>
    decide (NoneWaits sampleTree s h)
  | _ => false

theorem noneStrands_sound {s : State (Fin 3)} {op : Op (Fin 3)} (h : noneStrands s op = true) :
    NoneStrands sampleTree s op := by
  cases op with
  | run n y =>
    refine ⟨fun hpc => absurd hpc (by simpa [noneStrands] using h), fun _ _ hc => ?_⟩
    have hall : ∀ n, sampleTree.copied n = true := by decide
    simp [hall n] at hc
  | fail n fate =>
    intro _ _ r x hr hx
    simpa [noneStrands, hr, hx] using h
  | _ => cases h

/-- A run at whose end the root 0 is over. -/
theorem noneStrands_run (start : State (Fin 3)) (run : List (Op (Fin 3))) {p : Bool} {k : ℕ}
    (hstart : sampleTree.system.init start)
    (h : ((sampleTree.system.exec noneStrands start run).map fun s =>
      ((s.name 1).loc.out.isPendingHardlink, (s.name 0).tally.handled,
        (s.name 0).loc.out.firstLook, (s.name 0).pc)) = some (p, k, true, .done)) :
    ∃ s, sampleTree.system.Reach (NoneStrands sampleTree) s ∧
      IsRoot sampleTree s 1 0 ∧ (s.name 0).pc = .done ∧
      (s.name 1).loc.out.isPendingHardlink = p ∧ (s.name 0).tally.handled = k := by
  obtain ⟨s, hs, hend⟩ := Option.map_eq_some_iff.mp h
  simp only [Prod.mk.injEq] at hend
  obtain ⟨hpend, hhandled, hfl, hdone⟩ := hend
  exact ⟨s, ⟨start, hstart, .of_exec _ (fun _ _ _ h => noneStrands_sound h) hs⟩,
    ⟨rfl, ⟨.inl (by decide), by rw [hdone]; rfl⟩, hfl⟩, hdone, hpend, hhandled⟩

/-- Name 1 waits for the root 0, which is then copied and handled. -/
def waitRun : List (Op (Fin 3)) :=
  List.replicate 3 (.run 0 0) ++ List.replicate 5 (.run 1 0) ++ .run 0 11 ::
    List.replicate 3 (.run 0 0)

/-- The finish job of the root 0 fails, and then name 1 is found to be a link of it. -/
def aloneRun : List (Op (Fin 3)) :=
  List.replicate 4 (.run 0 0) ++ .fail 0 (fun _ => .kept) :: List.replicate 5 (.run 1 0)

theorem pending_not_stranded_sample :
    (∃ s, (s.name 1).loc.out.isPendingHardlink = true ∧ NoneStranded sampleTree s 1) ∧
    ∃ s, (s.name 0).pc = .done ∧ (s.name 0).tally.handled = 0 ∧ NoneStranded sampleTree s 1 := by
  constructor
  · obtain ⟨s, hreach, hroot, hdone, hpend, -⟩ := noneStrands_run emptyStart waitRun
      (p := true) (k := 1) ⟨_, rfl⟩ (by decide +kernel)
    exact ⟨s, hpend, pending_not_stranded sampleTree hreach hroot hdone⟩
  · obtain ⟨s, hreach, hroot, hdone, -, hhandled⟩ := noneStrands_run sharedStart aloneRun
      (p := false) (k := 0) ⟨_, rfl⟩ (by decide +kernel)
    exact ⟨s, hdone, hhandled, pending_not_stranded sampleTree hreach hroot hdone⟩

/-- Name 1 waits for the root 0, whose file then cannot be opened. -/
def failRun : List (Op (Fin 3)) :=
  List.replicate 3 (.run 0 0) ++ List.replicate 5 (.run 1 0) ++
    [.fail 0 fun _ => .kept]

theorem failed_root_strands : ¬ ∀ s, sampleTree.system.Reach (fun _ _ => True) s →
    ∀ m, IsRoot sampleTree s 1 m → (s.name m).pc = .done → NoneStranded sampleTree s 1 := by
  intro hall
  obtain ⟨s, hs⟩ := Option.isSome_iff_exists.mp (show (sampleTree.system.exec
    (fun _ _ => true) emptyStart failRun).isSome = true by decide +kernel)
  have hend : ((sampleTree.system.exec (fun _ _ => true) emptyStart failRun).map
      fun s => ((s.name 0).loc.out.firstLook, (s.name 0).pc,
        (s.name 1).loc.out.isPendingHardlink, (s.name 1).tally.dirTaken,
        (s.name 1).tally.dirReleased)) = some (true, .done, true, 1, 0) := by decide +kernel
  have hreach : sampleTree.system.Reach (fun _ _ => True) s :=
    ⟨emptyStart, ⟨fun _ => none, rfl⟩, .of_exec _ (fun _ _ _ _ => trivial) hs⟩
  rw [hs] at hend
  simp only [Option.map_some, Option.some.injEq, Prod.mk.injEq] at hend
  obtain ⟨hfl, hdone, hpend, htaken, hreleased⟩ := hend
  have hstranded := hall s hreach 0 ⟨by decide, ⟨.inl (by decide), by rw [hdone]; rfl⟩, hfl⟩ hdone
  have := hstranded.released 1 (by decide) hpend
  omega

end Copy2.HLink
