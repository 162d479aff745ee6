import Copy2.HLink.RootSteps

/-! # Links stay together

Every group is kept by every step, as long as no name is compared with a root that is
still to be replaced while it has that root's recorded inode. -/
namespace Copy2.HLink
open FileJob Lib Os

set_option linter.unusedSectionVars false

variable {Name : Type} [Fintype Name] [DecidableEq Name]
variable {T : SourceTree Name} {s t : State Name} {n : Name} {v : NameState}

/-- Names may follow a root of their group; nothing else happens to the inodes. -/
theorem Fresh.follow (hf : Fresh T s) (root : Name)
    (hdst : ∀ m, (t.name m).dst = (s.name m).dst ∨
      (t.name m).dst = (s.name root).dst ∧ T.ino m = T.ino root ∧
        (t.name m).loc.out.firstLook = false ∧ (t.name m).pc.settled = true)
    (htmp : ∀ m, (t.name m).tmp = (s.name m).tmp)
    (hrep : ∀ m, Replaced T m (t.name m) → Replaced T m (s.name m))
    (hset : ∀ m, (s.name m).pc.settled = true → (t.name m).pc.settled = true) : Fresh T t where
  unused m y hm k := by
    rw [htmp m] at hm
    rcases hdst k with hk | ⟨hk, -⟩
    · rw [hk]
      exact hf.unused m y hm k
    · rw [hk]
      exact hf.unused m y hm root
  own m y hm k hk := by
    rw [htmp] at hm hk
    exact hf.own m y hm k hk
  replaced m h1 h2 h3 k hk := by
    obtain ⟨g1, g2, g3⟩ := hrep m ⟨h1, h2, h3⟩
    have hm : (t.name m).dst = (s.name m).dst := by
      rcases hdst m with hm | ⟨-, -, hfl, -⟩
      · exact hm
      · simp [h2] at hfl
    rcases hdst k with hk' | ⟨hk', hino, -, hset'⟩
    · obtain ⟨hi, hs⟩ := hf.replaced m g1 g2 g3 k (hk'.symm.trans (hk.trans hm))
      exact ⟨hi, hset k hs⟩
    · obtain ⟨hi, -⟩ := hf.replaced m g1 g2 g3 root (hk'.symm.trans (hk.trans hm))
      exact ⟨hino.trans hi, hset'⟩

theorem Fresh.moved (hf : Fresh T s) (hmv : Moved s t n v) (hdst : v.dst = (s.name n).dst)
    (htmp : v.tmp = (s.name n).tmp) (hrep : Replaced T n v → Replaced T n (s.name n))
    (hset : (s.name n).pc.settled = true → v.pc.settled = true) : Fresh T t := by
  have hname : ∀ m, t.name m = if m = n then v else s.name m := fun m => by
    rw [hmv.name, Function.update_apply]
  refine hf.follow n (fun m => .inl ?_) (fun m => ?_) (fun m => ?_) fun m => ?_ <;>
    rw [hname m] <;> split <;> rename_i hm
  · rw [hm, hdst]
  · rfl
  · rw [hm, htmp]
  · rfl
  · subst hm
    exact hrep
  · exact id
  · subst hm
    exact hset
  · exact id

/-- A temporary file is created under an inode that nothing uses. -/
theorem Fresh.create {y : ℕ} (hf : Fresh T s) (hmv : Moved s t n v)
    (hdst : v.dst = (s.name n).dst) (htmp : v.tmp = some y) (hy : s.nlink T y = 0)
    (hrep : ¬ Replaced T n v) (hset : (s.name n).pc.settled = true → v.pc.settled = true) :
    Fresh T t := by
  have hname : ∀ m, t.name m = if m = n then v else s.name m := fun m => by
    rw [hmv.name, Function.update_apply]
  have hdst' : ∀ m, (t.name m).dst = (s.name m).dst := fun m => by
    rw [hname m]
    split
    · rename_i hm
      rw [hm, hdst]
    · rfl
  rw [State.nlink, Nat.add_eq_zero_iff, Nat.add_eq_zero_iff] at hy
  have hno : ∀ m, (s.name m).dst ≠ some y := fun m hm => by
    simpa [hm] using count_eq_zero.mp hy.1.2 m
  have hnot : ∀ m, (s.name m).tmp ≠ some y := fun m hm => by
    simpa [hm] using count_eq_zero.mp hy.2 m
  refine ⟨fun m z hm k => ?_, fun m z hm k hk => ?_, fun m h1 h2 h3 k hk => ?_⟩
  · rw [hdst' k]
    rw [hname m] at hm
    split at hm
    · obtain rfl : y = z := Option.some.inj (htmp.symm.trans hm)
      exact hno k
    · exact hf.unused m z hm k
  · rw [hname m] at hm
    rw [hname k] at hk
    split at hm <;> split at hk <;> rename_i h₁ h₂
    · rw [h₁, h₂]
    · obtain rfl : y = z := Option.some.inj (htmp.symm.trans hm)
      exact absurd hk (hnot k)
    · obtain rfl : y = z := Option.some.inj (htmp.symm.trans hk)
      exact absurd hm (hnot m)
    · exact hf.own m z hm k hk
  · have hmn : m ≠ n := by
      rintro rfl
      rw [hname m, if_pos rfl] at h1 h2 h3
      exact hrep ⟨h1, h2, h3⟩
    rw [hdst', hdst'] at hk
    rw [hname m, if_neg hmn] at h1 h2 h3
    obtain ⟨hi, hs⟩ := hf.replaced m h1 h2 h3 k hk
    refine ⟨hi, ?_⟩
    rw [hname k]
    split
    · rename_i hkn
      exact hset (hkn ▸ hs)
    · exact hs

/-- The temporary file takes the name. -/
theorem Fresh.publish {y : ℕ} (hf : Fresh T s) (hmv : Moved s t n v)
    (hy : (s.name n).tmp = some y) (hdst : v.dst = some y) (htmp : v.tmp = none)
    (hset : v.pc.settled = true) : Fresh T t := by
  have hname : ∀ m, t.name m = if m = n then v else s.name m := fun m => by
    rw [hmv.name, Function.update_apply]
  refine ⟨fun m z hm k => ?_, fun m z hm k hk => ?_, fun m h1 h2 h3 k hk => ?_⟩
  · rw [hname m] at hm
    split at hm
    · simp [htmp] at hm
    · rename_i hmn
      rw [hname k]
      split
      · rw [hdst]
        rintro he
        exact hmn (hf.own n y hy m (hm.trans he.symm))
      · exact hf.unused m z hm k
  · rw [hname m] at hm
    rw [hname k] at hk
    split at hm
    · simp [htmp] at hm
    · split at hk
      · simp [htmp] at hk
      · exact hf.own m z hm k hk
  · rw [hname k] at hk ⊢
    rw [hname m] at h1 h2 h3 hk
    by_cases hkn : k = n
    · rw [if_pos hkn] at hk ⊢
      by_cases hmn : m = n
      · exact ⟨by rw [hkn, hmn], hset⟩
      · rw [if_neg hmn, hdst] at hk
        exact absurd hk.symm (hf.unused n y hy m)
    · rw [if_neg hkn] at hk ⊢
      by_cases hmn : m = n
      · rw [if_pos hmn, hdst] at hk
        exact absurd hk (hf.unused n y hy k)
      · rw [if_neg hmn] at h1 h2 h3 hk
        exact hf.replaced m h1 h2 h3 k hk

theorem Fresh.change (hf : Fresh T s) (hmv : Moved s t n v) (hc : Change T s n v) : Fresh T t := by
  cases hc.files with
  | same hdst htmp hrep => exact hf.moved hmv hdst htmp hrep hc.settled
  | create y hy hdst htmp hb =>
    refine hf.create hmv hdst htmp hy (fun hr => ?_) hc.settled
    have := hr.2.2
    simp [hb] at this
  | publish y hy hdst htmp hset => exact hf.publish hmv hy hdst htmp hset

structure Sound (T : SourceTree Name) (s : State Name) : Prop where
  group : ∀ i, Group T s i
  fresh : Fresh T s

theorem Sound.moved (hs : Sound T s) (hmv : Moved s t n v) (hok : MoveOk T s n v) : Sound T t where
  group i := by
    by_cases hi : i = T.ino n
    · subst hi
      exact (hs.group _).moved rfl hmv hok
    · exact (hs.group i).frame (hmv.other hi)
  fresh := hs.fresh.change hmv hok.change

theorem Sound.rooted {mismatch : Bool} (hs : Sound T s) (hpc : (s.name n).pc = .promote)
    (hf : s.fwd (T.ino n) = none) (h : Rooted T s t n mismatch) : Sound T t where
  group i := by
    by_cases hi : i = T.ino n
    · subst hi
      exact (hs.group _).rooted hpc hf h
    · exact (hs.group i).frame (h.other (hs.group i) hi)
  fresh := by
    have hname : ∀ m, t.name m = if m = n then rootState (s.name n) s.nextRef mismatch else s.name m :=
      fun m => by rw [h.name, Function.update_apply]
    refine hs.fresh.follow n (fun m => .inl ?_) (fun m => ?_) (fun m => ?_) fun m => ?_ <;>
      rw [hname m] <;> split <;> rename_i hm
    · rw [hm, rootState]
    · rfl
    · rw [hm, rootState]
    · rfl
    · exact fun hr => absurd hr.2.2 (by simp [rootState, Pc.before])
    · exact id
    · exact fun _ => rfl
    · exact id

theorem Sound.relinked {r : Ref} {h h' : HLinkInfo Name} (hs : Sound T s)
    (hpc : (s.name n).pc = .relink) (hf : s.fwd (T.ino n) = some r)
    (hreg : Registered T s (T.ino n) r h) (hrl : Relinked T s t n v r h h')
    (hgroup : Group T t (T.ino n))
    (hdst : v.dst = (s.name n).dst ∨ v.dst = (s.name h.remote).dst)
    (htmp : v.tmp = (s.name n).tmp) (hfl : v.loc.out.firstLook = false) (hv : v.pc = .reverse) :
    Sound T t where
  group i := by
    by_cases hi : i = T.ino n
    · exact hi ▸ hgroup
    · exact (hs.group i).frame (hrl.other hf (hs.group _) (hs.group i) hi)
  fresh := by
    have hname : ∀ m, t.name m = if m = n then v else s.name m := fun m => by
      rw [hrl.name, Function.update_apply]
    have hset : v.pc.settled = true := by rw [hv]; rfl
    refine hs.fresh.follow h.remote (fun m => ?_) (fun m => ?_) (fun m => ?_) fun m => ?_ <;>
      rw [hname m] <;> split <;> rename_i hm
    · subst hm
      exact hdst.imp_right fun hd => ⟨hd, hreg.ino_root.symm, hfl, hset⟩
    · exact .inl rfl
    · rw [hm, htmp]
    · rfl
    · exact fun hr => absurd hr.2.1 (by simp [hfl])
    · exact id
    · exact fun _ => hset
    · exact id

theorem Sound.drained {r : Ref} {h : HLinkInfo Name} {y : ℕ} (hs : Sound T s)
    (hpc : (s.name n).pc = .drain) (hf : s.fwd (T.ino n) = some r) (hroot : n = h.remote)
    (hreg : Registered T s (T.ino n) r h) (hy : (s.name n).dst = some y)
    (hd : Drained s t n r h y) : Sound T t := by
  obtain ⟨hname, hgroup⟩ := (hs.group _).drained hpc hf hroot hreg hy hd
  have hself : ∀ m, m ≠ n → (t.name m).loc = (s.name m).loc ∧ (t.name m).pc = (s.name m).pc ∧
      (t.name m).tmp = (s.name m).tmp := fun m hm => by
    obtain ⟨h1, h2, h3, -⟩ := drainEntry_same y (h.links.count m) (s.name m)
    rw [hd.other m hm]
    exact ⟨h1, h2, h3⟩
  refine ⟨fun i => ?_, hs.fresh.follow n (fun m => ?_) (fun m => ?_) (fun m => ?_) fun m => ?_⟩
  · by_cases hi : i = T.ino n
    · exact hi ▸ hgroup
    · exact (hs.group i).frame (hd.other_group hf (hs.group _) (hs.group i) hreg hi)
  · by_cases hm : m = n
    · subst hm
      exact .inl (by rw [hname, NameState.finish, NameState.handled])
    · by_cases hl : m ∈ h.links
      · obtain ⟨hi, hne, -, hres⟩ := hreg.links m hl
        obtain ⟨hloc, hpc', -⟩ := hself m hm
        refine .inr ⟨?_, hi, ?_, ?_⟩
        · rw [hd.other m hm, drainEntry_of_mem hl hreg.nodup, hy]
        · rw [hloc]
          exact (hreg.member m hi hne).firstLook
        · rw [hpc']
          revert hres
          cases (s.name m).pc <;> decide
      · exact .inl (by rw [hd.other m hm, drainEntry_of_notMem hl])
  · by_cases hm : m = n
    · subst hm
      rw [hname, NameState.finish, NameState.handled]
    · exact (hself m hm).2.2
  · by_cases hm : m = n
    · subst hm
      rw [hname]
      exact fun hr => ⟨hr.1, hr.2.1, by rw [hpc]; rfl⟩
    · obtain ⟨hloc, hpc', -⟩ := hself m hm
      rw [Replaced, Replaced, SourceTree.replaces, SourceTree.replaces, hloc, hpc']
      exact id
  · by_cases hm : m = n
    · subst hm
      rw [hname]
      exact fun _ => rfl
    · rw [(hself m hm).2.1]
      exact id

def linkState (v : NameState) (y : ℕ) : NameState :=
  { v with
    dst := some y
    tally := { v.tally with direct := v.tally.direct + 1 }
    pc := .reverse }

def waitState (v : NameState) : NameState :=
  { v with
    loc := { v.loc with out := { v.loc.out with isPendingHardlink := true } }
    tally := { v.tally with dirTaken := v.tally.dirTaken + 1, pathTaken := v.tally.pathTaken + 1 }
    pc := .reverse }

/-- A step of a name: it moves on, becomes a root, is linked, waits, or, being a root,
links all that wait for it. -/
inductive StepCase (T : SourceTree Name) (s t : State Name) (n : Name) : Prop
  | move (v : NameState) (hmv : Moved s t n v) (hok : MoveOk T s n v)
  | root (mismatch : Bool) (hpc : (s.name n).pc = .promote) (hf : s.fwd (T.ino n) = none)
      (hmis : T.revMismatch s n = some mismatch) (h : Rooted T s t n mismatch)
  | link (r : Ref) (h : HLinkInfo Name) (y : ℕ) (hpc : (s.name n).pc = .relink)
      (hf : s.fwd (T.ino n) = some r) (hh : s.info r = some h)
      (hreg : Registered T s (T.ino n) r h) (htr : h.transferred = true) (hne : n ≠ h.remote)
      (hy : (s.name h.remote).dst = some y)
      (hrl : Relinked T s t n (linkState (s.name n) y) r h
        { h with nlinkRC := decSize h.nlinkRC })
  | wait (r : Ref) (h : HLinkInfo Name) (hpc : (s.name n).pc = .relink)
      (hf : s.fwd (T.ino n) = some r) (hh : s.info r = some h)
      (hreg : Registered T s (T.ino n) r h) (htr : h.transferred = false) (hne : n ≠ h.remote)
      (hrl : Relinked T s t n (waitState (s.name n)) r h { h with links := n :: h.links })
  | drain (r : Ref) (h : HLinkInfo Name) (y : ℕ) (hpc : (s.name n).pc = .drain)
      (hf : s.fwd (T.ino n) = some r) (hh : s.info r = some h) (hroot : n = h.remote)
      (hreg : Registered T s (T.ino n) r h) (hy : (s.name n).dst = some y)
      (hd : Drained s t n r h y)

theorem Group.relink_stepCase (hg : Group T s (T.ino n)) (hpc : (s.name n).pc = .relink)
    (h : SourceTree.relink s n .linked = some t) : StepCase T s t n := by
  obtain ⟨r, x, hf, hx, hne, hreg, hm, href⟩ := hg.looking_cases (by rw [hpc]; rfl)
  obtain ⟨x', hx', hcase⟩ := relink_cases (T := T) h
  rw [href] at hx' hcase
  obtain rfl : x = x' := Option.some.inj (hx.symm.trans hx')
  cases hcase with
  | link y htr _ hy hrl =>
    have hpos := (hg.link (t := t) hpc hf hreg htr hne hy).1
    rw [if_neg hpos.ne'] at hrl
    exact .link r x y hpc hf hx hreg htr hne hy hrl
  | wait htr hrl => exact .wait r x hpc hf hx hreg htr hne hrl

theorem Group.drain_stepCase (hg : Group T s (T.ino n)) (hpc : (s.name n).pc = .drain)
    (h : SourceTree.drain s n (fun _ => .linked) = some t) : StepCase T s t n := by
  obtain ⟨x', y, hx', -, hy, hd⟩ := drain_cases h
  have hn := (hg.names n rfl).linked (.inr hpc)
  refine hg.rooted_cases (by rw [hpc]; rfl) (by rw [hpc]; rfl) (by rw [hpc]; rfl) ?_ ?_
  · intro _ hn' _
    omega
  · intro r x hf hx hroot hreg hr
    rw [hr.drain hpc] at hx' hd
    obtain rfl : x = x' := Option.some.inj (hx.symm.trans hx')
    exact .drain r x y hpc hf hx hroot hreg hy hd

/-- The inversion of one step of a name. What the comparison with the root does depends on
more than the group. -/
theorem Group.step_cases {y : ℕ} (hg : Group T s (T.ino n))
    (hcmp : (s.name n).pc = .compare → SourceTree.compare s n = some t →
      ∃ v, Moved s t n v ∧ MoveOk T s n v)
    (h : T.step s n y = some t) : StepCase T s t n := by
  rw [SourceTree.step] at h
  split at h <;> rename_i hpc
  · obtain rfl := Option.some.inj h
    obtain ⟨v, hmv, hok⟩ := hg.start hpc
    exact .move v hmv hok
  · obtain rfl := Option.some.inj h
    obtain ⟨v, hmv, hok⟩ := hg.register hpc
    exact .move v hmv hok
  · rcases promote_cases h with ⟨-, hmv⟩ | ⟨hf, mismatch, hmis, hr⟩
    · exact .move _ hmv (hg.reroll hpc)
    · exact .root mismatch hpc hf hmis hr
  · obtain ⟨v, hmv, hok⟩ := hcmp hpc h
    exact .move v hmv hok
  · exact hg.relink_stepCase hpc h
  · exact absurd hpc hg.not_retire.1
  · obtain ⟨p, hmv, hp⟩ := reverse_moved h
    exact .move _ hmv (moveOk_resolved hg _ (.inl hpc) hp)
  · exact .move _ (revPromote_moved h) (moveOk_resolved hg _ (.inr (.inl hpc)) (.inl rfl))
  · exact .move _ (revRetire_moved h) (moveOk_resolved hg _ (.inr (.inr hpc)) (.inl rfl))
  · obtain ⟨v, hmv, hok⟩ := hg.transfer hpc h
    exact .move v hmv hok
  · obtain ⟨v, hmv, hok⟩ := hg.publish hpc h
    exact .move v hmv hok
  · obtain rfl := Option.some.inj h
    obtain ⟨v, hmv, hok⟩ := hg.handle hpc
    exact .move v hmv hok
  · exact hg.drain_stepCase hpc h
  · exact absurd hpc hg.not_retire.2
  · cases h
  · cases h

theorem Group.stepCase (hg : Group T s (T.ino n)) (h : StepCase T s t n) :
    Group T t (T.ino n) := by
  cases h with
  | move v hmv hok => exact hg.moved rfl hmv hok
  | root mismatch hpc hf _ h => exact hg.rooted hpc hf h
  | link r x y hpc hf hx hreg htr hne hy hrl =>
    exact (hg.link hpc hf hreg htr hne hy).2 _ rfl hrl
  | wait r x hpc hf hx hreg htr hne hrl =>
    exact hg.wait (v := waitState (s.name n)) hpc hf hreg htr hne rfl rfl rfl rfl hrl
  | drain r x y hpc hf hx hroot hreg hy hd => exact (hg.drained hpc hf hroot hreg hy hd).2

theorem Sound.step_cases {y : ℕ} (hs : Sound T s) (hk : KeepsRoot T s (.run n y))
    (h : T.step s n y = some t) : StepCase T s t n :=
  (hs.group _).step_cases (fun hpc => (hs.group _).compare hs.fresh hpc hk) h

theorem Sound.stepCase (hs : Sound T s) (h : StepCase T s t n) : Sound T t := by
  have hgroup := (hs.group _).stepCase h
  cases h with
  | move v hmv hok => exact hs.moved hmv hok
  | root mismatch hpc hf _ h => exact hs.rooted hpc hf h
  | link r x y hpc hf hx hreg htr hne hy hrl =>
    have hfl := (hreg.member n rfl hne).firstLook
    exact hs.relinked hpc hf hreg hrl hgroup (.inr hy.symm) rfl hfl rfl
  | wait r x hpc hf hx hreg htr hne hrl =>
    have hfl := (hreg.member n rfl hne).firstLook
    exact hs.relinked hpc hf hreg hrl hgroup (.inl rfl) rfl hfl rfl
  | drain r x y hpc hf hx hroot hreg hy hd => exact hs.drained hpc hf hroot hreg hy hd

/-- Reuse of freed memory never hits the record of a group. -/
theorem Sound.reuse (hs : Sound T s) (hfwd : t.fwd = s.fwd) (hname : t.name = s.name)
    (hnext : t.nextRef = s.nextRef) (hinfo : ∀ r h, s.info r = some h → t.info r = some h) :
    Sound T t where
  group i := by
    refine (hs.group i).frame ⟨by rw [hfwd], fun r hr => ?_, hnext.ge, fun n _ => by rw [hname]⟩
    obtain ⟨h, hh, -⟩ := (hs.group i).registered r hr
    rw [hh, hinfo r h hh]
  fresh := by
    refine ⟨?_, ?_, ?_⟩ <;> rw [hname]
    · exact hs.fresh.unused
    · exact hs.fresh.own
    · exact hs.fresh.replaced

def Faultless : Op Name → Prop
  | .fail .. => False
  | _ => True

theorem Sound.next {op : Op Name} (hs : Sound T s) (hf : Faultless op) (hk : KeepsRoot T s op)
    (h : T.next s op = some t) : Sound T t := by
  cases op with
  | run n y => exact hs.stepCase (hs.step_cases hk h)
  | fail n fate => exact hf.elim
  | reuseInfo r x =>
    obtain ⟨⟨-, hnone⟩, h⟩ := Option.ite_none_right_eq_some.mp h
    obtain rfl := Option.some.inj h
    refine hs.reuse rfl rfl rfl fun r' x' hr' => ?_
    have hne : r' ≠ r := by
      rintro rfl
      simp [hr'] at hnone
    exact (Function.update_of_ne hne _ _).trans hr'
  | reuseRevinfo q x =>
    obtain ⟨-, h⟩ := Option.ite_none_right_eq_some.mp h
    obtain rfl := Option.some.inj h
    exact hs.reuse rfl rfl rfl fun _ _ => id

theorem Group.init {dst : Name → Option ℕ} (i : ℕ) :
    Group T ({ name := fun n => { dst := dst n } } : State Name) i where
  names n _ := {
    stale := by simp
    home := by simp [SourceTree.atHome, Pc.looking]
    tmp := by simp
    queued := by simp
    flags := by simp
    look := by simp [Pc.before]
    offered := by simp
    undecided := by simp
    withdrawn := by simp
    linked := by simp
    untouched := by simp }
  unregistered _ n _ := .inl rfl
  registered := by simp

theorem Sound.init {dst : Name → Option ℕ} :
    Sound T ({ name := fun n => { dst := dst n } } : State Name) where
  group := .init
  fresh := ⟨by simp, by simp, by simp [SourceTree.replaces]⟩

theorem Sound.reach (h : T.system.Reach (fun s op => Faultless op ∧ KeepsRoot T s op) s) :
    Sound T s := by
  refine h.invariant ?_ fun s op t hs hk hn => hs.next hk.1 hk.2 hn
  rintro s ⟨dst, rfl⟩
  exact Sound.init

/-- A root that can be copied has been transferred when all is done. -/
theorem Registered.transferred (hend : s.Ended) {i : ℕ} {r : Ref} {h : HLinkInfo Name}
    (hreg : Registered T s i r h) (hc : T.copied h.remote = true)
    (hn : 1 < (T.stx h.remote).stx_nlink) : h.transferred = true := by
  by_contra hne
  have := hreg.root.handled (by simpa using hne) (hend _) hc
  omega

theorem Registered.joined (hend : s.Ended) {r : Ref} {h : HLinkInfo Name}
    (hreg : Registered T s (T.ino n) r h) (hc : T.copied n = true)
    (hn : 1 < (T.stx n).stx_nlink) : (s.name n).dst = some h.destInode := by
  have hstx : T.stx n = T.stx h.remote := T.same_inode _ _ hreg.ino_root.symm
  have hc' : T.copied h.remote = true := by rwa [SourceTree.copied, ← hstx]
  have htr := hreg.transferred hend hc' (hstx ▸ hn)
  have hroot := (hreg.root.transferred htr).2
  by_cases hne : n = h.remote
  · rw [hne, hroot]
  · rcases (hreg.member n rfl hne).attached (by rw [hend n]; rfl) with ⟨-, hf, -⟩ | ⟨hd, -⟩
    · simp [htr] at hf
    · rw [hd, hroot]

/-- Two names of one inode of the source end up with one inode of the destination. -/
theorem Sound.one_inode (hs : Sound T s) (hend : s.Ended) {a b : Name} (hab : a ≠ b)
    (hino : T.ino a = T.ino b) (hc : T.copied a = true) :
    ∃ y, (s.name a).dst = some y ∧ (s.name b).dst = some y := by
  have hn := one_lt_nlink hab hino
  have hstx : T.stx a = T.stx b := T.same_inode _ _ hino
  cases hf : s.fwd (T.ino a) with
  | none =>
    rcases (hs.group _).unregistered hf a rfl with he | ⟨hn', -⟩
    · rw [hend a] at he
      cases he
    · omega
  | some r =>
    obtain ⟨h, hh, hreg⟩ := (hs.group _).registered r hf
    refine ⟨h.destInode, hreg.joined hend hc hn, (hino ▸ hreg).joined hend ?_ (hstx ▸ hn)⟩
    rwa [SourceTree.copied, ← hstx]

end Copy2.HLink
