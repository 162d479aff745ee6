import Copy2.HLink.Records

/-! # Pending links

Names that are no roots and have another inode than their root: each of them is linked
exactly once, by its own thread or by its root, and what its entry holds is given back. -/
namespace Copy2.HLink
open FileJob Lib Os

set_option linter.unusedSectionVars false

variable {Name : Type} [Fintype Name] [DecidableEq Name]
variable {T : SourceTree Name} {s t : State Name} {n : Name} {v : NameState} {i : ℕ}

/-- A name of the inode that is compared with its root has no destination, or another inode. -/
def Elsewhere (T : SourceTree Name) (i : ℕ) (s : State Name) : Op Name → Prop
  | .run n _ => T.ino n = i → (s.name n).pc = .compare → ∀ h,
    s.info (s.name n).loc.hinfoRef = some h → (s.name n).loc.destExists = true →
      (s.name n).loc.destStx.stx_ino ≠ h.destInode
  | _ => True

theorem compare_elsewhere {y : ℕ} (he : Elsewhere T (T.ino n) s (.run n y))
    (hpc : (s.name n).pc = .compare) (h : SourceTree.compare s n = some t) :
    Moved s t n { s.name n with
      loc := { (s.name n).loc with out := { (s.name n).loc.out with shouldTransfer := false } }
      pc := .relink } := by
  obtain ⟨x, hx, hmv | ⟨hd, heq, -⟩⟩ := compare_moved h
  · exact hmv
  · exact absurd heq (he rfl hpc x hx hd)

theorem relink_of_elsewhere {y : ℕ} (hpc : (s.name n).pc = .compare)
    (he : Elsewhere T (T.ino n) s (.run n y)) (h : T.step s n y = some t) :
    (t.name n).pc = .relink := by
  rw [SourceTree.step, hpc] at h
  rw [(compare_elsewhere he hpc h).name, Function.update_self]

structure Tallied (T : SourceTree Name) (n : Name) (v : NameState) : Prop where
  start : v.pc.early = true ∨ v.pc.looking = true → v.tally = {}
  taken : v.tally.dirTaken = v.loc.out.isPendingHardlink.toNat ∧
    v.tally.pathTaken = v.loc.out.isPendingHardlink.toNat
  released : v.tally.dirReleased = v.tally.drained ∧ v.tally.pathReleased = v.tally.drained
  first : v.loc.out.firstLook = true → v.tally.drained = 0
  running : v.pc ≠ .done ∨ v.loc.out.isPendingHardlink = true →
    v.tally.counted = v.tally.drained
  counted : v.pc = .done → v.loc.out.isPendingHardlink = false →
    (v.loc.out.shouldTransfer = true → T.copied n = true) → v.tally.counted = v.tally.drained + 1

/-- A name that is no root: its turn has come once, or it waits for the root's. -/
structure TalliedMember (h : HLinkInfo Name) (v : NameState) : Prop where
  pending : v.loc.out.isPendingHardlink = true →
    v.tally.direct = 0 ∧ v.tally.drained = h.transferred.toNat
  direct : v.loc.out.isPendingHardlink = false →
    v.tally.direct = 1 ∧ v.tally.drained = 0 ∧ v.loc.out.shouldTransfer = false

structure TalliedGroup (T : SourceTree Name) (s : State Name) (i : ℕ) (h : HLinkInfo Name) :
    Prop where
  member : ∀ n, T.ino n = i → n ≠ h.remote → (s.name n).pc.resolved = true →
    TalliedMember h (s.name n)
  root : h.transferred = true → (s.name h.remote).tally.counted = 1

structure Balanced (T : SourceTree Name) (s : State Name) (i : ℕ) : Prop where
  name : ∀ n, T.ino n = i → Tallied T n (s.name n)
  group : ∀ r h, s.fwd i = some r → s.info r = some h → TalliedGroup T s i h

theorem Change.start (hc : Change T s n v) (hv : v.pc.early = true ∨ v.pc.looking = true) :
    (s.name n).pc.early = true ∨ (s.name n).pc.looking = true := by
  by_contra hne
  have := hc.settled (by simpa [Pc.settled] using hne)
  rcases hv with hv | hv <;> simp [Pc.settled, hv] at this

theorem Tallied.change (hu : Tallied T n (s.name n)) (hc : Change T s n v) : Tallied T n v := by
  have hstart := hc.start
  have hrun : (s.name n).tally.counted = (s.name n).tally.drained := hu.running (.inl hc.notDone)
  have hfirst : v.loc.out.firstLook = true → (s.name n).tally.drained = 0 := by
    intro hfl
    rcases hc.first hfl with h | h
    · exact hu.first h
    · rw [hu.start (.inl h)]
  have htaken := hu.taken
  rw [← hc.pending] at htaken
  -- a name that is not counted in this step
  have kept (h : v.tally = (s.name n).tally) (hno : v.pc = .done →
      v.loc.out.isPendingHardlink = false →
        ¬ (v.loc.out.shouldTransfer = true → T.copied n = true)) : Tallied T n v := by
    refine ⟨fun he => by rw [h, hu.start (hstart he)], ?_, ?_, ?_, ?_,
      fun hd hp hs => absurd hs (hno hd hp)⟩ <;> rw [h]
    · exact htaken
    · exact hu.released
    · exact hfirst
    · exact fun _ => hrun
  cases hc.tally with
  | same hp h => exact kept h fun hd => absurd hd hp
  | stop h hpend => exact kept h fun _ hf => by simp [hpend] at hf
  | skip h hs hcop => exact kept h fun _ _ hf => by simp [hcop] at hf; simp [hf] at hs
  | count hp hpend h =>
    refine ⟨fun he => ?_, ?_, ?_, ?_, ?_, ?_⟩
    · rw [hp] at he
      simp [Pc.early, Pc.looking] at he
    · rw [h]
      exact htaken
    · rw [h]
      exact hu.released
    · rw [h]
      exact hfirst
    · rw [hp, hpend]
      simp
    · rw [h]
      exact fun _ _ _ => by simp [hrun]

theorem Balanced.init {dst : Name → Option ℕ} :
    Balanced T ({ name := fun n => { dst := dst n } } : State Name) i where
  name n _ := ⟨fun _ => rfl, ⟨rfl, rfl⟩, ⟨rfl, rfl⟩, fun _ => rfl, fun _ => rfl, by simp⟩
  group r h hf := by simp at hf

/-- What leaves the group alone leaves its tallies alone. -/
theorem Balanced.frame (hb : Balanced T s i) (hg : Group T s i) (h : SameGroup T s t i) :
    Balanced T t i where
  name n hn := h.name n hn ▸ hb.name n hn
  group r x hf hx := by
    rw [h.fwd] at hf
    rw [h.info r hf] at hx
    obtain ⟨x', hx', hreg⟩ := hg.registered r hf
    obtain rfl : x = x' := Option.some.inj (hx.symm.trans hx')
    have hold := hb.group r x hf hx
    refine ⟨fun n hn hne hres => ?_, fun htr => ?_⟩
    · rw [h.name n hn] at hres ⊢
      exact hold.member n hn hne hres
    · rw [h.name _ hreg.ino_root]
      exact hold.root htr

theorem TallyStep.kept {u : NameState} (h : TallyStep T n u v) :
    v.tally.direct = u.tally.direct ∧ v.tally.drained = u.tally.drained := by
  cases h with
  | same _ h => rw [h]; exact ⟨rfl, rfl⟩
  | stop h _ => rw [h]; exact ⟨rfl, rfl⟩
  | skip h _ _ => rw [h]; exact ⟨rfl, rfl⟩
  | count _ _ h => rw [h]; exact ⟨rfl, rfl⟩

theorem Balanced.moved (hb : Balanced T s (T.ino n)) (hg : Group T s (T.ino n))
    (hmv : Moved s t n v) (hok : MoveOk T s n v)
    (hcmp : (s.name n).pc = .compare → v.pc = .relink) : Balanced T t (T.ino n) := by
  have hname : ∀ m, t.name m = if m = n then v else s.name m := fun m => by
    rw [hmv.name, Function.update_apply]
  have hself : t.name n = v := by rw [hname n, if_pos rfl]
  refine ⟨fun m hm => ?_, fun r h hf hh => ⟨fun m hm hne hres => ?_, fun htr => ?_⟩⟩
  · by_cases hmn : m = n
    · subst hmn
      rw [hself]
      exact (hb.name _ rfl).change hok.change
    · rw [hname m, if_neg hmn]
      exact hb.name m hm
  · rw [hmv.fwd] at hf
    rw [hmv.info] at hh
    have hold := (hb.group r h hf hh).member m hm hne
    by_cases hmn : m = n
    · subst hmn
      rw [hself] at hres ⊢
      obtain ⟨hd, hdr⟩ := hok.change.tally.kept
      rcases hok.change.decided hres with hfl | hpc | ⟨hres', hout⟩
      · rw [(hok.member r h hf hh hne).1.firstLook] at hfl
        cases hfl
      · rw [hcmp hpc] at hres
        cases hres
      · have hold := hold hres'
        constructor <;> rw [hout, hd, hdr]
        · exact hold.pending
        · exact hold.direct
    · rw [hname m, if_neg hmn] at hres ⊢
      exact hold hres
  · rw [hmv.fwd] at hf
    rw [hmv.info] at hh
    obtain ⟨h', hh', hreg⟩ := hg.registered r hf
    obtain rfl : h = h' := Option.some.inj (hh.symm.trans hh')
    have hmn : h.remote ≠ n := by
      rintro rfl
      exact hok.change.notDone (hreg.root.transferred htr).1
    rw [hname _, if_neg hmn]
    exact (hb.group r h hf hh).root htr

theorem Balanced.rooted {mismatch : Bool} (hb : Balanced T s (T.ino n))
    (hg : Group T s (T.ino n)) (hpc : (s.name n).pc = .promote) (hf : s.fwd (T.ino n) = none)
    (h : Rooted T s t n mismatch) : Balanced T t (T.ino n) := by
  have htally := (hb.name n rfl).start (.inl (by rw [hpc]; rfl))
  have hname : ∀ m, t.name m = if m = n then rootState (s.name n) s.nextRef mismatch else s.name m :=
    fun m => by rw [h.name, Function.update_apply]
  refine ⟨fun m hm => ?_, fun r x hf' hx => ?_⟩
  · rw [hname m]
    split
    · rename_i hmn
      subst hmn
      refine ⟨fun _ => htally, ?_, ?_, ?_, ?_, by simp [rootState]⟩ <;>
        simp [rootState, htally]
    · exact hb.name m hm
  · rw [h.fwd, Function.update_self] at hf'
    obtain rfl := Option.some.inj hf'
    rw [h.info, Function.update_self] at hx
    obtain rfl := Option.some.inj hx
    refine ⟨fun m hm hne hres => ?_, by simp [newInfo]⟩
    have hmn : m ≠ n := hne
    rw [hname m, if_neg hmn] at hres
    rcases hg.unregistered hf m hm with he | ⟨hn, -⟩
    · simp [Pc.resolved_of_early he] at hres
    · have := one_lt_nlink hmn hm
      omega

theorem Balanced.relinked {r : Ref} {h h' : HLinkInfo Name} (hb : Balanced T s (T.ino n))
    (hf : s.fwd (T.ino n) = some r) (hh : s.info r = some h) (hne : n ≠ h.remote)
    (hrl : Relinked T s t n v r h h') (hv : Tallied T n v) (hmem : TalliedMember h' v) :
    Balanced T t (T.ino n) := by
  have hname : ∀ m, t.name m = if m = n then v else s.name m := fun m => by
    rw [hrl.name, Function.update_apply]
  have hold := hb.group r h hf hh
  refine ⟨fun m hm => ?_, fun r' x hf' hx => ?_⟩
  · rw [hname m]
    split
    · rename_i hmn
      exact hmn ▸ hv
    · exact hb.name m hm
  · rw [hrl.fwd] at hf'
    obtain rfl : r = r' := Option.some.inj (hf.symm.trans hf')
    rw [hrl.info, Function.update_self] at hx
    obtain rfl := Option.some.inj hx
    refine ⟨fun m hm hne' hres => ?_, fun htr => ?_⟩
    · rw [hname m] at hres ⊢
      split
      · exact hmem
      · rename_i hmn
        rw [if_neg hmn] at hres
        have hold := hold.member m hm (hrl.remote ▸ hne') hres
        exact ⟨by rw [hrl.transferred]; exact hold.pending, hold.direct⟩
    · rw [hrl.remote, hname _, if_neg (Ne.symm hne)]
      exact hold.root (hrl.transferred ▸ htr)

theorem Tallied.drainEntry {m : Name} (hv : Tallied T m v) (hfl : v.loc.out.firstLook = false)
    (hpc : v.pc.resolved = true) (hpend : v.loc.out.isPendingHardlink = true) (y k : ℕ) :
    Tallied T m (SourceTree.drainEntry .linked y k v) := by
  rw [SourceTree.drainEntry]
  split
  · exact hv
  · refine ⟨fun he => ?_, hv.taken, ?_, fun h => ?_, fun _ => ?_, fun _ h => ?_⟩
    · rcases he with he | he
      · simp [Pc.resolved_of_early he] at hpc
      · simp [Pc.resolved_of_looking he] at hpc
    · exact ⟨by rw [hv.released.1], by rw [hv.released.2]⟩
    · simp [hfl] at h
    · rw [hv.running (.inr hpend)]
    · simp [hpend] at h

theorem Balanced.drained {r : Ref} {h : HLinkInfo Name} {y : ℕ} (hb : Balanced T s (T.ino n))
    (hg : Group T s (T.ino n)) (hpc : (s.name n).pc = .drain) (hf : s.fwd (T.ino n) = some r)
    (hh : s.info r = some h) (hroot : n = h.remote) (hreg : Registered T s (T.ino n) r h)
    (hy : (s.name n).dst = some y) (hd : Drained s t n r h y) : Balanced T t (T.ino n) := by
  have hself := (hg.drained hpc hf hroot hreg hy hd).1
  have hr : Root T r h (s.name n) := hroot ▸ hreg.root
  have hu := hb.name n rfl
  have hrun := hu.running (.inl (by simp [hpc]))
  have hold := hb.group r h hf hh
  have htr : h.transferred = false := by
    cases ht : h.transferred with
    | false => rfl
    | true => simpa [hpc] using (hr.transferred ht).1
  refine ⟨fun m hm => ?_, fun r' x hf' hx => ?_⟩
  · by_cases hmn : m = n
    · subst hmn
      rw [hself]
      refine ⟨by simp [NameState.finish, Pc.early, Pc.looking], hu.taken, hu.released, hu.first,
        fun hp => ?_, fun _ _ _ => ?_⟩
      · have := (hg.names m rfl).flags hr.firstLook
        simp [NameState.finish, NameState.handled, this.2.1] at hp
      · simp [NameState.finish, NameState.handled, hrun]
    · rw [hd.other m hmn]
      by_cases hl : m ∈ h.links
      · obtain ⟨hmi, hne, hpend, hres⟩ := hreg.links m hl
        exact (hb.name m hm).drainEntry (hreg.member m hmi hne).firstLook hres hpend _ _
      · rw [drainEntry_of_notMem hl]
        exact hb.name m hm
  · rw [hd.fwd] at hf'
    obtain rfl : r = r' := Option.some.inj (hf.symm.trans hf')
    rw [hd.info, Function.update_self] at hx
    obtain rfl := Option.some.inj hx
    refine ⟨fun m hm hne hres => ?_, fun _ => ?_⟩
    · have hmn : m ≠ n := fun he => hne (he.trans hroot)
      rw [hd.other m hmn] at hres ⊢
      obtain ⟨hloc, hp, -, -⟩ := drainEntry_same y (h.links.count m) (s.name m)
      rw [hp] at hres
      have hold := hold.member m hm hne hres
      by_cases hl : m ∈ h.links
      · obtain ⟨-, -, hpend, -⟩ := hreg.links m hl
        have hold := hold.pending hpend
        rw [drainEntry_of_mem hl hreg.nodup]
        refine ⟨fun _ => ⟨hold.1, ?_⟩, fun hf => ?_⟩
        · simp [hold.2, htr, drainedInfo]
        · simp [hpend] at hf
      · have hnot := fun hp => hl ((hreg.member m hm hne).listed hp)
        rw [drainEntry_of_notMem hl]
        exact ⟨fun hp => absurd hp hnot, hold.direct⟩
    · show (t.name h.remote).tally.counted = 1
      rw [← hroot, hself]
      simp [NameState.finish, NameState.handled, hrun, hu.first hr.firstLook]

/-- The step of a name of the inode itself. -/
theorem Balanced.step {y : ℕ} (hb : Balanced T s (T.ino n)) (hg : Group T s (T.ino n))
    (he : Elsewhere T (T.ino n) s (.run n y)) (h : T.step s n y = some t) :
    Group T t (T.ino n) ∧ Balanced T t (T.ino n) := by
  have hcase := hg.step_cases
    (fun hpc hc => ⟨_, compare_elsewhere he hpc hc, hg.compared hpc rfl⟩) h
  refine ⟨hg.stepCase hcase, ?_⟩
  have hrelink := fun hpc => relink_of_elsewhere hpc he h
  have hok := hg.names n rfl
  have hstart := fun hlook => (hb.name n rfl).start (.inr hlook)
  cases hcase with
  | move v hmv hmove =>
    refine hb.moved hg hmv hmove fun hpc => ?_
    have := hrelink hpc
    rwa [hmv.name, Function.update_self] at this
  | root mismatch hpc hf _ h => exact hb.rooted hg hpc hf h
  | link r x y hpc hf hx hreg htr hne hy hrl =>
    have hlook : (s.name n).pc.looking = true := by rw [hpc]; rfl
    have htally := hstart hlook
    have hpend := hok.undecided (.inr hlook)
    refine hb.relinked hf hx hne hrl ?_ ⟨?_, fun _ => ?_⟩
    · refine ⟨by simp [linkState, Pc.early, Pc.looking], ?_, ?_, ?_, ?_, by simp [linkState]⟩ <;>
        simp [linkState, htally, hpend]
    · simp [linkState, hpend]
    · simp [linkState, htally, hok.withdrawn hpc]
  | wait r x hpc hf hx hreg htr hne hrl =>
    have htally := hstart (by rw [hpc]; rfl)
    refine hb.relinked hf hx hne hrl ?_ ⟨fun _ => ?_, by simp [waitState]⟩
    · refine ⟨by simp [waitState, Pc.early, Pc.looking], ?_, ?_, ?_, ?_, by simp [waitState]⟩ <;>
        simp [waitState, htally]
    · simp [waitState, htally, htr]
  | drain r x y hpc hf hx hroot hreg hy hd => exact hb.drained hg hpc hf hx hroot hreg hy hd

/-- What holds of one inode as long as the others spare it. -/
structure Tended (T : SourceTree Name) (i : ℕ) (s : State Name) : Prop where
  separate : Separate T s
  group : Group T s i
  balanced : Balanced T s i

theorem Tended.frame (hs : Tended T i s) (hsep : Separate T t) (h : SameGroup T s t i) :
    Tended T i t :=
  ⟨hsep, hs.group.frame h, hs.balanced.frame hs.group h⟩

theorem Tended.next {op : Op Name} (hs : Tended T i s) (hf : Faultless op)
    (he : Elsewhere T i s op) (hspare : Spares T i s op) (h : T.next s op = some t) :
    Tended T i t := by
  cases op with
  | run n y =>
    by_cases hn : T.ino n = i
    · subst hn
      obtain ⟨hg, hb⟩ := hs.balanced.step hs.group he h
      exact ⟨hs.separate.step h, hg, hb⟩
    · exact hs.frame (hs.separate.step h) (hs.separate.sameGroup hn hspare h)
  | fail n fate => exact hf.elim
  | reuseInfo r x =>
    obtain ⟨⟨-, hnone⟩, h⟩ := Option.ite_none_right_eq_some.mp h
    obtain rfl := Option.some.inj h
    refine hs.frame (hs.separate.congr rfl rfl rfl) ⟨rfl, fun r' hr' => ?_, le_rfl, fun _ _ => rfl⟩
    obtain ⟨x', hx', -⟩ := hs.group.registered r' hr'
    refine Function.update_of_ne ?_ _ _
    rintro rfl
    simp [hx'] at hnone
  | reuseRevinfo q x =>
    obtain ⟨-, h⟩ := Option.ite_none_right_eq_some.mp h
    obtain rfl := Option.some.inj h
    exact hs.frame (hs.separate.congr rfl rfl rfl) ⟨rfl, fun _ _ => rfl, le_rfl, fun _ _ => rfl⟩

theorem Tended.reach (h : T.system.Reach
    (fun s op => Faultless op ∧ Elsewhere T i s op ∧ Spares T i s op) s) : Tended T i s := by
  refine h.invariant ?_ fun s op t hs hc hn => hs.next hc.1 hc.2.1 hc.2.2 hn
  rintro s ⟨dst, rfl⟩
  exact ⟨.init, .init i, .init⟩

/-- Every name of the inode has been counted once. Each of them but the root has been
linked to the root once, by itself or from the root's list but not both; and a pending
entry has given back exactly what it had taken. -/
def LinkedOnce (T : SourceTree Name) (s : State Name) (h : HLinkInfo Name) (i : ℕ) : Prop :=
  ∀ n, T.ino n = i → (s.name n).tally.counted = 1 ∧
    (n ≠ h.remote → (s.name n).tally.direct + (s.name n).tally.drained = 1 ∧
      (s.name n).dst = (s.name h.remote).dst ∧
      (s.name n).tally.dirTaken = (s.name n).tally.drained ∧
      (s.name n).tally.pathTaken = (s.name n).tally.drained ∧
      (s.name n).tally.dirReleased = (s.name n).tally.dirTaken ∧
      (s.name n).tally.pathReleased = (s.name n).tally.pathTaken)

theorem Tended.linkedOnce (hs : Tended T i s) (hend : s.Ended) {r : Ref} {x : HLinkInfo Name}
    (hf : s.fwd i = some r) (hx : s.info r = some x) (htr : x.transferred = true) :
    LinkedOnce T s x i := by
  obtain ⟨-, hgroup, hb⟩ := hs
  obtain ⟨x', hx', hreg⟩ := hgroup.registered r hf
  obtain rfl : x = x' := Option.some.inj (hx.symm.trans hx')
  have hg := hb.group r x hf hx
  intro n hn
  by_cases hne : n = x.remote
  · exact ⟨by rw [hne]; exact hg.root htr, fun h => absurd hne h⟩
  · have hres : (s.name n).pc.resolved = true := by rw [hend n]; rfl
    have hmem := hg.member n hn hne hres
    have hv := hb.name n hn
    have hdst : (s.name n).dst = (s.name x.remote).dst := by
      rcases (hreg.member n hn hne).attached hres with ⟨-, hf, -⟩ | ⟨hd, -⟩
      · simp [htr] at hf
      · exact hd
    cases hp : (s.name n).loc.out.isPendingHardlink with
    | true =>
      obtain ⟨hd, hdr⟩ := hmem.pending hp
      rw [htr, Bool.toNat_true] at hdr
      have htaken := hv.taken
      rw [hp, Bool.toNat_true] at htaken
      refine ⟨by rw [hv.running (.inr hp), hdr], fun _ => ⟨by rw [hd, hdr], hdst, ?_⟩⟩
      rw [htaken.1, htaken.2, hv.released.1, hv.released.2, hdr]
      exact ⟨rfl, rfl, rfl, rfl⟩
    | false =>
      obtain ⟨hd, hdr, hsh⟩ := hmem.direct hp
      have htaken := hv.taken
      rw [hp, Bool.toNat_false] at htaken
      refine ⟨by rw [hv.counted (hend n) hp (by simp [hsh]), hdr],
        fun _ => ⟨by rw [hd, hdr], hdst, ?_⟩⟩
      rw [htaken.1, htaken.2, hv.released.1, hv.released.2, hdr]
      exact ⟨rfl, rfl, rfl, rfl⟩

/-- When all is done an inode with several links still has its entry, and if it can be copied
its root has been handled. -/
theorem Tended.recorded (hs : Tended T i s) (hend : s.Ended) (hn : T.ino n = i)
    (hlinks : 1 < (T.stx n).stx_nlink) : ∃ r x, s.fwd i = some r ∧ s.info r = some x ∧
      (T.copied n = true → x.transferred = true) := by
  cases hf : s.fwd i with
  | none =>
    rcases hs.group.unregistered hf n hn with he | ⟨hle, -⟩
    · rw [hend n] at he
      cases he
    · omega
  | some r =>
    obtain ⟨x, hx, hreg⟩ := hs.group.registered r hf
    have hstx : T.stx n = T.stx x.remote := T.same_inode _ _ (hn.trans hreg.ino_root.symm)
    refine ⟨r, x, rfl, hx, fun hc => hreg.transferred hend ?_ (hstx ▸ hlinks)⟩
    rwa [SourceTree.copied, ← hstx]

section check
variable (T : SourceTree Name) (i : ℕ) (s : State Name)

def elsewhere : Op Name → Bool
  | .run n _ =>
    let l := (s.name n).loc
    T.ino n != i || (s.name n).pc != .compare || (s.info l.hinfoRef).all fun h =>
      !l.destExists || l.destStx.stx_ino != h.destInode
  | .fail .. => false
  | _ => true

def spares : Op Name → Bool
  | .run n y =>
    let v := s.name n
    elsewhere T i s (.run n y) && (T.ino n == i ||
      (v.pc != .handleRetire || v.loc.finishIno != i || (s.fwd i).isNone) &&
        (v.pc != .drain || (s.info v.loc.hinfoRef).all fun x => x.links.all fun m => T.ino m != i))
  | op => elsewhere T i s op

end check

theorem elsewhere_sound {op : Op Name} (h : elsewhere T i s op = true) :
    Faultless op ∧ Elsewhere T i s op := by
  cases op with
  | run n y =>
    refine ⟨trivial, fun hn hpc x hx hd heq => ?_⟩
    simp [elsewhere, hn, hpc, hx, hd, heq] at h
  | fail n fate => cases h
  | reuseInfo r x => exact ⟨trivial, trivial⟩
  | reuseRevinfo q x => exact ⟨trivial, trivial⟩

theorem spares_sound {op : Op Name} (h : spares T i s op = true) :
    Faultless op ∧ Elsewhere T i s op ∧ Spares T i s op := by
  cases op with
  | run n y =>
    rw [spares, Bool.and_eq_true] at h
    obtain ⟨hf, he⟩ := elsewhere_sound h.1
    refine ⟨hf, he, fun hn => ⟨fun hpc hi => ?_, fun hpc x hx m hm => ?_⟩⟩
    · simpa [hn, hpc, hi] using h.2
    · have hall : ∀ m ∈ x.links, ¬ T.ino m = i := by simpa [hn, hpc, hx] using h.2
      exact hall m hm
  | fail n fate => cases h
  | reuseInfo r x => exact ⟨trivial, trivial, trivial⟩
  | reuseRevinfo q x => exact ⟨trivial, trivial, trivial⟩

/-- Names 0 and 1 are one file of the source, names 2 and 3 another. -/
def strayTree : SourceTree (Fin 4) where
  stx n := { stx_mode := 0o100644, stx_nlink := 2, stx_ino := if n < 2 then 1 else 2, stx_size := 5 }
  dstStx _ := {}
  others _ := 0
  same_inode := by decide
  names_le_nlink := by decide

/-- Only names 2 and 3 are there, one stale file. -/
def strayStart : State (Fin 4) := { name := fun n => { dst := if n < 2 then none else some 10 } }

/-- Name 3 has the inode of its root 2 and is copied too, to inode `y`, so the count of that
root comes to 0. Meanwhile name 1 is put on the list of the root 0, which is handled last. -/
def strayRun (y : ℕ) (again : List (Op (Fin 4))) : List (Op (Fin 4)) :=
  List.replicate 3 (.run 2 0) ++ List.replicate 4 (.run 3 0) ++ .run 3 y :: .run 2 30 ::
    List.replicate 3 (.run 2 0) ++ List.replicate 3 (.run 0 0) ++ List.replicate 6 (.run 1 0) ++
    List.replicate 4 (.run 3 0) ++ again ++ .run 0 31 :: List.replicate 3 (.run 0 0)

theorem strayRun_end (p : State (Fin 4) → Op (Fin 4) → Bool) (y : ℕ) (again : List (Op (Fin 4)))
    {d : ℕ} (h : ((strayTree.system.exec p strayStart (strayRun y again)).map fun s =>
      (List.ofFn fun n => (s.name n).pc, (s.name 1).tally.drained, (s.name 1).tally.counted,
        s.fwd 1, (s.info 2).map fun x => x.transferred)) =
      some ([.done, .done, .done, .done], d, d, some 2, some true)) :
    ∃ s x, strayTree.system.Reach (fun s op => p s op = true) s ∧ s.Ended ∧
      ((s.name 1).tally.drained = d ∧ (s.name 1).tally.counted = d) ∧ s.fwd 1 = some 2 ∧
      s.info 2 = some x ∧ x.transferred = true := by
  simp only [Option.map_eq_some_iff, List.ofFn_succ, List.ofFn_zero, List.cons.injEq,
    Prod.mk.injEq] at h
  obtain ⟨s, hs, ⟨h0, h1, h2, h3, -⟩, hdr, hc, hf, x, hx, htr⟩ := h
  refine ⟨s, x, ⟨strayStart, ⟨_, rfl⟩, .of_exec _ (fun _ _ _ h => h) hs⟩, fun n => ?_,
    ⟨hdr, hc⟩, hf, hx, htr⟩
  fin_cases n
  · exact h0
  · exact h1
  · exact h2
  · exact h3

end Copy2.HLink
