import Copy2.HLink.GroupSteps

/-! # Roots are made, and their links follow

The steps that change the forward table or one of its records: a name becomes a root, a
name is linked to its root or put on its list, and the list is drained. -/
namespace Copy2.HLink
open FileJob Lib Os

set_option linter.unusedSectionVars false

variable {Name : Type} [Fintype Name] [DecidableEq Name]
variable {T : SourceTree Name} {s s' t : State Name} {n : Name} {v : NameState}

/-- Two groups have two records. -/
theorem Group.ref_ne {i j : ℕ} {r r' : Ref} (hi : Group T s i) (hj : Group T s j) (hij : i ≠ j)
    (hr : s.fwd i = some r) (hr' : s.fwd j = some r') : r ≠ r' := by
  rintro rfl
  obtain ⟨h, hh, hreg⟩ := hi.registered r hr
  obtain ⟨h', hh', hreg'⟩ := hj.registered r hr'
  obtain rfl : h = h' := Option.some.inj (hh.symm.trans hh')
  exact hij (hreg.ino_root.symm.trans hreg'.ino_root)

def newInfo (T : SourceTree Name) (s : State Name) (n : Name) : HLinkInfo Name :=
  { destInode := (s.name n).loc.destStx.stx_ino, remote := n, nlinkRC := (T.stx n).stx_nlink }

def rootState (v : NameState) (r : Ref) (mismatch : Bool) : NameState :=
  { v with
    loc := { v.loc with
      out := ⟨v.loc.origShouldTransfer || mismatch, true, false⟩, hinfoRef := r }
    pc := .transfer }

/-- The name is the root of its inode from now on. -/
structure Rooted (T : SourceTree Name) (s t : State Name) (n : Name) (mismatch : Bool) :
    Prop where
  fwd : t.fwd = Function.update s.fwd (T.ino n) (some s.nextRef)
  info : t.info = Function.update s.info s.nextRef (some (newInfo T s n))
  nextRef : s.nextRef < t.nextRef
  name : t.name = Function.update s.name n (rootState (s.name n) s.nextRef mismatch)

theorem promote_cases (h : T.promote s n = some t) :
    (∃ r, s.fwd (T.ino n) = some r) ∧ Moved s t n ((s.name n).goto .register) ∨
      s.fwd (T.ino n) = none ∧ ∃ mismatch, T.revMismatch s n = some mismatch ∧
        Rooted T s t n mismatch := by
  rw [SourceTree.promote] at h
  split at h
  · cases h
  · split at h
    · rename_i r hf
      obtain rfl := Option.some.inj h
      exact .inl ⟨⟨r, hf⟩, (Quiet.refl s).goto n _⟩
    · rename_i hf
      obtain ⟨mismatch, hmis, h⟩ := Option.bind_eq_some_iff.mp h
      have hmv := reverseWrite_moved h
      refine .inr ⟨hf, mismatch, hmis, hmv.fwd, hmv.info, ?_, hmv.name.trans ?_⟩
      · exact (Nat.lt_succ_self _).trans_le hmv.nextRef
      · simp [State.put, SourceTree.addInfo, rootState, NameState.goto]

theorem Rooted.other {mismatch : Bool} (h : Rooted T s t n mismatch) {i : ℕ} (hg : Group T s i)
    (hi : i ≠ T.ino n) : SameGroup T s t i where
  fwd := by rw [h.fwd, Function.update_of_ne hi]
  info r hr := by
    obtain ⟨x, -, hreg⟩ := hg.registered r hr
    rw [h.info, Function.update_of_ne hreg.ref_lt.ne]
  nextRef := h.nextRef.le
  name m hm := by
    rw [h.name, Function.update_of_ne]
    rintro rfl
    exact hi hm.symm

theorem Group.rooted (hg : Group T s (T.ino n)) (hpc : (s.name n).pc = .promote)
    {mismatch : Bool} (hf : s.fwd (T.ino n) = none) (h : Rooted T s t n mismatch) :
    Group T t (T.ino n) := by
  have hok := hg.names n rfl
  have hdirect := hok.untouched (by simp [hpc, Pc.early])
  have hhome := hok.home (by simp [SourceTree.atHome, hpc])
  have hname : t.name n = rootState (s.name n) s.nextRef mismatch := by rw [h.name, Function.update_self]
  have hother : ∀ m, m ≠ n → t.name m = s.name m := fun m hm => by
    rw [h.name, Function.update_of_ne hm]
  have hearly : ∀ m, T.ino m = T.ino n → m ≠ n → (s.name m).pc.early = true := by
    intro m hm hne
    rcases hg.unregistered hf m hm with he | ⟨hn, -⟩
    · exact he
    · have := one_lt_nlink hne hm
      omega
  have ok : NameOk T n (rootState (s.name n) s.nextRef mismatch) := {
    stale := fun _ => hok.stale (by simp [hpc])
    home := fun _ => hhome
    tmp := fun _ => hok.tmp (by simp [hpc])
    queued := by simp [rootState]
    flags := fun _ => ⟨rfl, rfl, fun ho => by simp only [rootState] at ho ⊢; rw [ho]; rfl⟩
    look := by simp [rootState]
    offered := by simp [rootState]
    undecided := by simp [rootState, Pc.early, Pc.looking]
    withdrawn := by simp [rootState]
    linked := by simp [rootState]
    untouched := fun _ => hdirect }
  have hfwd : t.fwd (T.ino n) = some s.nextRef := by rw [h.fwd, Function.update_self]
  have hinfo : t.info s.nextRef = some (newInfo T s n) := by rw [h.info, Function.update_self]
  refine ⟨fun m hm => ?_, fun hf' => by simp [hfwd] at hf', fun r hr => ?_⟩
  · by_cases hmn : m = n
    · subst hmn
      rw [hname]
      exact ok
    · rw [hother m hmn]
      exact hg.names m hm
  · obtain rfl : s.nextRef = r := Option.some.inj (hfwd.symm.trans hr)
    refine ⟨_, hinfo, h.nextRef, rfl, ?_, ?_, by simp [newInfo], by simp [newInfo], ?_⟩
    · show Root T _ _ (t.name n)
      rw [hname]
      exact {
        firstLook := rfl
        drain := by simp [rootState]
        moved := by simp [rootState]
        recorded := fun _ => rfl
        handled := by simp [rootState]
        transferred := by simp [newInfo] }
    · intro m hm hne
      have hmn : m ≠ n := hne
      have he := hearly m hm hmn
      rw [hother m hmn]
      refine ⟨.inl he, (hg.names m hm).firstLook_of_early (.inl he), ?_, ?_, ?_, ?_⟩
      · simp [Pc.resolved_of_early he]
      · simp [(hg.names m hm).undecided (.inl he)]
      · simp [Pc.resolved_of_early he]
      · simp [(hg.names m hm).untouched (.inl he)]
    · have hzero : T.directs t (T.ino n) = 0 := by
        refine count_eq_zero.mpr fun m => ?_
        by_cases hm : T.ino m = T.ino n
        · have : (t.name m).tally.direct = 0 := by
            by_cases hmn : m = n
            · subst hmn
              rw [hname]
              exact hdirect
            · rw [hother m hmn]
              exact (hg.names m hm).untouched (.inl (hearly m hm hmn))
          simp [this]
        · simp [hm]
      rw [hzero]
      rfl

/-- One name of the group and the record have changed, but not the root. -/
structure Relinked (T : SourceTree Name) (s t : State Name) (n : Name) (v : NameState) (r : Ref)
    (h h' : HLinkInfo Name) : Prop where
  fwd : t.fwd = s.fwd
  info : t.info = Function.update s.info r (some h')
  nextRef : s.nextRef ≤ t.nextRef
  name : t.name = Function.update s.name n v
  remote : h'.remote = h.remote
  transferred : h'.transferred = h.transferred
  destInode : h'.destInode = h.destInode
  links : h'.links = h.links ∨
    h'.links = n :: h.links ∧ v.loc.out.isPendingHardlink = true ∧ v.pc.resolved = true

theorem Relinked.other {r : Ref} {h h' : HLinkInfo Name} (hrl : Relinked T s t n v r h h') {i : ℕ}
    (hf : s.fwd (T.ino n) = some r) (hn : Group T s (T.ino n)) (hg : Group T s i)
    (hi : i ≠ T.ino n) : SameGroup T s t i where
  fwd := by rw [hrl.fwd]
  info r' hr' := by rw [hrl.info, Function.update_of_ne (hg.ref_ne hn hi hr' hf)]
  nextRef := hrl.nextRef
  name m hm := by
    rw [hrl.name, Function.update_of_ne]
    rintro rfl
    exact hi hm.symm

theorem Root.congr {r : Ref} {h h' : HLinkInfo Name} (hr : Root T r h v)
    (hrem : h'.remote = h.remote) (htr : h'.transferred = h.transferred)
    (hd : h'.destInode = h.destInode) : Root T r h' v := by
  constructor
  · exact hr.firstLook
  · exact hr.drain
  · exact hr.moved
  · rw [htr, hd]
    exact hr.recorded
  · rw [htr, hrem]
    exact hr.handled
  · rw [htr, hd]
    exact hr.transferred

theorem Member.congr {r : Ref} {h h' : HLinkInfo Name} {root : NameState}
    (hm : Member T r h root n v) (hrem : h'.remote = h.remote)
    (htr : h'.transferred = h.transferred) (hl : ∀ m ∈ h.links, m ∈ h'.links) :
    Member T r h' root n v := by
  refine ⟨hm.phase, hm.firstLook, hm.replaces, fun hp => hl n (hm.listed hp), fun hres => ?_,
    by rw [htr]; exact hm.direct⟩
  rw [Attached, htr, hrem]
  exact (hm.attached hres).imp_left fun h => ⟨h.1, h.2.1, hl n h.2.2⟩

theorem Group.relinked {r : Ref} {h h' : HLinkInfo Name} (hg : Group T s (T.ino n))
    (hf : s.fwd (T.ino n) = some r) (hreg : Registered T s (T.ino n) r h) (hne : n ≠ h.remote)
    (hl : (s.name n).pc.looking = true) (hrl : Relinked T s t n v r h h') (ok : NameOk T n v)
    (hmem : Member T r h' (s.name h.remote) n v)
    (hrc : h'.nlinkRC + h'.transferred.toNat + T.directs t (T.ino n) =
      (T.stx h.remote).stx_nlink) : Group T t (T.ino n) := by
  have hname : t.name n = v := by rw [hrl.name, Function.update_self]
  have hother : ∀ m, m ≠ n → t.name m = s.name m := fun m hm => by
    rw [hrl.name, Function.update_of_ne hm]
  have hnew : n ∉ h.links := by
    intro hmem
    have := (hreg.links n hmem).2.2.2
    simp [Pc.resolved_of_looking hl] at this
  refine ⟨fun m hm => ?_, fun hf' => by simp [hrl.fwd, hf] at hf', fun r' hr' => ?_⟩
  · by_cases hmn : m = n
    · subst hmn
      rw [hname]
      exact ok
    · rw [hother m hmn]
      exact hg.names m hm
  · rw [hrl.fwd] at hr'
    obtain rfl : r = r' := Option.some.inj (hf.symm.trans hr')
    have hsub : ∀ m ∈ h.links, m ∈ h'.links := by
      intro m hm
      rcases hrl.links with he | ⟨he, -⟩ <;> simp [he, hm]
    have hroot : t.name h'.remote = s.name h.remote := by
      rw [hrl.remote, hother _ (Ne.symm hne)]
    refine ⟨h', by rw [hrl.info, Function.update_self], hreg.ref_lt.trans_le hrl.nextRef, ?_, ?_,
      ?_, ?_, ?_, ?_⟩
    · rw [hrl.remote, hreg.ino_root]
    · rw [hroot]
      exact hreg.root.congr hrl.remote hrl.transferred hrl.destInode
    · intro m hm hm'
      rw [hroot]
      by_cases hmn : m = n
      · subst hmn
        rw [hname]
        exact hmem
      · rw [hother m hmn]
        rw [hrl.remote] at hm'
        exact (hreg.member m hm hm').congr hrl.remote hrl.transferred hsub
    · intro m hm
      rw [hrl.remote]
      by_cases hmn : m = n
      · subst hmn
        rw [hname]
        rcases hrl.links with he | ⟨-, hp, hres⟩
        · exact absurd (he ▸ hm) hnew
        · exact ⟨rfl, hne, hp, hres⟩
      · rw [hother m hmn]
        refine hreg.links m ?_
        rcases hrl.links with he | ⟨he, -⟩
        · exact he ▸ hm
        · rw [he] at hm
          exact (List.mem_cons.mp hm).resolve_left hmn
    · rcases hrl.links with he | ⟨he, -⟩
      · rw [he]
        exact hreg.nodup
      · rw [he]
        exact List.nodup_cons.mpr ⟨hnew, hreg.nodup⟩
    · rw [hrl.remote]
      exact hrc

/-- Two names of a group that have not been linked directly leave room in its count. -/
theorem directs_add_two_le {a b : Name} (hab : a ≠ b) (hino : T.ino b = T.ino a)
    (ha : (s.name a).tally.direct = 0) (hb : (s.name b).tally.direct = 0) :
    T.directs s (T.ino a) + 2 ≤ (T.stx a).stx_nlink := by
  refine le_trans (count_add_two_le (fun m hm => ?_) hab ?_ ?_ ?_ ?_) (T.names_le_nlink a)
  · exact (Bool.and_eq_true _ _ ▸ hm).1
  · simp [ha]
  · simp [hb]
  · simp
  · exact beq_iff_eq.mpr hino

theorem directs_succ (hname : t.name = Function.update s.name n v)
    (hn : (s.name n).tally.direct = 0) (hv : v.tally.direct ≠ 0) :
    T.directs t (T.ino n) = T.directs s (T.ino n) + 1 := by
  rw [SourceTree.directs, SourceTree.directs,
    ← count_update_true (i := n) (by simp [hn])]
  refine congrArg count (funext fun m => ?_)
  rw [hname]
  by_cases hm : m = n
  · subst hm
    simp [hv]
  · rw [Function.update_of_ne hm, Function.update_of_ne hm]

inductive RelinkCase (T : SourceTree Name) (s t : State Name) (n : Name) (r : Ref)
    (h : HLinkInfo Name) : Prop
  | link (y : ℕ) (htr : h.transferred = true) (hne : n ≠ h.remote)
      (hy : (s.name h.remote).dst = some y)
      (hrl : Relinked T s t n
        { s.name n with
          dst := some y
          tally := { (s.name n).tally with direct := (s.name n).tally.direct + 1 }
          pc := if h.nlinkRC = 0 then .retire else .reverse }
        r h { h with nlinkRC := decSize h.nlinkRC })
  | wait (htr : h.transferred = false)
      (hrl : Relinked T s t n
        { s.name n with
          loc := { (s.name n).loc with
            out := { (s.name n).loc.out with isPendingHardlink := true } }
          tally := { (s.name n).tally with
            dirTaken := (s.name n).tally.dirTaken + 1
            pathTaken := (s.name n).tally.pathTaken + 1 }
          pc := .reverse }
        r h { h with links := n :: h.links })

theorem rootInode_eq_some {root : Name} {unlinked : List Name} {y : ℕ}
    (h : SourceTree.rootInode s root unlinked = some y) :
    root ∉ unlinked ∧ (s.name root).dst = some y :=
  Option.ite_none_left_eq_some.mp h

theorem relink_cases (hr : SourceTree.relink s n .linked = some t) :
    ∃ h, s.info (s.name n).loc.hinfoRef = some h ∧
      RelinkCase T s t n (s.name n).loc.hinfoRef h := by
  obtain ⟨h, hh, hr⟩ := Option.bind_eq_some_iff.mp hr
  obtain ⟨-, hr⟩ := Option.ite_none_left_eq_some.mp hr
  refine ⟨h, hh, ?_⟩
  split at hr
  · rename_i htr
    obtain ⟨y, hy, hr⟩ := Option.bind_eq_some_iff.mp hr
    obtain ⟨hne, hy⟩ := rootInode_eq_some hy
    obtain rfl := Option.some.inj hr
    refine .link y htr (fun he => hne (by simp [he])) hy ?_
    exact ⟨rfl, rfl, le_rfl, rfl, rfl, rfl, rfl, .inl rfl⟩
  · rename_i htr
    obtain rfl := Option.some.inj hr
    exact .wait (by simpa using htr) ⟨rfl, rfl, le_rfl, rfl, rfl, rfl, rfl, .inr ⟨rfl, rfl, rfl⟩⟩

theorem Group.link {r : Ref} {h : HLinkInfo Name} {y : ℕ} (hg : Group T s (T.ino n))
    (hpc : (s.name n).pc = .relink) (hf : s.fwd (T.ino n) = some r)
    (hreg : Registered T s (T.ino n) r h) (htr : h.transferred = true) (hne : n ≠ h.remote)
    (hy : (s.name h.remote).dst = some y) :
    0 < h.nlinkRC ∧ ∀ v, v = { s.name n with
        dst := some y
        tally := { (s.name n).tally with direct := (s.name n).tally.direct + 1 }
        pc := Pc.reverse } →
      Relinked T s t n v r h { h with nlinkRC := decSize h.nlinkRC } → Group T t (T.ino n) := by
  have hok := hg.names n rfl
  have hl : (s.name n).pc.looking = true := by rw [hpc]; rfl
  have hfl := hok.firstLook_of_early (.inr hl)
  have hm := hreg.member n rfl hne
  have hdirect := hok.untouched (.inr (.inl hl))
  have hrootdirect := (hg.names _ hreg.ino_root).untouched (.inr (.inr hreg.root.firstLook))
  have hroom := directs_add_two_le hne hreg.ino_root hdirect hrootdirect
  have hstx : T.stx n = T.stx h.remote := T.same_inode _ _ hreg.ino_root.symm
  have hrc := hreg.rc
  rw [htr, ← hstx, Bool.toNat_true] at hrc
  refine ⟨by omega, ?_⟩
  rintro v rfl hrl
  have hsucc := directs_succ (T := T) hrl.name hdirect (Nat.succ_ne_zero _)
  refine hg.relinked hf hreg hne hl hrl ?_ ?_ ?_
  · exact {
      stale := fun _ => hok.stale (by simp [hpc])
      home := by simp [SourceTree.atHome, Pc.looking, hfl]
      tmp := fun _ => hok.tmp (by simp [hpc])
      queued := by simp
      flags := by simp [hfl]
      look := by simp [Pc.before]
      offered := by simp
      undecided := by simp [Pc.early, Pc.looking]
      withdrawn := by simp
      linked := by simp
      untouched := by simp [Pc.early, Pc.looking, hfl] }
  · refine ⟨.inr (.inr rfl), hfl, fun _ => ?_, hm.listed, fun _ => .inr ⟨hy.symm, ?_⟩,
      fun _ => htr⟩
    · simp [SourceTree.replaces, hok.withdrawn hpc]
    · simp [SourceTree.firm, (hreg.root.transferred htr).1, Pc.before]
  · rw [hsucc, ← hstx]
    simp only [htr, Bool.toNat_true, decSize]
    split <;> omega

theorem Group.wait {r : Ref} {h : HLinkInfo Name} {v : NameState} (hg : Group T s (T.ino n))
    (hpc : (s.name n).pc = .relink) (hf : s.fwd (T.ino n) = some r)
    (hreg : Registered T s (T.ino n) r h) (htr : h.transferred = false) (hne : n ≠ h.remote)
    (hout : v.loc = { (s.name n).loc with
      out := { (s.name n).loc.out with isPendingHardlink := true } })
    (hpc' : v.pc = .reverse) (htmp : v.tmp = (s.name n).tmp)
    (htally : v.tally.direct = (s.name n).tally.direct)
    (hrl : Relinked T s t n v r h { h with links := n :: h.links }) : Group T t (T.ino n) := by
  have hok := hg.names n rfl
  have hl : (s.name n).pc.looking = true := by rw [hpc]; rfl
  have hfl := hok.firstLook_of_early (.inr hl)
  have hdirect := hok.untouched (.inr (.inl hl))
  refine hg.relinked hf hreg hne hl hrl ?_ ?_ ?_
  · exact {
      stale := fun _ => by rw [hout]; exact hok.stale (by simp [hpc])
      home := by simp [SourceTree.atHome, hpc', hout, Pc.looking, hfl]
      tmp := fun _ => by rw [htmp, hok.tmp (by simp [hpc])]
      queued := by simp [hpc']
      flags := by simp [hout, hfl]
      look := by simp [hpc', Pc.before]
      offered := by simp [hpc']
      undecided := by simp [hpc', Pc.early, Pc.looking]
      withdrawn := by simp [hpc']
      linked := by simp [hpc']
      untouched := fun _ => by rw [htally, hdirect] }
  · refine ⟨.inr (.inr (by rw [hpc']; rfl)), by rw [hout]; exact hfl, fun _ => ?_,
      fun _ => List.mem_cons_self, fun _ => ?_, ?_⟩
    · simp [SourceTree.replaces, hout, hok.withdrawn hpc]
    · exact .inl ⟨by rw [hout], htr, List.mem_cons_self⟩
    · rw [htally, hdirect]
      exact fun hc => absurd rfl hc
  · have hsame : T.directs t (T.ino n) = T.directs s (T.ino n) := by
      refine congrArg count (funext fun m => ?_)
      rw [hrl.name]
      by_cases hm : m = n
      · subst hm
        rw [Function.update_self, htally]
      · rw [Function.update_of_ne hm]
    rw [hsame]
    exact hreg.rc

def drainedInfo (h : HLinkInfo Name) (i : ℕ) : HLinkInfo Name :=
  { h with transferred := true, destInode := i, nlinkRC := decSize h.nlinkRC }

def NameState.handled (v : NameState) : NameState :=
  { v with tally := { v.tally with handled := v.tally.handled + 1 } }

structure Drained (s t : State Name) (n : Name) (r : Ref) (h : HLinkInfo Name) (y : ℕ) : Prop where
  fwd : t.fwd = s.fwd
  info : t.info = Function.update s.info r (some (drainedInfo h (s.name n).loc.finishIno))
  nextRef : s.nextRef ≤ t.nextRef
  root : t.name n = if decSize h.nlinkRC = 0 then (s.name n).handled.goto .handleRetire
    else (s.name n).handled.finish
  other : ∀ m, m ≠ n → t.name m = SourceTree.drainEntry .linked y (h.links.count m) (s.name m)

theorem drain_cases (hd : SourceTree.drain s n (fun _ => .linked) = some t) :
    ∃ h y, s.info (s.name n).loc.hinfoRef = some h ∧ n ∉ h.links ∧ (s.name n).dst = some y ∧
      Drained s t n (s.name n).loc.hinfoRef h y := by
  obtain ⟨h, hh, hd⟩ := Option.bind_eq_some_iff.mp hd
  obtain ⟨y, hy, hd⟩ := Option.bind_eq_some_iff.mp hd
  obtain ⟨-, hd⟩ := Option.ite_none_left_eq_some.mp hd
  obtain ⟨hn, hy⟩ := rootInode_eq_some hy
  obtain rfl := Option.some.inj hd
  refine ⟨h, y, hh, hn, hy, rfl, rfl, le_rfl, Function.update_self _ _ _, fun m hm => ?_⟩
  exact Function.update_of_ne hm _ _

theorem drainEntry_of_notMem {y : ℕ} {links : List Name} {m : Name} (hm : m ∉ links)
    (v : NameState) : SourceTree.drainEntry .linked y (links.count m) v = v := by
  rw [SourceTree.drainEntry, if_pos (List.count_eq_zero.mpr hm)]

theorem drainEntry_of_mem {y : ℕ} {links : List Name} {m : Name} (hm : m ∈ links)
    (hnd : links.Nodup) (v : NameState) : SourceTree.drainEntry .linked y (links.count m) v =
      { v with
        dst := some y
        tally := { v.tally with
          drained := v.tally.drained + 1
          counted := v.tally.counted + 1
          dirReleased := v.tally.dirReleased + 1
          pathReleased := v.tally.pathReleased + 1 } } := by
  rw [List.count_eq_one_of_mem hnd hm, SourceTree.drainEntry, if_neg Nat.one_ne_zero]

/-- Draining leaves the thread of an entry where it is. -/
theorem drainEntry_same (y k : ℕ) (v : NameState) :
    (SourceTree.drainEntry .linked y k v).loc = v.loc ∧ (SourceTree.drainEntry .linked y k v).pc = v.pc ∧
      (SourceTree.drainEntry .linked y k v).tmp = v.tmp ∧
      (SourceTree.drainEntry .linked y k v).tally.direct = v.tally.direct := by
  rw [SourceTree.drainEntry]
  split <;> exact ⟨rfl, rfl, rfl, rfl⟩

theorem NameOk.drainEntry {m : Name} {v : NameState} (hok : NameOk T m v)
    (hres : v.pc.resolved = true) (hfl : v.loc.out.firstLook = false) (y k : ℕ) :
    NameOk T m (SourceTree.drainEntry .linked y k v) := by
  obtain ⟨hl, hp, htmp, hd⟩ := drainEntry_same y k v
  have hfar : v.pc ≠ .register ∧ v.pc ≠ .promote ∧ v.pc.looking = false := by
    revert hres
    cases v.pc <;> decide
  have hrep : T.replaces m (SourceTree.drainEntry .linked y k v) = T.replaces m v := by
    rw [SourceTree.replaces, hl]
    rfl
  constructor
  · rw [hl, hp]
    exact hok.stale
  · simp [SourceTree.atHome, hl, hp, hfl, hfar]
  · rw [hp, htmp]
    exact hok.tmp
  · rw [hp, htmp, hrep]
    exact hok.queued
  · rw [hl, hp]
    exact hok.flags
  · rw [hl, hp]
    exact hok.look
  · rw [hl, hp]
    exact hok.offered
  · rw [hl, hp]
    exact hok.undecided
  · rw [hl, hp]
    exact hok.withdrawn
  · rw [hp]
    exact hok.linked
  · rw [hl, hp, hd]
    exact hok.untouched

theorem Drained.other_group {r : Ref} {h : HLinkInfo Name} {y i : ℕ} (hd : Drained s t n r h y)
    (hf : s.fwd (T.ino n) = some r) (hn : Group T s (T.ino n)) (hg : Group T s i)
    (hreg : Registered T s (T.ino n) r h) (hi : i ≠ T.ino n) : SameGroup T s t i where
  fwd := by rw [hd.fwd]
  info r' hr' := by rw [hd.info, Function.update_of_ne (hg.ref_ne hn hi hr' hf)]
  nextRef := hd.nextRef
  name m hm := by
    have hmn : m ≠ n := by
      rintro rfl
      exact hi hm.symm
    rw [hd.other m hmn, drainEntry_of_notMem]
    intro hl
    exact hi (hm.symm.trans (hreg.links m hl).1)

theorem Group.drained {r : Ref} {h : HLinkInfo Name} {y : ℕ} (hg : Group T s (T.ino n))
    (hpc : (s.name n).pc = .drain) (hf : s.fwd (T.ino n) = some r) (hroot : n = h.remote)
    (hreg : Registered T s (T.ino n) r h) (hy : (s.name n).dst = some y)
    (hd : Drained s t n r h y) :
    t.name n = (s.name n).handled.finish ∧ Group T t (T.ino n) := by
  have hok := hg.names n rfl
  have hr : Root T r h (s.name n) := hroot ▸ hreg.root
  have hn := hok.linked (.inr hpc)
  obtain ⟨-, hpend, hflag⟩ := hok.flags hr.firstLook
  have htr : h.transferred = false := by
    cases ht : h.transferred with
    | false => rfl
    | true => simpa [hpc] using (hr.transferred ht).1
  have hzero : T.directs s (T.ino n) = 0 := by
    refine count_eq_zero.mpr fun m => ?_
    by_cases hm : T.ino m = T.ino n
    · have : (s.name m).tally.direct = 0 := by
        by_cases hmn : m = n
        · subst hmn
          exact hok.untouched (.inr (.inr hr.firstLook))
        · by_contra hne
          simpa [htr] using (hreg.member m hm (hroot ▸ hmn)).direct hne
      simp [this]
    · simp [hm]
  have hrc := hreg.rc
  rw [hzero, htr, ← hroot] at hrc
  have hdec : decSize h.nlinkRC + 1 = (T.stx n).stx_nlink := by
    simp only [Bool.toNat_false, Nat.add_zero] at hrc
    rw [decSize, if_neg (by omega)]
    omega
  have hname : t.name n = (s.name n).handled.finish := by rw [hd.root, if_neg (by omega)]
  refine ⟨hname, fun m hm => ?_, fun hf' => by simp [hd.fwd, hf] at hf', fun r' hr' => ?_⟩
  · by_cases hmn : m = n
    · subst hmn
      rw [hname]
      exact {
        stale := fun _ => hok.stale (by simp [hpc])
        home := fun hat => hok.home (by
          simpa [SourceTree.atHome, NameState.finish, NameState.handled, hpc, hr.firstLook,
            Pc.looking, Pc.before, SourceTree.replaces] using hat)
        tmp := fun _ => hok.tmp (by simp [hpc])
        queued := by simp [NameState.finish, NameState.handled]
        flags := fun _ => ⟨rfl, hpend, hflag⟩
        look := by simp [NameState.finish, NameState.handled, Pc.before]
        offered := by simp [NameState.finish, NameState.handled]
        undecided := by simp [NameState.finish, NameState.handled, Pc.early, Pc.looking]
        withdrawn := by simp [NameState.finish, NameState.handled]
        linked := by simp [NameState.finish, NameState.handled]
        untouched := fun _ => hok.untouched (.inr (.inr hr.firstLook)) }
    · rw [hd.other m hmn]
      by_cases hml : m ∈ h.links
      · exact (hg.names m hm).drainEntry (hreg.links m hml).2.2.2
          (hreg.member m hm (hroot ▸ hmn)).firstLook _ _
      · rw [drainEntry_of_notMem hml]
        exact hg.names m hm
  · rw [hd.fwd] at hr'
    obtain rfl : r = r' := Option.some.inj (hf.symm.trans hr')
    refine ⟨drainedInfo h (s.name n).loc.finishIno, by rw [hd.info, Function.update_self],
      hreg.ref_lt.trans_le hd.nextRef, hreg.ino_root, ?_, ?_, ?_, hreg.nodup, ?_⟩
    · show Root T r _ (t.name h.remote)
      rw [← hroot, hname]
      exact {
        firstLook := hr.firstLook
        drain := by simp [NameState.finish, NameState.handled]
        moved := by simp [NameState.finish, NameState.handled]
        recorded := by simp [drainedInfo]
        handled := by simp [drainedInfo]
        transferred := fun _ => ⟨rfl, hr.moved (.inr hpc)⟩ }
    · intro m hm hmr
      have hmn : m ≠ n := fun he => hmr (he.trans hroot)
      have hmem := hreg.member m hm hmr
      obtain ⟨hl, hp, -, hdir⟩ := drainEntry_same y (h.links.count m) (s.name m)
      show Member T r _ (t.name h.remote) m (t.name m)
      rw [hd.other m hmn, ← hroot, hname]
      constructor
      · rw [hl, hp]
        exact hmem.phase
      · rw [hl]
        exact hmem.firstLook
      · rw [SourceTree.replaces, hl, hp]
        exact hmem.replaces
      · rw [hl]
        exact hmem.listed
      · rw [hp]
        intro hres
        refine .inr ⟨?_, by simp [SourceTree.firm, NameState.finish, NameState.handled, Pc.before]⟩
        by_cases hml : m ∈ h.links
        · rw [drainEntry_of_mem hml hreg.nodup]
          exact hy.symm
        · rw [drainEntry_of_notMem hml]
          rcases hmem.attached hres with ⟨-, -, hml'⟩ | ⟨hdst, -⟩
          · exact absurd hml' hml
          · rw [hdst, ← hroot]
            rfl
      · exact fun _ => rfl
    · intro m hm
      obtain ⟨hmi, hmr, hpend, hres⟩ := hreg.links m hm
      have hmn : m ≠ n := fun he => hmr (he.trans hroot)
      obtain ⟨hl, hp, -, -⟩ := drainEntry_same y (h.links.count m) (s.name m)
      refine ⟨hmi, hmr, ?_⟩
      rw [hd.other m hmn, hl, hp]
      exact ⟨hpend, hres⟩
    · have hsame : T.directs t (T.ino n) = T.directs s (T.ino n) := by
        refine congrArg count (funext fun m => ?_)
        by_cases hmn : m = n
        · subst hmn
          rw [hname]
          rfl
        · rw [hd.other m hmn, (drainEntry_same y (h.links.count m) (s.name m)).2.2.2]
      rw [hsame, hzero]
      show decSize h.nlinkRC + 1 = (T.stx h.remote).stx_nlink
      rw [hdec, hroot]

end Copy2.HLink
