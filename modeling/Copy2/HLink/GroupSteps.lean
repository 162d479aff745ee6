import Copy2.HLink.Group

/-! # What one step does to a group -/
namespace Copy2.HLink
open FileJob Lib Os

set_option linter.unusedSectionVars false

variable {Name : Type} [Fintype Name] [DecidableEq Name]
variable {T : SourceTree Name} {s s' t : State Name} {n : Name}

/-- Only the reverse table and its records have changed. -/
structure Quiet (s t : State Name) : Prop where
  name : t.name = s.name
  fwd : t.fwd = s.fwd
  info : t.info = s.info
  nextRef : s.nextRef ≤ t.nextRef

theorem Quiet.refl (s : State Name) : Quiet s s := ⟨rfl, rfl, rfl, le_rfl⟩

theorem Quiet.setRevinfo (h : Quiet s t) (q : Ref) (x : Option HLinkInfoRev) :
    Quiet s (t.setRevinfo q x) :=
  ⟨h.name, h.fwd, h.info, h.nextRef⟩

theorem Quiet.dropRev (h : Quiet s t) (d : ℕ) : Quiet s (SourceTree.dropRev t d) := by
  rw [SourceTree.dropRev]
  split
  · exact ⟨h.name, h.fwd, h.info, h.nextRef⟩
  · exact h

theorem Quiet.addRev (h : Quiet s t) (d : ℕ) (x : HLinkInfoRev) :
    Quiet s (SourceTree.addRev t d x) :=
  ⟨h.name, h.fwd, h.info, h.nextRef.trans (Nat.le_succ _)⟩

theorem Quiet.put (h : Quiet s t) (n : Name) (v : NameState) : Moved s (t.put n v) n v :=
  ⟨h.fwd, h.info, h.nextRef, by rw [State.put, h.name]⟩

theorem Quiet.goto (h : Quiet s t) (n : Name) (p : Pc) :
    Moved s (t.goto n p) n ((s.name n).goto p) := by
  rw [State.goto, h.name]
  exact h.put n _

/-- The reverse part of a registration leaves everything else alone. -/
theorem reverseWrite_moved (h : T.reverseWrite s n = some t) :
    Moved s t n ((s.name n).goto .transfer) := by
  simp only [SourceTree.reverseWrite] at h
  split at h
  · split at h
    · split at h
      · obtain rfl := Option.some.inj h
        exact ((Quiet.refl s).addRev _ _).goto n _
      · obtain rfl := Option.some.inj h
        exact (Quiet.refl s).goto n _
    · rename_i q hq
      obtain ⟨x, hx, h⟩ := Option.bind_eq_some_iff.mp h
      split at h
      · cases h
      · split at h
        · obtain rfl := Option.some.inj h
          exact (((Quiet.refl s).setRevinfo _ _).dropRev _).goto n _
        · obtain rfl := Option.some.inj h
          exact ((Quiet.refl s).setRevinfo _ _).goto n _
  · obtain rfl := Option.some.inj h
    exact (Quiet.refl s).goto n _

theorem reverse_moved (h : SourceTree.reverse s n = some t) :
    ∃ p : Pc, Moved s t n ((s.name n).goto p) ∧ (p = .transfer ∨ p = .revPromote ∨ p = .revRetire) := by
  simp only [SourceTree.reverse] at h
  split at h
  · split at h
    · obtain rfl := Option.some.inj h
      refine ⟨_, (Quiet.refl s).goto n _, ?_⟩
      split <;> simp
    · obtain ⟨x, hx, h⟩ := Option.bind_eq_some_iff.mp h
      split at h
      · cases h
      · obtain rfl := Option.some.inj h
        refine ⟨_, ((Quiet.refl s).setRevinfo _ _).goto n _, ?_⟩
        split <;> simp
  · obtain rfl := Option.some.inj h
    exact ⟨_, (Quiet.refl s).goto n _, .inl rfl⟩

theorem revPromote_moved (h : T.revPromote s n = some t) :
    Moved s t n { s.name n with
      loc := { (s.name n).loc with revinfoRef := s.rev (T.ino n) }, pc := .transfer } := by
  rw [SourceTree.revPromote] at h
  split at h
  · cases h
  · have hmv := reverseWrite_moved h
    refine ⟨hmv.fwd, hmv.info, hmv.nextRef, hmv.name.trans ?_⟩
    simp [State.put, NameState.goto]

theorem revRetire_moved (h : SourceTree.revRetire s n = some t) :
    Moved s t n ((s.name n).goto .transfer) := by
  rw [SourceTree.revRetire] at h
  split at h
  · cases h
  · obtain ⟨q, hq, h⟩ := Option.bind_eq_some_iff.mp h
    obtain ⟨x, hx, h⟩ := Option.bind_eq_some_iff.mp h
    split at h
    · cases h
    · obtain rfl := Option.some.inj h
      exact (((Quiet.refl s).setRevinfo _ _).dropRev _).goto n _

/-- Two names of one source inode make it a link. -/
theorem one_lt_nlink {a b : Name} (hab : a ≠ b) (hino : T.ino a = T.ino b) :
    1 < (T.stx a).stx_nlink := by
  refine lt_of_lt_of_le ?_ (T.names_le_nlink a)
  refine Finset.one_lt_card.mpr ⟨a, by simp, b, ?_, hab⟩
  simpa using show (T.stx b).stx_ino = (T.stx a).stx_ino from hino.symm

theorem Root.rooted {r : Ref} {h : HLinkInfo Name} {v : NameState} {m : Name}
    (hr : Root T r h v) (hok : NameOk T m v) : v.pc.rooted = true :=
  (hok.flags hr.firstLook).1

/-- A name is unregistered, a root or a member. -/
theorem Group.cases (hg : Group T s (T.ino n)) {P : Prop}
    (hun : s.fwd (T.ino n) = none → Unregistered T n (s.name n) → P)
    (hroot : ∀ r h, s.fwd (T.ino n) = some r → s.info r = some h → n = h.remote →
      Registered T s (T.ino n) r h → Root T r h (s.name n) → P)
    (hmem : ∀ r h, s.fwd (T.ino n) = some r → s.info r = some h → n ≠ h.remote →
      Registered T s (T.ino n) r h → Member T r h (s.name h.remote) n (s.name n) → P) : P := by
  cases hf : s.fwd (T.ino n) with
  | none => exact hun hf (hg.unregistered hf n rfl)
  | some r =>
    obtain ⟨h, hh, hreg⟩ := hg.registered r hf
    by_cases hn : n = h.remote
    · exact hroot r h hf hh hn hreg (hn ▸ hreg.root)
    · exact hmem r h hf hh hn hreg (hreg.member n rfl hn)

/-- The counts of the forward records never reach the branches that free them. -/
theorem Group.not_retire (hg : Group T s (T.ino n)) :
    (s.name n).pc ≠ .retire ∧ (s.name n).pc ≠ .handleRetire := by
  have hok := hg.names n rfl
  refine hg.cases ?_ ?_ ?_
  · rintro - (he | ⟨-, -, hp⟩)
    · constructor <;> intro hp <;> simp [hp, Pc.early] at he
    · constructor <;> intro hp' <;> simp [hp'] at hp
  · intro r h _ _ _ _ hr
    have := hr.rooted hok
    constructor <;> intro hp <;> simp [hp, Pc.rooted] at this
  · intro r h _ _ _ _ hm
    have := hm.phase
    constructor <;> intro hp <;> simp [hp, Pc.early, Pc.looking, Pc.resolved] at this

/-- A name on its way through the reverse part is a member. -/
theorem Group.member_of_reverse (hg : Group T s (T.ino n))
    (hpc : (s.name n).pc = .reverse ∨ (s.name n).pc = .revPromote ∨ (s.name n).pc = .revRetire) :
    ∃ r h, s.fwd (T.ino n) = some r ∧ s.info r = some h ∧ n ≠ h.remote ∧
      Member T r h (s.name h.remote) n (s.name n) := by
  have hok := hg.names n rfl
  have hearly : (s.name n).pc.early = false := by rcases hpc with h | h | h <;> rw [h] <;> rfl
  have hrooted : (s.name n).pc.rooted = false := by rcases hpc with h | h | h <;> rw [h] <;> rfl
  refine hg.cases ?_ ?_ ?_
  · rintro - (he | ⟨-, hfl, -⟩)
    · simp [hearly] at he
    · have := (hok.flags hfl).1
      simp [hrooted] at this
  · intro r h _ _ _ _ hr
    have := hr.rooted hok
    simp [hrooted] at this
  · intro r h hf hh hne _ hm
    exact ⟨r, h, hf, hh, hne, hm⟩

theorem moveOk_resolved (hg : Group T s (T.ino n)) {p : Pc} (q : Option Ref)
    (hpc : (s.name n).pc = .reverse ∨ (s.name n).pc = .revPromote ∨ (s.name n).pc = .revRetire)
    (hp : p = .transfer ∨ p = .revPromote ∨ p = .revRetire) :
    MoveOk T s n { s.name n with loc := { (s.name n).loc with revinfoRef := q }, pc := p } := by
  have hok := hg.names n rfl
  obtain ⟨r, h, hf, hh, hne, hm⟩ := hg.member_of_reverse hpc
  have hstart : (s.name n).pc ≠ .start := by rcases hpc with h | h | h <;> rw [h] <;> decide
  have hqueued : (s.name n).pc ≠ .queued := by rcases hpc with h | h | h <;> rw [h] <;> decide
  have hres : (s.name n).pc.resolved = true := by rcases hpc with h | h | h <;> rw [h] <;> rfl
  have hres' : p.resolved = true := by rcases hp with h | h | h <;> rw [h] <;> rfl
  have hearly' : p.early = false ∧ p.looking = false := by
    rcases hp with h | h | h <;> rw [h] <;> decide
  have hdone : (s.name n).pc ≠ .done := by rcases hpc with h | h | h <;> rw [h] <;> decide
  have hdone' : p ≠ .done := by rcases hp with h | h | h <;> rw [h] <;> decide
  refine .of_member hf hh hne ?_ ?_ ?_ ?_
  · exact {
      stale := fun _ => hok.stale hstart
      home := by
        rcases hp with rfl | rfl | rfl <;> simp [SourceTree.atHome, Pc.looking, hm.firstLook]
      tmp := fun _ => hok.tmp hqueued
      queued := by rcases hp with rfl | rfl | rfl <;> simp
      flags := by simp [hm.firstLook]
      look := by rcases hp with rfl | rfl | rfl <;> simp [Pc.before]
      offered := by rcases hp with rfl | rfl | rfl <;> simp
      undecided := by simp [hearly']
      withdrawn := by rcases hp with rfl | rfl | rfl <;> simp
      linked := by rcases hp with rfl | rfl | rfl <;> simp
      untouched := by simp [hearly', hm.firstLook] }
  · exact {
      notDone := hdone
      tally := .same hdone' rfl
      files := .same rfl rfl fun hr => absurd hr.2.1 (by simp [hm.firstLook])
      settled := fun _ => by simp [Pc.settled, hearly']
      pending := rfl
      first := fun hfl => by simp [hm.firstLook] at hfl
      decided := fun _ => .inr (.inr ⟨hres, rfl⟩) }
  · exact ⟨.inr (.inr hres'), hm.firstLook, fun _ => hm.replaces hres, hm.listed,
      fun _ => hm.attached hres, hm.direct⟩
  · exact fun hp _ => ⟨hp, hres'⟩

/-- A name that has not seen the forward table is no root. -/
theorem Group.early_cases (hg : Group T s (T.ino n)) (he : (s.name n).pc.early = true) {P : Prop}
    (hun : s.fwd (T.ino n) = none → P)
    (hmem : ∀ r h, s.fwd (T.ino n) = some r → s.info r = some h → n ≠ h.remote →
      Registered T s (T.ino n) r h → Member T r h (s.name h.remote) n (s.name n) → P) : P := by
  refine hg.cases (fun hf _ => hun hf) ?_ hmem
  intro r h _ _ _ _ hr
  have hroot := hr.rooted (hg.names n rfl)
  simp [Pc.rooted_of_early he] at hroot

theorem Waits.of_early {u v : NameState} (he : u.pc.early = true ∨ u.pc.looking = true) :
    Waits u v := by
  intro _ hres
  rcases he with he | he
  · simp [Pc.resolved_of_early he] at hres
  · simp [Pc.resolved_of_looking he] at hres

theorem moveOk_early (hg : Group T s (T.ino n)) (he : (s.name n).pc.early = true)
    {v : NameState} (ok : NameOk T n v) (hv : v.pc.early = true)
    (hfl : v.loc.out.firstLook = false) (hpend : v.loc.out.isPendingHardlink = false)
    (hfiles : v.dst = (s.name n).dst ∧ v.tmp = (s.name n).tmp)
    (htally : v.tally = (s.name n).tally) : MoveOk T s n v := by
  have hch : Change T s n v := {
    notDone := by
      intro hd
      simp [hd, Pc.early] at he
    tally := .same (by
      intro hd
      simp [hd, Pc.early] at hv) htally
    files := .same hfiles.1 hfiles.2 fun hr => absurd hr.2.1 (by simp [hfl])
    settled := by simp [Pc.settled, he]
    pending := by rw [hpend, (hg.names n rfl).undecided (.inl he)]
    first := fun _ => .inr he
    decided := by simp [Pc.resolved_of_early hv] }
  refine hg.early_cases he ?_ ?_
  · exact fun hf => .of_unregistered hf ok hch (.inl hv)
  · intro r h hf hh hne _ hm
    have hres := Pc.resolved_of_early hv
    refine .of_member hf hh hne ok hch ?_ (.of_early (.inl he))
    exact ⟨.inl hv, hfl, by simp [hres], by simp [hpend], by simp [hres],
      by rw [htally]; exact hm.direct⟩

theorem statDest_stale : (T.statDest s n).origShouldTransfer = T.stale n (T.statDest s n) := by
  rw [SourceTree.statDest]
  split <;> simp [SourceTree.stale, SourceTree.differs]

theorem statDest_home : (T.statDest s n).home = (s.name n).dst := by
  rw [SourceTree.statDest]
  split <;> rename_i h <;> simp [Local.home, h]

theorem statDest_out : (T.statDest s n).out = ⟨false, false, false⟩ := by
  rw [SourceTree.statDest]
  split <;> rfl

theorem start_moved : ∃ v, Moved s (T.start s n) n v ∧ v.dst = (s.name n).dst ∧
    v.tmp = (s.name n).tmp ∧ v.tally = (s.name n).tally ∧
    (v.pc = .register ∧ v.loc = T.statDest s n ∨
      (T.stx n).stx_nlink ≤ 1 ∧ v.pc = .transfer ∧ v.loc = { T.statDest s n with
        out := ⟨(T.statDest s n).origShouldTransfer, true, false⟩ }) := by
  rw [SourceTree.start]
  split
  · exact ⟨_, (Quiet.refl s).put n _, rfl, rfl, rfl, .inl ⟨rfl, rfl⟩⟩
  · rename_i h
    exact ⟨_, (Quiet.refl s).put n _, rfl, rfl, rfl, .inr ⟨by omega, rfl, rfl⟩⟩

theorem Group.start (hg : Group T s (T.ino n)) (hpc : (s.name n).pc = .start) :
    ∃ v, Moved s (T.start s n) n v ∧ MoveOk T s n v := by
  have hok := hg.names n rfl
  have htmp : (s.name n).tmp = none := hok.tmp (by simp [hpc])
  have hdirect : (s.name n).tally.direct = 0 := hok.untouched (by simp [hpc, Pc.early])
  have he : (s.name n).pc.early = true := by rw [hpc]; rfl
  obtain ⟨v, hmv, hdst, htmp', htally, ⟨hv, hl⟩ | ⟨hn, hv, hl⟩⟩ := start_moved (T := T) (s := s) (n := n)
  · refine ⟨v, hmv, moveOk_early hg he ?_ (by rw [hv]; rfl) (by rw [hl, statDest_out])
      (by rw [hl, statDest_out]) ⟨hdst, htmp'⟩ htally⟩
    exact {
      stale := fun _ => by rw [hl, statDest_stale]
      home := fun _ => by rw [hdst, hl, statDest_home]
      tmp := fun _ => by rw [htmp', htmp]
      queued := by simp [hv]
      flags := by simp [hl, statDest_out]
      look := by simp [hv, Pc.before]
      offered := by simp [hv]
      undecided := fun _ => by rw [hl, statDest_out]
      withdrawn := by simp [hv]
      linked := by simp [hv]
      untouched := fun _ => by rw [htally, hdirect] }
  · refine ⟨v, hmv, hg.early_cases he ?_ ?_⟩
    · refine fun hf => .of_unregistered hf ?_ ?_ (.inr ⟨hn, by rw [hl], .inl hv⟩)
      rotate_left
      · exact {
          notDone := by simp [hpc]
          tally := .same (by simp [hv]) htally
          files := .same hdst htmp' fun hr => absurd hr.2.2 (by simp [hv, Pc.before])
          settled := by simp [Pc.settled, he]
          pending := by rw [hl, hok.undecided (.inl he)]
          first := fun _ => .inr he
          decided := fun _ => .inl (by rw [hl]) }
      exact {
        stale := fun _ => by rw [hl]; exact statDest_stale
        home := fun _ => by rw [hdst, hl]; exact statDest_home.symm
        tmp := fun _ => by rw [htmp', htmp]
        queued := by simp [hv]
        flags := fun _ => by simp [hv, hl, Pc.rooted]
        look := fun _ _ => hv
        offered := by simp [hv]
        undecided := by simp [hv, Pc.early, Pc.looking]
        withdrawn := by simp [hv]
        linked := by simp [hv]
        untouched := fun _ => by rw [htally, hdirect] }
    · intro r h _ _ hne hreg _
      have := one_lt_nlink hne hreg.ino_root.symm
      omega

theorem NameOk.firstLook_of_early {v : NameState} (hok : NameOk T n v)
    (h : v.pc.early = true ∨ v.pc.looking = true) : v.loc.out.firstLook = false := by
  refine Bool.eq_false_iff.mpr fun hfl => ?_
  have hroot := (hok.flags hfl).1
  rcases h with h | h
  · simp [Pc.rooted_of_early h] at hroot
  · simp [Pc.rooted_of_looking h] at hroot

theorem Group.register (hg : Group T s (T.ino n)) (hpc : (s.name n).pc = .register) :
    ∃ v, Moved s (T.register s n) n v ∧ MoveOk T s n v := by
  have hok := hg.names n rfl
  have he : (s.name n).pc.early = true := by rw [hpc]; rfl
  have htmp : (s.name n).tmp = none := hok.tmp (by simp [hpc])
  have hhome : (s.name n).dst = (s.name n).loc.home := hok.home (by simp [SourceTree.atHome, hpc])
  have hdirect := hok.untouched (.inl he)
  rw [SourceTree.register]
  refine hg.early_cases he ?_ ?_
  · intro hf
    rw [hf]
    refine ⟨_, (Quiet.refl s).put n _, moveOk_early hg he ?_ rfl rfl rfl ⟨rfl, rfl⟩ rfl⟩
    exact {
      stale := fun _ => hok.stale (by simp [hpc])
      home := fun _ => hhome
      tmp := fun _ => htmp
      queued := by simp
      flags := by simp
      look := by simp [Pc.before]
      offered := by simp
      undecided := fun _ => rfl
      withdrawn := by simp
      linked := by simp
      untouched := fun _ => hdirect }
  · intro r h hf hh hne hreg hm
    rw [hf]
    refine ⟨_, (Quiet.refl s).put n _, .of_member hf hh hne ?_ ?_ ?_ (.of_early (.inl he))⟩
    · exact {
        stale := fun _ => hok.stale (by simp [hpc])
        home := fun _ => hhome
        tmp := fun _ => htmp
        queued := by simp
        flags := by simp
        look := by simp [Pc.before]
        offered := fun _ => rfl
        undecided := fun _ => rfl
        withdrawn := by simp
        linked := by simp
        untouched := fun _ => hdirect }
    · exact {
        notDone := by simp [hpc]
        tally := .same (by simp) rfl
        files := .same rfl rfl fun hr => absurd hr.2.1 (by simp)
        settled := by simp [Pc.settled, he]
        pending := (hok.undecided (.inl he)).symm
        first := fun _ => .inr he
        decided := by simp [Pc.resolved] }
    · exact ⟨.inr (.inl ⟨rfl, rfl⟩), rfl, by simp [Pc.resolved], by simp, by simp [Pc.resolved],
        hm.direct⟩

theorem Group.reroll (hg : Group T s (T.ino n)) (hpc : (s.name n).pc = .promote) :
    MoveOk T s n ((s.name n).goto .register) := by
  have hok := hg.names n rfl
  have he : (s.name n).pc.early = true := by rw [hpc]; rfl
  have hfl := hok.firstLook_of_early (.inl he)
  refine moveOk_early hg he ?_ rfl hfl (hok.undecided (.inl he)) ⟨rfl, rfl⟩ rfl
  exact {
    stale := fun _ => hok.stale (by simp [hpc])
    home := fun _ => hok.home (by simp [SourceTree.atHome, hpc])
    tmp := fun _ => hok.tmp (by simp [hpc])
    queued := by simp [NameState.goto]
    flags := by simp [NameState.goto, hfl]
    look := by simp [NameState.goto, Pc.before]
    offered := by simp [NameState.goto]
    undecided := fun _ => hok.undecided (.inl he)
    withdrawn := by simp [NameState.goto]
    linked := by simp [NameState.goto]
    untouched := fun _ => hok.untouched (.inl he) }

/-- A name that looks at a forward record looks at that of its group. -/
theorem Group.looking_cases (hg : Group T s (T.ino n)) (hl : (s.name n).pc.looking = true) :
    ∃ r h, s.fwd (T.ino n) = some r ∧ s.info r = some h ∧ n ≠ h.remote ∧
      Registered T s (T.ino n) r h ∧ Member T r h (s.name h.remote) n (s.name n) ∧
      (s.name n).loc.hinfoRef = r := by
  have hok := hg.names n rfl
  refine hg.cases ?_ ?_ ?_
  · rintro - (he | ⟨-, hfl, -⟩)
    · revert he hl
      cases (s.name n).pc <;> simp [Pc.early, Pc.looking]
    · simp [hok.firstLook_of_early (.inr hl)] at hfl
  · intro r h _ _ _ _ hr
    have hfl := hr.firstLook
    simp [hok.firstLook_of_early (.inr hl)] at hfl
  · intro r h hf hh hne hreg hm
    refine ⟨r, h, hf, hh, hne, hreg, hm, ?_⟩
    rcases hm.phase with he | ⟨-, hr⟩ | hres
    · revert he hl
      cases (s.name n).pc <;> simp [Pc.early, Pc.looking]
    · exact hr
    · simp [Pc.resolved_of_looking hl] at hres

/-- When a name has the destination inode that is recorded for its root, the root has been
transferred, or it exists and is not to be replaced. -/
def KeepsRoot (T : SourceTree Name) (s : State Name) : Op Name → Prop
  | .run n _ => (s.name n).pc = .compare → ∀ h, s.info (s.name n).loc.hinfoRef = some h →
    (s.name n).loc.destExists = true → (s.name n).loc.destStx.stx_ino = h.destInode →
    h.transferred = true ∨
      (s.name h.remote).loc.destExists = true ∧ T.replaces h.remote (s.name h.remote) = false
  | _ => True

theorem compare_moved (h : SourceTree.compare s n = some t) :
    ∃ x, s.info (s.name n).loc.hinfoRef = some x ∧
      (Moved s t n { s.name n with
          loc := { (s.name n).loc with
            out := { (s.name n).loc.out with shouldTransfer := false } }
          pc := .relink } ∨
        (s.name n).loc.destExists = true ∧ (s.name n).loc.destStx.stx_ino = x.destInode ∧
          Moved s t n ((s.name n).goto .reverse)) := by
  obtain ⟨x, hx, h⟩ := Option.bind_eq_some_iff.mp h
  refine ⟨x, hx, ?_⟩
  split at h
  · obtain rfl := Option.some.inj h
    exact .inl ((Quiet.refl s).put n _)
  · rename_i hcond
    obtain rfl := Option.some.inj h
    simp only [Bool.or_eq_true, Bool.not_eq_eq_eq_not, Bool.not_true, bne_iff_ne, ne_eq,
      not_or, Bool.not_eq_false, not_not] at hcond
    exact .inr ⟨hcond.1, hcond.2, (Quiet.refl s).goto n _⟩

/-- A root that exists and stays is joined by every name with its inode, and none of them
is to be replaced. -/
theorem joined_of_same {r : Ref} {h : HLinkInfo Name} (hok : NameOk T n (s.name n))
    (hroot : Root T r h (s.name h.remote)) (hokr : NameOk T h.remote (s.name h.remote))
    (hino : T.ino h.remote = T.ino n) (hpc : (s.name n).pc = .compare)
    (hd : (s.name n).loc.destExists = true) (heq : (s.name n).loc.destStx.stx_ino = h.destInode)
    (hex : (s.name h.remote).loc.destExists = true)
    (hrep : T.replaces h.remote (s.name h.remote) = false) :
    T.replaces n (s.name n) = false ∧ (s.name n).dst = (s.name h.remote).dst := by
  have hhome := hokr.home (by simp [SourceTree.atHome, hroot.firstLook, hrep])
  have hdst := hok.home (by simp [SourceTree.atHome, Pc.looking, hpc])
  rw [Local.home, if_pos hex] at hhome
  rw [Local.home, if_pos hd] at hdst
  have hsame : (s.name n).loc.destStx.stx_ino = (s.name h.remote).loc.destStx.stx_ino := by
    cases htr : h.transferred with
    | false => rw [heq, hroot.recorded htr]
    | true =>
      have := (hroot.transferred htr).2.symm.trans hhome
      rw [heq, Option.some.inj this]
  refine ⟨?_, by rw [hdst, hhome, hsame]⟩
  have hstx : T.stx n = T.stx h.remote := T.same_inode _ _ hino.symm
  rw [SourceTree.replaces, hok.offered hpc, hok.stale (by simp [hpc])]
  have hstale := hokr.stale (by
    intro hst
    have := (hokr.flags hroot.firstLook).1
    simp [hst, Pc.rooted] at this)
  have hflag := (hokr.flags hroot.firstLook).2.2
  have hcopied : T.copied n = T.copied h.remote := by
    rw [SourceTree.copied, SourceTree.copied, hstx]
  have hst : T.stale n (s.name n).loc = T.stale h.remote (s.name h.remote).loc := by
    rw [SourceTree.stale, SourceTree.stale, hd, hex, hstx, hsame]
  rw [hst, ← hstale, hcopied]
  rw [SourceTree.replaces] at hrep
  cases ho : (s.name h.remote).loc.origShouldTransfer with
  | false => rfl
  | true =>
    rw [hflag ho] at hrep
    exact hrep

/-- A name that goes on to the record of its root is still undecided. -/
theorem Group.compared (hg : Group T s (T.ino n)) (hpc : (s.name n).pc = .compare)
    {v : NameState} (hv : v = { s.name n with
      loc := { (s.name n).loc with
        out := { (s.name n).loc.out with shouldTransfer := false } }
      pc := Pc.relink }) : MoveOk T s n v := by
  have hok := hg.names n rfl
  have hl : (s.name n).pc.looking = true := by rw [hpc]; rfl
  obtain ⟨r, x, hf, hx, hne, hreg, hm, href⟩ := hg.looking_cases hl
  have hfl := hok.firstLook_of_early (.inr hl)
  subst hv
  refine .of_member hf hx hne ?_ ?_ ?_ (.of_early (.inr hl))
  · exact {
      stale := fun _ => hok.stale (by simp [hpc])
      home := fun _ => hok.home (by simp [SourceTree.atHome, hl])
      tmp := fun _ => hok.tmp (by simp [hpc])
      queued := by simp
      flags := by simp [hfl]
      look := by simp [Pc.before]
      offered := by simp
      undecided := fun _ => hok.undecided (.inr hl)
      withdrawn := by simp
      linked := by simp
      untouched := fun _ => hok.untouched (.inr (.inl hl)) }
  · exact {
      notDone := by simp [hpc]
      tally := .same (by simp) rfl
      files := .same rfl rfl fun hr => absurd hr.2.1 (by simp [hfl])
      settled := by simp [Pc.settled, hl]
      pending := rfl
      first := .inl
      decided := fun _ => .inr (.inl hpc) }
  · exact ⟨.inr (.inl ⟨rfl, href⟩), hfl, by simp [Pc.resolved], hm.listed, by simp [Pc.resolved],
      hm.direct⟩

theorem Group.compare (hg : Group T s (T.ino n)) (hfresh : Fresh T s)
    (hpc : (s.name n).pc = .compare) {y : ℕ} (hk : KeepsRoot T s (.run n y))
    (h : SourceTree.compare s n = some t) : ∃ v, Moved s t n v ∧ MoveOk T s n v := by
  have hok := hg.names n rfl
  have hl : (s.name n).pc.looking = true := by rw [hpc]; rfl
  obtain ⟨x', hx', hmv | ⟨hd, heq, hmv⟩⟩ := compare_moved h
  · exact ⟨_, hmv, hg.compared hpc rfl⟩
  · obtain ⟨r, x, hf, hx, hne, hreg, hm, href⟩ := hg.looking_cases hl
    have hfl := hok.firstLook_of_early (.inr hl)
    rw [href] at hx'
    obtain rfl : x = x' := Option.some.inj (hx.symm.trans hx')
    have hokr := hg.names _ hreg.ino_root
    have hsettled : T.firm x.remote (s.name x.remote) = true ∧
        T.replaces n (s.name n) = false ∧ (s.name n).dst = (s.name x.remote).dst := by
      have hkeep := hk hpc x (href ▸ hx) hd heq
      have hdst := hok.home (by simp [SourceTree.atHome, hl])
      rw [Local.home, if_pos hd, heq] at hdst
      cases hrep : T.replaces x.remote (s.name x.remote) with
      | true =>
        -- a new inode has no name that is still looking
        have htr : x.transferred = true := by simpa [hrep] using hkeep
        obtain ⟨hdone, hdstr⟩ := hreg.root.transferred htr
        have := (hfresh.replaced _ hrep hreg.root.firstLook (by rw [hdone]; rfl) n
          (hdst.trans hdstr.symm)).2
        simp [Pc.settled, hl] at this
      | false =>
        have hex : (s.name x.remote).loc.destExists = true := by
          rcases hkeep with htr | ⟨hex, -⟩
          · have hhome := hokr.home (by simp [SourceTree.atHome, hreg.root.firstLook, hrep])
            rw [(hreg.root.transferred htr).2, Local.home] at hhome
            by_contra hne'
            simp [hne'] at hhome
          · exact hex
        exact ⟨by simp [SourceTree.firm, hrep],
          joined_of_same hok hreg.root hokr hreg.ino_root hpc hd heq hex hrep⟩
    refine ⟨_, hmv, .of_member hf hx hne ?_ ?_ ?_ (.of_early (.inr hl))⟩
    · exact {
        stale := fun _ => hok.stale (by simp [hpc])
        home := by simp [SourceTree.atHome, NameState.goto, Pc.looking, hfl]
        tmp := fun _ => hok.tmp (by simp [hpc])
        queued := by simp [NameState.goto]
        flags := by simp [NameState.goto, hfl]
        look := by simp [NameState.goto, Pc.before]
        offered := by simp [NameState.goto]
        undecided := by simp [NameState.goto, Pc.early, Pc.looking]
        withdrawn := by simp [NameState.goto]
        linked := by simp [NameState.goto]
        untouched := fun _ => hok.untouched (.inr (.inl hl)) }
    · exact {
        notDone := by simp [hpc]
        tally := .same (by simp [NameState.goto]) rfl
        files := .same rfl rfl fun hr => absurd hr.2.1 (by simp [NameState.goto, hfl])
        settled := by simp [Pc.settled, hl]
        pending := rfl
        first := .inl
        decided := fun _ => .inr (.inl hpc) }
    · exact ⟨.inr (.inr rfl), hfl, fun _ => hsettled.2.1, hm.listed,
        fun _ => .inr ⟨hsettled.2.2, hsettled.1⟩, hm.direct⟩

inductive Transferred (T : SourceTree Name) (s : State Name) (n : Name) (y : ℕ) :
    NameState → Prop
  | create (p : Pc) (hrep : T.replaces n (s.name n) = true) (hy : s.nlink T y = 0)
      (hp : p = .queued ∨ (s.name n).loc.out.firstLook = false ∧ p = .done) :
      Transferred T s n y { s.name n with tmp := some y, pc := p }
  | keep (hs : T.replaces n (s.name n) = false) (hfl : (s.name n).loc.out.firstLook = true) :
      Transferred T s n y ((s.name n).goto .queued)
  | stop (hpend : (s.name n).loc.out.isPendingHardlink = true) :
      Transferred T s n y ((s.name n).goto .done)
  | skip (hs : (s.name n).loc.out.shouldTransfer = true) (hc : T.copied n = false) :
      Transferred T s n y ((s.name n).goto .done)
  | count (hs : T.replaces n (s.name n) = false)
      (hpend : (s.name n).loc.out.isPendingHardlink = false)
      (hfl : (s.name n).loc.out.firstLook = false) : Transferred T s n y (s.name n).finish

theorem transfer_moved {y : ℕ} (h : T.transfer s n y = some t) :
    ∃ v, Moved s t n v ∧ Transferred T s n y v := by
  have hcreate : ∀ p, T.replaces n (s.name n) = true → T.create s n y p = some t →
      (p = .queued ∨ (s.name n).loc.out.firstLook = false ∧ p = .done) →
      ∃ v, Moved s t n v ∧ Transferred T s n y v := by
    intro p hrep h hp
    rw [SourceTree.create] at h
    split at h
    · rename_i hy
      obtain rfl := Option.some.inj h
      exact ⟨_, (Quiet.refl s).put n _, .create p hrep hy hp⟩
    · cases h
  simp only [SourceTree.transfer] at h
  split at h
  · rename_i hs
    simp only [Bool.and_eq_true, Bool.not_eq_true'] at hs
    split at h
    · rename_i hreg
      exact hcreate _ (by simp [SourceTree.replaces, SourceTree.copied, hs, hreg]) h (.inl rfl)
    · rename_i hreg
      split at h
      · rename_i hlnk
        refine hcreate _ (by simp [SourceTree.replaces, SourceTree.copied, hs, hlnk]) h ?_
        cases (s.name n).loc.out.firstLook <;> simp
      · rename_i hlnk
        obtain rfl := Option.some.inj h
        refine ⟨_, (Quiet.refl s).goto n _, .skip hs.1 ?_⟩
        simp [SourceTree.copied, hreg, hlnk]
  · rename_i hs
    simp only [Bool.and_eq_true, Bool.not_eq_true', not_and, Bool.not_eq_false] at hs
    split at h
    · rename_i hpend
      obtain rfl := Option.some.inj h
      exact ⟨_, (Quiet.refl s).goto n _, .stop hpend⟩
    · rename_i hpend
      have hrep : T.replaces n (s.name n) = false := by
        rw [SourceTree.replaces]
        cases hsh : (s.name n).loc.out.shouldTransfer with
        | false => rfl
        | true => exact absurd (hs hsh) hpend
      split at h
      · rename_i hfl
        obtain rfl := Option.some.inj h
        exact ⟨_, (Quiet.refl s).goto n _, .keep hrep hfl⟩
      · rename_i hfl
        obtain rfl := Option.some.inj h
        exact ⟨_, (Quiet.refl s).put n _, .count hrep (by simpa using hpend) (by simpa using hfl)⟩

theorem Transferred.change {y : ℕ} {v : NameState} (htr : Transferred T s n y v)
    (hok : NameOk T n (s.name n)) (hpc : (s.name n).pc = .transfer)
    (hrep : (s.name n).loc.out.firstLook = true ∨ T.replaces n (s.name n) = false) :
    Change T s n v := by
  have htmp := hok.tmp (by simp [hpc])
  have hdone : (s.name n).pc ≠ .done := by simp [hpc]
  have hpend := fun hfl => (hok.flags hfl).2.1
  have hres : (s.name n).pc.resolved = true := by rw [hpc]; rfl
  have hdecided : ∀ u : NameState, u.loc.out = (s.name n).loc.out → u.pc.resolved = true →
      u.loc.out.firstLook = true ∨ (s.name n).pc = .compare ∨
        (s.name n).pc.resolved = true ∧ u.loc.out = (s.name n).loc.out :=
    fun u hu _ => .inr (.inr ⟨hres, hu⟩)
  cases htr with
  | create p hr hy hp =>
    obtain rfl : p = .queued := by
      rcases hrep with hfl | hr'
      · simpa [hfl] using hp
      · simp [hr] at hr'
    exact ⟨hdone, .same (by simp) rfl, .create y hy rfl rfl rfl, fun _ => rfl, rfl, .inl,
      hdecided _ rfl⟩
  | keep hr hfl =>
    exact ⟨hdone, .same (by simp [NameState.goto]) rfl,
      .same rfl rfl fun h => absurd h.2.2 (by simp [NameState.goto, Pc.before]), fun _ => rfl, rfl,
      .inl, hdecided _ rfl⟩
  | stop hp =>
    refine ⟨hdone, .stop rfl hp, .same rfl rfl fun h => ?_, fun _ => rfl, rfl, .inl,
      hdecided _ rfl⟩
    have := hpend h.2.1
    simp [hp] at this
  | skip hs hc =>
    refine ⟨hdone, .skip rfl hs hc, .same rfl rfl fun h => absurd h.1 ?_, fun _ => rfl, rfl, .inl,
      hdecided _ rfl⟩
    simp [SourceTree.replaces, hc]
  | count hr hp hfl =>
    refine ⟨hdone, .count rfl hp rfl, .same rfl rfl fun h => absurd h.2.1 ?_, fun _ => rfl, rfl,
      .inl, hdecided _ rfl⟩
    simp [NameState.finish, hfl]

theorem Group.transfer (hg : Group T s (T.ino n)) (hpc : (s.name n).pc = .transfer) {y : ℕ}
    (h : T.transfer s n y = some t) : ∃ v, Moved s t n v ∧ MoveOk T s n v := by
  have hok := hg.names n rfl
  obtain ⟨v, hmv, htr⟩ := transfer_moved h
  refine ⟨v, hmv, ?_⟩
  have hstale := hok.stale (by simp [hpc])
  have htmp := hok.tmp (by simp [hpc])
  have hchange := htr.change hok hpc
  have hfirst : (s.name n).loc.out.firstLook = true → NameOk T n v ∧ v.loc = (s.name n).loc ∧
      v.dst = (s.name n).dst ∧ (v.pc = .queued ∨ v.pc = .done ∧ T.copied n = false) := by
    intro hfl
    have hhome := hok.home (by simp [SourceTree.atHome, hpc, hfl, Pc.before])
    have hdirect := hok.untouched (.inr (.inr hfl))
    obtain ⟨-, hpend, hflag⟩ := hok.flags hfl
    cases htr with
    | create p hrep hy hp =>
      obtain rfl : p = .queued := by simpa [hfl] using hp
      refine ⟨?_, rfl, rfl, .inl rfl⟩
      exact {
        stale := fun _ => hstale
        home := fun _ => hhome
        tmp := by simp
        queued := fun _ => hrep.symm
        flags := fun _ => ⟨rfl, hpend, hflag⟩
        look := by simp [hfl]
        offered := by simp
        undecided := by simp [Pc.early, Pc.looking]
        withdrawn := by simp
        linked := by simp
        untouched := fun _ => hdirect }
    | keep hrep _ =>
      refine ⟨?_, rfl, rfl, .inl rfl⟩
      exact {
        stale := fun _ => hstale
        home := fun _ => hhome
        tmp := fun _ => htmp
        queued := fun _ => by
          rw [NameState.goto, htmp]
          exact hrep.symm
        flags := fun _ => ⟨rfl, hpend, hflag⟩
        look := by simp [NameState.goto, hfl]
        offered := by simp [NameState.goto]
        undecided := by simp [NameState.goto, Pc.early, Pc.looking]
        withdrawn := by simp [NameState.goto]
        linked := by simp [NameState.goto]
        untouched := fun _ => hdirect }
    | stop hp => simp [hpend] at hp
    | skip _ hc =>
      refine ⟨?_, rfl, rfl, .inr ⟨rfl, hc⟩⟩
      exact {
        stale := fun _ => hstale
        home := fun _ => hhome
        tmp := fun _ => htmp
        queued := by simp [NameState.goto]
        flags := fun _ => ⟨rfl, hpend, hflag⟩
        look := by simp [NameState.goto, hfl]
        offered := by simp [NameState.goto]
        undecided := by simp [NameState.goto, Pc.early, Pc.looking]
        withdrawn := by simp [NameState.goto]
        linked := by simp [NameState.goto]
        untouched := fun _ => hdirect }
    | count _ _ hfl' => simp [hfl] at hfl'
  refine hg.cases ?_ ?_ ?_
  · rintro hf (he | ⟨hn, hfl, -⟩)
    · simp [hpc, Pc.early] at he
    · obtain ⟨ok, hl, -, hp⟩ := hfirst hfl
      refine .of_unregistered hf ok (hchange (.inl hfl)) (.inr ⟨hn, by rw [hl, hfl], .inr ?_⟩)
      exact hp.imp_right And.left
  · intro r x hf hx hn hreg hr
    obtain ⟨ok, hl, hdst, hp⟩ := hfirst hr.firstLook
    refine .of_root hf hx hn ok (hchange (.inl hr.firstLook)) ?_ ?_
    · exact {
        firstLook := by rw [hl, hr.firstLook]
        drain := by rcases hp with hp | ⟨hp, -⟩ <;> simp [hp]
        moved := by rcases hp with hp | ⟨hp, -⟩ <;> simp [hp]
        recorded := by rw [hl]; exact hr.recorded
        handled := fun _ hdone hc => by
          rcases hp with hp | ⟨-, hc'⟩
          · simp [hp] at hdone
          · rw [← hn, hc'] at hc
            cases hc
        transferred := fun ht => by simpa [hpc] using (hr.transferred ht).1 }
    · intro hfirm
      have hrep : T.replaces n (s.name n) = false := by
        simpa [SourceTree.firm, hpc, Pc.before] using hfirm
      refine ⟨?_, hdst⟩
      have : T.replaces n v = false := by rw [SourceTree.replaces, hl]; exact hrep
      simp [SourceTree.firm, this]
  · intro r x hf hx hne hreg hm
    have hres : (s.name n).pc.resolved = true := by rw [hpc]; rfl
    have hrep := hm.replaces hres
    have hv : v.pc = .done ∧ v.loc = (s.name n).loc ∧ v.tally.direct = (s.name n).tally.direct ∧
        v.dst = (s.name n).dst ∧ v.tmp = none := by
      cases htr with
      | create p hrep' => simp [hrep] at hrep'
      | keep _ hfl => simp [hm.firstLook] at hfl
      | stop _ => exact ⟨rfl, rfl, rfl, rfl, htmp⟩
      | skip _ _ => exact ⟨rfl, rfl, rfl, rfl, htmp⟩
      | count _ _ _ => exact ⟨rfl, rfl, rfl, rfl, htmp⟩
    obtain ⟨hp, hl, hd, hdst, htmp'⟩ := hv
    have hrep' : T.replaces n v = false := by rw [SourceTree.replaces, hl]; exact hrep
    refine .of_member hf hx hne ?_ (hchange (.inr hrep)) ?_ ?_
    · exact {
        stale := fun _ => by rw [hl, hstale]
        home := by simp [SourceTree.atHome, hp, hl, hm.firstLook, Pc.looking]
        tmp := fun _ => htmp'
        queued := by simp [hp]
        flags := by simp [hl, hm.firstLook]
        look := by simp [hp, Pc.before]
        offered := by simp [hp]
        undecided := by simp [hp, Pc.early, Pc.looking]
        withdrawn := by simp [hp]
        linked := by simp [hp]
        untouched := by simp [hp, hl, hm.firstLook, Pc.early, Pc.looking] }
    · refine ⟨.inr (.inr (by rw [hp]; rfl)), by rw [hl, hm.firstLook], fun _ => hrep',
        by rw [hl]; exact hm.listed, ?_, ?_⟩
      · intro _
        have := hm.attached hres
        rw [Attached, hl, hdst]
        exact this
      · rw [hd]
        exact hm.direct
    · exact fun hpend _ => ⟨by rw [hl, hpend], by rw [hp]; rfl⟩

theorem publish_moved (h : T.publish s n = some t) :
    ∃ y v, (s.name n).tmp.or (s.name n).dst = some y ∧ Moved s t n v ∧ v.dst = some y ∧
      v.tmp = none ∧ v.loc = { (s.name n).loc with finishIno := y } ∧
      (1 < (T.stx n).stx_nlink ∧ v.pc = .handle ∧ v.tally = (s.name n).tally ∨
        (T.stx n).stx_nlink ≤ 1 ∧ v.pc = .done ∧
          v.tally = { (s.name n).tally with counted := (s.name n).tally.counted + 1 }) := by
  obtain ⟨y, hy, h⟩ := Option.bind_eq_some_iff.mp h
  obtain rfl := Option.some.inj h
  refine ⟨y, _, hy, (Quiet.refl s).put n _, ?_⟩
  split
  · rename_i hn
    exact ⟨rfl, rfl, rfl, .inl ⟨hn, rfl, rfl⟩⟩
  · rename_i hn
    exact ⟨rfl, rfl, rfl, .inr ⟨by omega, rfl, rfl⟩⟩

/-- Only roots, and names without an entry, are queued and handled. -/
theorem Group.rooted_cases (hg : Group T s (T.ino n)) (hres : (s.name n).pc.resolved = false)
    (he : (s.name n).pc.early = false) (hl : (s.name n).pc.looking = false) {P : Prop}
    (hun : s.fwd (T.ino n) = none → (T.stx n).stx_nlink ≤ 1 →
      (s.name n).loc.out.firstLook = true → P)
    (hroot : ∀ r h, s.fwd (T.ino n) = some r → s.info r = some h → n = h.remote →
      Registered T s (T.ino n) r h → Root T r h (s.name n) → P) : P := by
  refine hg.cases ?_ hroot ?_
  · rintro hf (he' | ⟨hn, hfl, -⟩)
    · simp [he] at he'
    · exact hun hf hn hfl
  · intro r h _ _ _ _ hm
    simpa [he, hl, hres] using hm.phase

theorem Group.publish (hg : Group T s (T.ino n)) (hpc : (s.name n).pc = .queued)
    (h : T.publish s n = some t) : ∃ v, Moved s t n v ∧ MoveOk T s n v := by
  have hok := hg.names n rfl
  have hstale := hok.stale (by simp [hpc])
  have hqueued := hok.queued hpc
  obtain ⟨y, v, hy, hmv, hdst, htmp, hl, hp⟩ := publish_moved h
  refine ⟨v, hmv, ?_⟩
  have hpc' : v.pc = .handle ∨ v.pc = .done := hp.imp (·.2.1) (·.2.1)
  have hdirect : v.tally.direct = (s.name n).tally.direct := by
    rcases hp with ⟨-, -, ht⟩ | ⟨-, -, ht⟩ <;> rw [ht]
  have hrep : T.replaces n v = T.replaces n (s.name n) := by
    rw [SourceTree.replaces, hl]
    rfl
  have hkept : T.replaces n (s.name n) = false → some y = (s.name n).dst := by
    intro hr
    have : (s.name n).tmp = none := by
      rw [hr] at hqueued
      exact Option.not_isSome_iff_eq_none.mp (by simp [hqueued])
    rw [this] at hy
    exact hy.symm
  have ok : (s.name n).loc.out.firstLook = true → NameOk T n v ∧ Change T s n v := by
    intro hfl
    obtain ⟨-, hpend, hflag⟩ := hok.flags hfl
    constructor
    · exact {
        stale := fun _ => by rw [hl]; exact hstale
        home := fun hat => by
          have hr : T.replaces n (s.name n) = false := by
            rcases hpc' with hp | hp <;>
              simpa [SourceTree.atHome, hp, hl, hfl, hrep, Pc.looking, Pc.before] using hat
          rw [hdst, hkept hr, hl]
          exact hok.home (by simp [SourceTree.atHome, hfl, hr])
        tmp := fun _ => htmp
        queued := by rcases hpc' with hp | hp <;> simp [hp]
        flags := fun _ => by
          rw [hl]
          exact ⟨by rcases hpc' with hp | hp <;> rw [hp] <;> rfl, hpend, hflag⟩
        look := by simp [hl, hfl]
        offered := by rcases hpc' with hp | hp <;> simp [hp]
        undecided := by rcases hpc' with hp | hp <;> simp [hp, Pc.early, Pc.looking]
        withdrawn := by rcases hpc' with hp | hp <;> simp [hp]
        linked := by
          rcases hp with ⟨hn, -⟩ | ⟨-, hp, -⟩
          · exact fun _ => hn
          · simp [hp]
        untouched := fun _ => by rw [hdirect, hok.untouched (.inr (.inr hfl))] }
    · exact {
        notDone := by simp [hpc]
        tally := by
          rcases hp with ⟨-, hp, ht⟩ | ⟨-, hp, ht⟩
          · exact .same (by simp [hp]) ht
          · exact .count hp (by rw [hl]; exact hpend) ht
        files := by
          cases htmp' : (s.name n).tmp with
          | none =>
            rw [htmp'] at hy hqueued
            refine .same (by rw [hdst]; exact hy.symm) (by rw [htmp, htmp']) fun hr => ?_
            have := hr.1
            rw [hrep, ← hqueued] at this
            cases this
          | some z =>
            rw [htmp'] at hy
            obtain rfl : z = y := Option.some.inj hy
            exact .publish z htmp' hdst htmp (by rcases hpc' with hp | hp <;> rw [hp] <;> rfl)
        settled := fun _ => by rcases hpc' with hp | hp <;> rw [hp] <;> rfl
        pending := by rw [hl]
        first := fun _ => .inl hfl
        decided := fun _ => .inl (by rw [hl]; exact hfl) }
  refine hg.rooted_cases (by rw [hpc]; rfl) (by rw [hpc]; rfl) (by rw [hpc]; rfl) ?_ ?_
  · intro hf hn hfl
    refine .of_unregistered hf (ok hfl).1 (ok hfl).2
      (.inr ⟨hn, by rw [hl]; exact hfl, .inr (.inr ?_)⟩)
    rcases hp with ⟨hn', -⟩ | ⟨-, hp, -⟩
    · omega
    · exact hp
  · intro r x hf hx hn hreg hr
    refine .of_root hf hx hn (ok hr.firstLook).1 (ok hr.firstLook).2 ?_ ?_
    · exact {
        firstLook := by rw [hl]; exact hr.firstLook
        drain := by rcases hpc' with hp | hp <;> simp [hp]
        moved := fun _ => by rw [hdst, hl]
        recorded := by rw [hl]; exact hr.recorded
        handled := fun _ hdone _ => by
          rcases hp with ⟨-, hp, -⟩ | ⟨hn', -⟩
          · simp [hp] at hdone
          · exact hn ▸ hn'
        transferred := fun ht => by simpa [hpc] using (hr.transferred ht).1 }
    · intro hfirm
      have hr : T.replaces n (s.name n) = false := by
        simpa [SourceTree.firm, hpc, Pc.before] using hfirm
      exact ⟨by simp [SourceTree.firm, hrep, hr], by rw [hdst, hkept hr]⟩

theorem Group.handle (hg : Group T s (T.ino n)) (hpc : (s.name n).pc = .handle) :
    ∃ v, Moved s (T.handle s n) n v ∧ MoveOk T s n v := by
  have hok := hg.names n rfl
  have hn := hok.linked (.inl hpc)
  refine hg.rooted_cases (by rw [hpc]; rfl) (by rw [hpc]; rfl) (by rw [hpc]; rfl) ?_ ?_
  · intro _ hn' _
    omega
  · intro r x hf hx hroot hreg hr
    obtain ⟨-, hpend, hflag⟩ := hok.flags hr.firstLook
    rw [SourceTree.handle, hf]
    refine ⟨_, (Quiet.refl s).put n _, .of_root hf hx hroot ?_ ?_ ?_ ?_⟩
    · exact {
        stale := fun _ => hok.stale (by simp [hpc])
        home := fun hat => by
          refine hok.home ?_
          simpa [SourceTree.atHome, hpc, hr.firstLook, Pc.looking, Pc.before,
            SourceTree.replaces] using hat
        tmp := fun _ => hok.tmp (by simp [hpc])
        queued := by simp
        flags := fun _ => ⟨rfl, hpend, hflag⟩
        look := by simp [hr.firstLook]
        offered := by simp
        undecided := by simp [Pc.early, Pc.looking]
        withdrawn := by simp
        linked := fun _ => hn
        untouched := fun _ => hok.untouched (.inr (.inr hr.firstLook)) }
    · exact {
        notDone := by simp [hpc]
        tally := .same (by simp) rfl
        files := .same rfl rfl fun hr => ⟨hr.1, hr.2.1, by rw [hpc]; rfl⟩
        settled := fun _ => rfl
        pending := rfl
        first := .inl
        decided := by simp [Pc.resolved] }
    · exact {
        firstLook := hr.firstLook
        drain := fun _ => rfl
        moved := fun _ => hr.moved (.inl hpc)
        recorded := hr.recorded
        handled := by simp
        transferred := fun ht => by simpa [hpc] using (hr.transferred ht).1 }
    · intro _
      exact ⟨by simp [SourceTree.firm, Pc.before], rfl⟩

end Copy2.HLink
