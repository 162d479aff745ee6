import Copy2.HLink.Links

/-! # One root for each source inode

Whatever the steps do to the files, and whether their system calls succeed or not: of all
the calls that register the names of one source inode exactly one makes the root. -/
namespace Copy2.HLink
open FileJob Lib Os

set_option linter.unusedSectionVars false

variable {Name : Type} [Fintype Name] [DecidableEq Name]
variable {T : SourceTree Name} {s t : State Name} {n : Name} {v : NameState} {i : ℕ}

def SourceTree.asks (T : SourceTree Name) (n : Name) (v : NameState) : Prop :=
  1 < (T.stx n).stx_nlink ∨ 1 < v.loc.destStx.stx_nlink

def Pc.returned : Pc → Bool
  | transfer | queued | handle | drain | handleRetire | leaked | done => true
  | _ => false

def Returned (T : SourceTree Name) (n : Name) (v : NameState) : Prop :=
  T.asks n v ∧ v.pc.returned = true

def Pc.linkedOn : Pc → Bool
  | reverse | retire | revPromote | revRetire | transfer | done => true
  | _ => false

/-- A name that is first, whether it has asked or not. -/
def Pc.firstOn : Pc → Bool
  | transfer | queued | handle | drain | handleRetire | done => true
  | _ => false

structure SingleName (T : SourceTree Name) (n : Name) (v : NameState) : Prop where
  first : v.loc.out.firstLook = true →
    v.pc.firstOn = true ∧ v.loc.out.isPendingHardlink = false
  asked : v.pc ≠ .start →
    T.asks n v ∨ (T.stx n).stx_nlink ≤ 1 ∧ v.loc.out.firstLook = true ∧
      (v.pc = .transfer ∨ v.pc = .queued ∨ v.pc = .done)
  withdrawn : v.pc = .relink → v.loc.out.shouldTransfer = false
  direct : v.tally.direct ≠ 0 → v.tally.handled = 0 ∧ v.loc.out.shouldTransfer = false ∧
    v.loc.out.firstLook = false ∧ v.pc.linkedOn = true
  handled : v.tally.handled ≠ 0 →
    v.tally.direct = 0 ∧ (v.pc = .handleRetire ∨ v.pc = .done)

/-- A name that is no root sees the record of the root, and does not remove it. -/
structure Follower (r : Ref) (v : NameState) : Prop where
  firstLook : v.loc.out.firstLook = false
  hinfoRef : v.pc.early = true ∨ v.loc.hinfoRef = r
  stays : v.pc ≠ .retire

def SourceTree.used (T : SourceTree Name) (s : State Name) (i : ℕ) : ℕ :=
  count fun n => T.ino n == i && (s.name n).tally.direct + (s.name n).tally.handled != 0

/-- The entry of the inode, if there is one, was made by the one name that looked first,
and its count stays up as long as some name has not been decided. -/
structure Single (T : SourceTree Name) (i : ℕ) (s : State Name) : Prop where
  name : ∀ n, T.ino n = i → SingleName T n (s.name n)
  absent : s.fwd i = none → ∀ n, T.ino n = i → (s.name n).pc.early = true ∨
    ¬ T.asks n (s.name n) ∧ (s.name n).loc.out.firstLook = true
  root : ∀ r, s.fwd i = some r → ∃ m, T.ino m = i ∧ T.asks m (s.name m) ∧
    (s.name m).loc.out.firstLook = true ∧ (s.name m).loc.hinfoRef = r ∧
    ∀ n, T.ino n = i → n ≠ m → Follower r (s.name n)
  counted : ∀ r n, s.fwd i = some r → T.ino n = i → (s.name n).pc.settled = false →
    ∃ h, s.info r = some h ∧ h.nlinkRC + T.used s i = (T.stx n).stx_nlink ∧
      T.ino h.remote = i ∧ (s.name h.remote).loc.out.firstLook = true
  retiring : ∀ n m, T.ino n = i → T.ino m = i → (s.name n).pc = .handleRetire →
    (s.name m).pc.settled = true

/-- The thread of a name has not gone on. -/
structure SameThread (u v : NameState) : Prop where
  pc : v.pc = u.pc
  loc : v.loc = u.loc
  direct : v.tally.direct = u.tally.direct
  handled : v.tally.handled = u.tally.handled

theorem SameThread.refl (v : NameState) : SameThread v v := ⟨rfl, rfl, rfl, rfl⟩

theorem SingleName.same {u : NameState} (h : SingleName T n u) (hs : SameThread u v) :
    SingleName T n v := by
  have hasks : T.asks n v = T.asks n u := by rw [SourceTree.asks, hs.loc]; rfl
  constructor
  · rw [hs.loc, hs.pc]
    exact h.first
  · rw [hasks, hs.loc, hs.pc]
    exact h.asked
  · rw [hs.loc, hs.pc]
    exact h.withdrawn
  · rw [hs.loc, hs.pc, hs.direct, hs.handled]
    exact h.direct
  · rw [hs.pc, hs.direct, hs.handled]
    exact h.handled

theorem Follower.same {u : NameState} {r : Ref} (h : Follower r u) (hs : SameThread u v) :
    Follower r v := by
  constructor
  · rw [hs.loc]
    exact h.firstLook
  · rw [hs.pc, hs.loc]
    exact h.hinfoRef
  · rw [hs.pc]
    exact h.stays

/-- Two names that have not counted the record down leave room. -/
theorem used_add_two_le {a b : Name} (hab : a ≠ b) (hino : T.ino b = T.ino a)
    (ha : (s.name a).tally.direct + (s.name a).tally.handled = 0)
    (hb : (s.name b).tally.direct + (s.name b).tally.handled = 0) :
    T.used s (T.ino a) + 2 ≤ (T.stx a).stx_nlink := by
  refine le_trans (count_add_two_le (fun m hm => ?_) hab ?_ ?_ ?_ ?_) (T.names_le_nlink a)
  · exact (Bool.and_eq_true _ _ ▸ hm).1
  · simp [ha]
  · simp [hb]
  · simp
  · exact beq_iff_eq.mpr hino

theorem used_add_one_le {a : Name}
    (ha : (s.name a).tally.direct + (s.name a).tally.handled = 0) :
    T.used s (T.ino a) + 1 ≤ (T.stx a).stx_nlink := by
  refine le_trans (count_lt_of_cleared (i := a) (fun m hm => ?_) ?_ ?_) (T.names_le_nlink a)
  · exact (Bool.and_eq_true _ _ ▸ hm).1
  · simp
  · simp [ha]

/-- One thread has gone on; the others of the inode have not. -/
structure OneThread (T : SourceTree Name) (s t : State Name) (n : Name) (v : NameState) : Prop where
  self : t.name n = v
  other : ∀ m, m ≠ n → SameThread (s.name m) (t.name m)

theorem OneThread.used_eq (h : OneThread T s t n v)
    (hv : v.tally.direct + v.tally.handled =
      (s.name n).tally.direct + (s.name n).tally.handled) (i : ℕ) : T.used t i = T.used s i := by
  refine congrArg Lib.count (funext fun m => ?_)
  by_cases hm : m = n
  · rw [hm, h.self, hv]
  · rw [(h.other m hm).direct, (h.other m hm).handled]

theorem OneThread.used_succ (h : OneThread T s t n v)
    (hn : (s.name n).tally.direct + (s.name n).tally.handled = 0)
    (hv : v.tally.direct + v.tally.handled ≠ 0) :
    T.used t (T.ino n) = T.used s (T.ino n) + 1 := by
  rw [SourceTree.used, SourceTree.used, ← count_update_true (i := n) (by simp [hn])]
  refine congrArg Lib.count (funext fun m => ?_)
  by_cases hm : m = n
  · have hne : (v.tally.direct + v.tally.handled != 0) = true := bne_iff_ne.mpr hv
    rw [hm, h.self, Function.update_self, hne]
    simp
  · rw [Function.update_of_ne hm, (h.other m hm).direct, (h.other m hm).handled]

theorem Moved.oneThread (h : Moved s t n v) : OneThread T s t n v where
  self := by rw [h.name, Function.update_self]
  other m hm := by
    rw [h.name, Function.update_of_ne hm]
    exact .refl _

/-- One thread of the inode goes on, and the entry is still the one it was. -/
theorem Single.thread (hs : Single T (T.ino n) s) (hth : OneThread T s t n v)
    (hfwd : t.fwd (T.ino n) = s.fwd (T.ino n)) (hname : SingleName T n v)
    (habsent : s.fwd (T.ino n) = none →
      v.pc.early = true ∨ ¬ T.asks n v ∧ v.loc.out.firstLook = true)
    (hroot : ∀ r, s.fwd (T.ino n) = some r → (s.name n).loc.out.firstLook = true →
      T.asks n (s.name n) → (s.name n).loc.hinfoRef = r →
      T.asks n v ∧ v.loc.out.firstLook = true ∧ v.loc.hinfoRef = r)
    (hfol : ∀ r m, s.fwd (T.ino n) = some r → T.ino m = T.ino n → n ≠ m →
      Follower r (s.name n) → Follower r v)
    (hset : (s.name n).pc.settled = true → v.pc.settled = true)
    (hcount : ∀ r m, s.fwd (T.ino n) = some r → T.ino m = T.ino n →
      (t.name m).pc.settled = false → ∀ h, s.info r = some h →
      h.nlinkRC + T.used s (T.ino n) = (T.stx m).stx_nlink →
      ∃ h', t.info r = some h' ∧ h'.nlinkRC + T.used t (T.ino n) = (T.stx m).stx_nlink ∧
        h'.remote = h.remote)
    (hretire : v.pc = .handleRetire → ∀ m, T.ino m = T.ino n → (t.name m).pc.settled = true) :
    Single T (T.ino n) t := by
  have hsettled : ∀ m, (s.name m).pc.settled = true → (t.name m).pc.settled = true := by
    intro m hm
    by_cases hmn : m = n
    · subst hmn
      rw [hth.self]
      exact hset hm
    · rw [(hth.other m hmn).pc]
      exact hm
  refine ⟨fun m hm => ?_, fun hf m hm => ?_, fun r hr => ?_, fun r m hr hm hs' => ?_,
    fun m k hm hk hpc => ?_⟩
  · by_cases hmn : m = n
    · rw [hmn, hth.self]
      exact hname
    · exact (hs.name m hm).same (hth.other m hmn)
  · rw [hfwd] at hf
    by_cases hmn : m = n
    · rw [hmn, hth.self]
      exact habsent hf
    · have := hth.other m hmn
      rw [SourceTree.asks, this.pc, this.loc]
      exact hs.absent hf m hm
  · rw [hfwd] at hr
    obtain ⟨m, hm, hasks, hfl, href, hall⟩ := hs.root r hr
    refine ⟨m, hm, ?_⟩
    by_cases hmn : m = n
    · subst hmn
      rw [hth.self]
      obtain ⟨h1, h2, h3⟩ := hroot r hr hfl hasks href
      exact ⟨h1, h2, h3, fun k hk hne => (hall k hk hne).same (hth.other k hne)⟩
    · have hsame := hth.other m hmn
      rw [SourceTree.asks, hsame.loc]
      refine ⟨hasks, hfl, href, fun k hk hne => ?_⟩
      by_cases hkn : k = n
      · rw [hkn, hth.self]
        exact hfol r m hr hm (Ne.symm hmn) (hkn ▸ hall k hk hne)
      · exact (hall k hk hne).same (hth.other k hkn)
  · rw [hfwd] at hr
    have hm' : (s.name m).pc.settled = false := by
      cases hc : (s.name m).pc.settled with
      | false => rfl
      | true => simp [hsettled m hc] at hs'
    obtain ⟨h, hh, hrc, hi, hfl⟩ := hs.counted r m hr hm hm'
    obtain ⟨h', hh', hrc', hrem⟩ := hcount r m hr hm hs' h hh hrc
    refine ⟨h', hh', hrc', by rw [hrem, hi], ?_⟩
    obtain ⟨k, hk, hasks, hfl', href, hall⟩ := hs.root r hr
    have hroot' : h.remote = k := by
      by_contra hne
      simpa [hfl] using (hall _ hi hne).firstLook
    rw [hrem, hroot']
    by_cases hkn : k = n
    · subst hkn
      rw [hth.self]
      exact (hroot r hr hfl' hasks href).2.1
    · rw [(hth.other k hkn).loc]
      exact hfl'
  · by_cases hmn : m = n
    · rw [hmn, hth.self] at hpc
      exact hretire hpc k hk
    · rw [(hth.other m hmn).pc] at hpc
      exact hsettled k (hs.retiring m k hm hk hpc)

/-- A move that leaves the tables and what the thread has counted alone. -/
theorem Single.move (hs : Single T (T.ino n) s) (hmv : Moved s t n v) (hname : SingleName T n v)
    (hout : v.loc.out.firstLook = (s.name n).loc.out.firstLook)
    (href : v.pc.early = true ∧ (s.name n).loc.out.firstLook = false ∨
      v.loc.hinfoRef = (s.name n).loc.hinfoRef ∨ s.fwd (T.ino n) = some v.loc.hinfoRef)
    (hasks : (s.name n).loc.out.firstLook = true → v.loc.destStx = (s.name n).loc.destStx)
    (hdirect : v.tally.direct = (s.name n).tally.direct)
    (hhandled : v.tally.handled = (s.name n).tally.handled)
    (hearly : (s.name n).pc.early = true → v.pc.early = true ∨
      s.fwd (T.ino n) = some v.loc.hinfoRef)
    (hset : (s.name n).pc.settled = true → v.pc.settled = true)
    (hret : v.pc ≠ .retire ∧ v.pc ≠ .handleRetire) : Single T (T.ino n) t := by
  have hth : OneThread T s t n v := hmv.oneThread
  have hasks' : (s.name n).loc.out.firstLook = true → (T.asks n v ↔ T.asks n (s.name n)) :=
    fun hfl => by rw [SourceTree.asks, hasks hfl]; rfl
  refine hs.thread hth (by rw [hmv.fwd]) hname ?_ ?_ ?_ hset ?_ fun h => absurd h hret.2
  · intro hf
    rcases hs.absent hf n rfl with he | ⟨hn, hfl⟩
    · exact (hearly he).imp_right fun h => by simp [hf] at h
    · exact .inr ⟨fun h => hn ((hasks' hfl).mp h), hout.trans hfl⟩
  · intro r hr hfl ha he
    refine ⟨(hasks' hfl).mpr ha, hout.trans hfl, ?_⟩
    rcases href with ⟨-, h⟩ | h | h
    · simp [h] at hfl
    · exact h.trans he
    · exact Option.some.inj (h.symm.trans hr)
  · intro r m hr _ _ hfol
    refine ⟨hout.trans hfol.firstLook, ?_, hret.1⟩
    rcases href with ⟨h, -⟩ | h | h
    · exact .inl h
    · rcases hfol.hinfoRef with he | he
      · exact (hearly he).imp_right fun h => Option.some.inj (h.symm.trans hr)
      · exact .inr (h.trans he)
    · exact .inr (Option.some.inj (h.symm.trans hr))
  · intro r m hr hm _ h hh hrc
    rw [hmv.info, hth.used_eq (by rw [hdirect, hhandled])]
    exact ⟨h, hh, hrc, rfl⟩

/-- A call that is under way has not counted the record down. -/
theorem SingleName.unused (h : SingleName T n v) (hp : v.pc.settled = false) :
    v.tally.direct = 0 ∧ v.tally.handled = 0 ∧ v.loc.out.firstLook = false := by
  have hfar : v.pc.linkedOn = false ∧ v.pc.firstOn = false ∧ v.pc ≠ .handleRetire ∧
      v.pc ≠ .done := by
    revert hp
    cases v.pc <;> decide
  refine ⟨?_, ?_, Bool.eq_false_iff.mpr fun hfl => ?_⟩
  · by_contra hd
    simpa [hfar.1] using (h.direct hd).2.2.2
  · by_contra hh
    rcases (h.handled hh).2 with he | he
    · exact hfar.2.2.1 he
    · exact hfar.2.2.2 he
  · simpa [hfar.2.1] using (h.first hfl).1

/-- The only name of its inode, if it has not looked yet, has no entry. -/
theorem Single.fwd_none (hs : Single T (T.ino n) s) (hn : (T.stx n).stx_nlink ≤ 1)
    (hfl : (s.name n).loc.out.firstLook = false) : s.fwd (T.ino n) = none := by
  cases hf : s.fwd (T.ino n) with
  | none => rfl
  | some r =>
    obtain ⟨m, hm, -, hfl', -⟩ := hs.root r hf
    have hne : n ≠ m := by
      rintro rfl
      simp [hfl] at hfl'
    have := one_lt_nlink hne hm.symm
    omega

theorem Single.start (hs : Single T (T.ino n) s) (hpc : (s.name n).pc = .start) :
    Single T (T.ino n) (T.start s n) := by
  obtain ⟨hd, hh, hfl⟩ := (hs.name n rfl).unused (by rw [hpc]; rfl)
  have he : (s.name n).pc.settled = false := by rw [hpc]; rfl
  rw [SourceTree.start]
  split
  · rename_i hask
    refine hs.move ((Quiet.refl s).put n _) ?_ (by simp [hfl, statDest_out]) (.inl ⟨rfl, hfl⟩)
      (by simp [hfl]) rfl rfl (fun _ => .inl rfl) (by simp [he]) (by simp)
    exact {
      first := by simp [statDest_out]
      asked := fun _ => .inl hask
      withdrawn := by simp
      direct := by simp [hd]
      handled := by simp [hh] }
  · rename_i hask
    have hn : (T.stx n).stx_nlink ≤ 1 := by omega
    have hf := hs.fwd_none hn hfl
    refine hs.thread ((Quiet.refl s).put n _).oneThread rfl ?_ (fun _ => .inr ⟨hask, rfl⟩)
      ?_ ?_ (by simp [he]) ?_ (by simp)
    · exact {
        first := fun _ => ⟨rfl, rfl⟩
        asked := fun _ => .inr ⟨hn, rfl, .inl rfl⟩
        withdrawn := by simp
        direct := by simp [hd]
        handled := by simp [hh] }
    all_goals
      intro r
      simp [hf]

theorem Single.register (hs : Single T (T.ino n) s) (hpc : (s.name n).pc = .register) :
    Single T (T.ino n) (T.register s n) := by
  obtain ⟨hd, hh, hfl⟩ := (hs.name n rfl).unused (by rw [hpc]; rfl)
  have he : (s.name n).pc.settled = false := by rw [hpc]; rfl
  have hask : T.asks n (s.name n) := by
    simpa [hpc, hfl] using (hs.name n rfl).asked (by simp [hpc])
  rw [SourceTree.register]
  split
  · rename_i r hr
    refine hs.move ((Quiet.refl s).put n _) ?_ hfl.symm (.inr (.inr hr))
      (by simp [hfl]) rfl rfl (fun _ => .inr hr) (by simp [he]) (by simp)
    exact {
      first := by simp
      asked := fun _ => .inl hask
      withdrawn := by simp
      direct := by simp [hd]
      handled := by simp [hh] }
  · refine hs.move ((Quiet.refl s).put n _) ?_ hfl.symm (.inr (.inl rfl))
      (by simp [hfl]) rfl rfl (fun _ => .inl rfl) (by simp [he]) (by simp)
    exact {
      first := by simp
      asked := fun _ => .inl hask
      withdrawn := by simp
      direct := by simp [hd]
      handled := by simp [hh] }

theorem Single.promote (hs : Single T (T.ino n) s) (hpc : (s.name n).pc = .promote)
    (h : T.promote s n = some t) : Single T (T.ino n) t := by
  obtain ⟨hd, hh, hfl⟩ := (hs.name n rfl).unused (by rw [hpc]; rfl)
  have he : (s.name n).pc.settled = false := by rw [hpc]; rfl
  have hask : T.asks n (s.name n) := by
    simpa [hpc, hfl] using (hs.name n rfl).asked (by simp [hpc])
  rcases promote_cases h with ⟨-, hmv⟩ | ⟨hf, mismatch, -, hr⟩
  · refine hs.move hmv ?_ rfl (.inr (.inl rfl)) (fun _ => rfl) rfl rfl (fun _ => .inl rfl)
      (by simp [he]) (by simp [NameState.goto])
    exact {
      first := by simp [NameState.goto, hfl]
      asked := fun _ => .inl hask
      withdrawn := by simp [NameState.goto]
      direct := by simp [NameState.goto, hd]
      handled := by simp [NameState.goto, hh] }
  · have hself : t.name n = rootState (s.name n) s.nextRef mismatch := by
      rw [hr.name, Function.update_self]
    have hother : ∀ m, m ≠ n → t.name m = s.name m := fun m hm => by
      rw [hr.name, Function.update_of_ne hm]
    have hfwd : t.fwd (T.ino n) = some s.nextRef := by rw [hr.fwd, Function.update_self]
    have hearly : ∀ m, T.ino m = T.ino n → m ≠ n → (s.name m).pc.early = true := by
      intro m hm hne
      rcases hs.absent hf m hm with he | ⟨hn, -⟩
      · exact he
      · exact absurd (.inl (one_lt_nlink hne hm)) hn
    have hlook : ∀ m, T.ino m = T.ino n → (s.name m).pc.settled = false := by
      intro m hm
      by_cases hmn : m = n
      · rw [hmn, he]
      · simp [Pc.settled, hearly m hm hmn]
    refine ⟨fun m hm => ?_, fun hf' => by simp [hfwd] at hf', fun r hr' => ?_,
      fun r m hr' hm _ => ?_, fun m k hm hk hp => ?_⟩
    · by_cases hmn : m = n
      · subst hmn
        rw [hself]
        exact {
          first := fun _ => ⟨rfl, rfl⟩
          asked := fun _ => .inl hask
          withdrawn := by simp [rootState]
          direct := by simp [rootState, hd]
          handled := by simp [rootState, hh] }
      · rw [hother m hmn]
        exact hs.name m hm
    · obtain rfl : s.nextRef = r := Option.some.inj (hfwd.symm.trans hr')
      refine ⟨n, rfl, by rw [hself]; exact hask, by rw [hself]; rfl, by rw [hself]; rfl,
        fun m hm hne => ?_⟩
      rw [hother m hne]
      refine ⟨((hs.name m hm).unused (hlook m hm)).2.2, .inl (hearly m hm hne), ?_⟩
      intro hret
      simpa [hret, Pc.early] using hearly m hm hne
    · obtain rfl : s.nextRef = r := Option.some.inj (hfwd.symm.trans hr')
      refine ⟨newInfo T s n, by rw [hr.info, Function.update_self], ?_⟩
      have hzero : T.used t (T.ino n) = 0 := by
        refine count_eq_zero.mpr fun k => ?_
        by_cases hk : T.ino k = T.ino n
        · have hun : (t.name k).tally.direct = 0 ∧ (t.name k).tally.handled = 0 := by
            by_cases hkn : k = n
            · rw [hkn, hself]
              exact ⟨hd, hh⟩
            · rw [hother k hkn]
              have := (hs.name k hk).unused (hlook k hk)
              exact ⟨this.1, this.2.1⟩
          simp [hun]
        · simp [hk]
      rw [hzero, T.same_inode m n hm, show (newInfo T s n).remote = n from rfl, hself]
      exact ⟨rfl, rfl, rfl⟩
    · by_cases hmn : m = n
      · rw [hmn, hself] at hp
        simp [rootState] at hp
      · rw [hother m hmn] at hp
        have := hlook m hm
        simp [hp, Pc.settled, Pc.early, Pc.looking] at this

theorem Single.compare (hs : Single T (T.ino n) s) (hpc : (s.name n).pc = .compare)
    (h : SourceTree.compare s n = some t) : Single T (T.ino n) t := by
  obtain ⟨hd, hh, hfl⟩ := (hs.name n rfl).unused (by rw [hpc]; rfl)
  have he : (s.name n).pc.settled = false := by rw [hpc]; rfl
  have hask : T.asks n (s.name n) := by
    simpa [hpc, hfl] using (hs.name n rfl).asked (by simp [hpc])
  obtain ⟨x, -, hmv | ⟨-, -, hmv⟩⟩ := compare_moved h
  · refine hs.move hmv ?_ rfl (.inr (.inl rfl)) (fun _ => rfl) rfl rfl (by simp [hpc, Pc.early])
      (by simp [he]) (by simp)
    exact {
      first := by simp [hfl]
      asked := fun _ => .inl hask
      withdrawn := by simp
      direct := by simp [hd]
      handled := by simp [hh] }
  · refine hs.move hmv ?_ rfl (.inr (.inl rfl)) (fun _ => rfl) rfl rfl (by simp [hpc, Pc.early])
      (by simp [he]) (by simp [NameState.goto])
    exact {
      first := by simp [NameState.goto, hfl]
      asked := fun _ => .inl hask
      withdrawn := by simp [NameState.goto]
      direct := by simp [NameState.goto, hd]
      handled := by simp [NameState.goto, hh] }

/-- The reverse table is none of the concern of the entry. -/
theorem Single.reversed (hs : Single T (T.ino n) s) {p : Pc} (q : Option Ref)
    (hpc : (s.name n).pc = .reverse ∨ (s.name n).pc = .revPromote ∨ (s.name n).pc = .revRetire)
    (hp : p = .transfer ∨ p = .revPromote ∨ p = .revRetire)
    (hmv : Moved s t n
      { s.name n with loc := { (s.name n).loc with revinfoRef := q }, pc := p }) :
    Single T (T.ino n) t := by
  have hok := hs.name n rfl
  have hfl : (s.name n).loc.out.firstLook = false := by
    refine Bool.eq_false_iff.mpr fun hfl => ?_
    have := (hok.first hfl).1
    rcases hpc with h | h | h <;> simp [h, Pc.firstOn] at this
  have hh : (s.name n).tally.handled = 0 := by
    by_contra hne
    have := (hok.handled hne).2
    rcases hpc with h | h | h <;> simp [h] at this
  have hask : T.asks n (s.name n) := by
    have := hok.asked (by rcases hpc with h | h | h <;> simp [h])
    simpa [hfl] using this
  refine hs.move hmv ?_ rfl (.inr (.inl rfl)) (fun _ => rfl) rfl rfl ?_ ?_ ?_
  · exact {
      first := by simp [hfl]
      asked := fun _ => .inl hask
      withdrawn := by rcases hp with rfl | rfl | rfl <;> simp
      direct := fun hd => by
        obtain ⟨h1, h2, h3, -⟩ := hok.direct hd
        exact ⟨h1, h2, h3, by rcases hp with rfl | rfl | rfl <;> rfl⟩
      handled := by simp [hh] }
  · rcases hpc with h | h | h <;> simp [h, Pc.early]
  · rcases hp with rfl | rfl | rfl <;> simp [Pc.settled, Pc.early, Pc.looking]
  · rcases hp with rfl | rfl | rfl <;> simp

/-- A name on its way from the table to its job. -/
theorem Single.onward (hs : Single T (T.ino n) s) (hmv : Moved s t n v)
    (hpc : (s.name n).pc = .transfer ∨ (s.name n).pc = .queued ∨ (s.name n).pc = .handle)
    (hp : v.pc = .queued ∨ v.pc = .handle ∨ v.pc = .drain ∨ v.pc = .done)
    (hloc : v.loc.out = (s.name n).loc.out ∧ v.loc.destStx = (s.name n).loc.destStx)
    (href : v.loc.hinfoRef = (s.name n).loc.hinfoRef ∨ s.fwd (T.ino n) = some v.loc.hinfoRef)
    (htally : v.tally.direct = (s.name n).tally.direct ∧
      v.tally.handled = (s.name n).tally.handled)
    (hlink : v.pc = .handle ∨ v.pc = .drain →
      (s.name n).pc = .handle ∨ 1 < (T.stx n).stx_nlink)
    (hlast : (s.name n).tally.direct ≠ 0 → v.pc = .done) : Single T (T.ino n) t := by
  have hok := hs.name n rfl
  have hh : (s.name n).tally.handled = 0 := by
    by_contra hne
    have := (hok.handled hne).2
    rcases hpc with h | h | h <;> simp [h] at this
  refine hs.move hmv ?_ (by rw [hloc.1]) (.inr href) (fun _ => hloc.2) htally.1 htally.2 ?_ ?_ ?_
  · have hasks : T.asks n v = T.asks n (s.name n) := by
      rw [SourceTree.asks, hloc.2]
      rfl
    exact {
      first := fun hfl => by
        rw [hloc.1] at hfl ⊢
        exact ⟨by rcases hp with h | h | h | h <;> rw [h] <;> rfl, (hok.first hfl).2⟩
      asked := fun _ => by
        rw [hasks, hloc.1]
        rcases hok.asked (by rcases hpc with h | h | h <;> simp [h]) with h | ⟨h1, h2, h3⟩
        · exact .inl h
        · refine .inr ⟨h1, h2, ?_⟩
          have hno : ¬ (v.pc = .handle ∨ v.pc = .drain) := by
            intro h
            rcases hlink h with h | h
            · simp [h] at h3
            · omega
          rcases hp with h | h | h | h
          · exact .inr (.inl h)
          · exact absurd (.inl h) hno
          · exact absurd (.inr h) hno
          · exact .inr (.inr h)
      withdrawn := by rcases hp with h | h | h | h <;> simp [h]
      direct := fun hd => by
        rw [htally.1] at hd
        obtain ⟨h1, h2, h3, -⟩ := hok.direct hd
        rw [hloc.1, htally.2, hlast hd]
        exact ⟨h1, h2, h3, rfl⟩
      handled := by simp [htally.2, hh] }
  · rcases hpc with h | h | h <;> simp [h, Pc.early]
  · rcases hp with h | h | h | h <;> simp [h, Pc.settled, Pc.early, Pc.looking]
  · rcases hp with h | h | h | h <;> simp [h]

theorem Single.transfer {y : ℕ} (hs : Single T (T.ino n) s) (hpc : (s.name n).pc = .transfer)
    (h : T.transfer s n y = some t) : Single T (T.ino n) t := by
  have hok := hs.name n rfl
  obtain ⟨v, hmv, hv⟩ := transfer_moved h
  have keep : ∀ {v}, Moved s t n v → v.loc = (s.name n).loc → v.tally.direct = (s.name n).tally.direct →
      v.tally.handled = (s.name n).tally.handled → (v.pc = .queued ∨ v.pc = .done) →
      ((s.name n).tally.direct ≠ 0 → v.pc = .done) → Single T (T.ino n) t := by
    intro v hmv hloc h1 h2 hp hlast
    refine hs.onward hmv (.inl hpc) ?_ (by simp [hloc]) (.inl (by rw [hloc])) ⟨h1, h2⟩ ?_ hlast
    · rcases hp with h | h <;> simp [h]
    · rcases hp with h | h <;> simp [h]
  cases hv with
  | create p hrep hy hp =>
    refine keep hmv rfl rfl rfl (hp.imp_right And.right) fun hd => ?_
    simp [SourceTree.replaces, (hok.direct hd).2.1] at hrep
  | keep hs' hfl =>
    refine keep hmv rfl rfl rfl (.inl rfl) fun hd => ?_
    simp [(hok.direct hd).2.2.1] at hfl
  | stop hpend => exact keep hmv rfl rfl rfl (.inr rfl) fun _ => rfl
  | skip hs' hc => exact keep hmv rfl rfl rfl (.inr rfl) fun _ => rfl
  | count hs' hpend hfl => exact keep hmv rfl rfl rfl (.inr rfl) fun _ => rfl

theorem Single.transferFails (hs : Single T (T.ino n) s) (hpc : (s.name n).pc = .transfer)
    (h : T.transferFails s n = some t) : Single T (T.ino n) t := by
  rw [SourceTree.transferFails] at h
  split at h
  · obtain rfl := Option.some.inj h
    exact hs.onward ((Quiet.refl s).goto n _) (.inl hpc) (.inr (.inr (.inr rfl))) ⟨rfl, rfl⟩
      (.inl rfl) ⟨rfl, rfl⟩ (by simp [NameState.goto]) fun _ => rfl
  · cases h

/-- A name that has been linked by its own thread has no job. -/
theorem Single.direct_of_queued (hs : Single T (T.ino n) s)
    (hpc : (s.name n).pc = .queued ∨ (s.name n).pc = .handle ∨ (s.name n).pc = .drain) :
    (s.name n).tally.direct = 0 := by
  by_contra hd
  have := ((hs.name n rfl).direct hd).2.2.2
  rcases hpc with h | h | h <;> simp [h, Pc.linkedOn] at this

theorem Single.publish (hs : Single T (T.ino n) s) (hpc : (s.name n).pc = .queued)
    (h : T.publish s n = some t) : Single T (T.ino n) t := by
  have hd := hs.direct_of_queued (.inl hpc)
  obtain ⟨y, v, -, hmv, -, -, hloc, ⟨hn, hp, htally⟩ | ⟨-, hp, htally⟩⟩ := publish_moved h
  · exact hs.onward hmv (.inr (.inl hpc)) (.inr (.inl hp)) (by simp [hloc]) (.inl (by rw [hloc]))
      (by simp [htally]) (fun _ => .inr hn) fun hne => absurd hd hne
  · exact hs.onward hmv (.inr (.inl hpc)) (.inr (.inr (.inr hp))) (by simp [hloc])
      (.inl (by rw [hloc])) (by simp [htally]) (by simp [hp]) fun _ => hp

theorem publishFails_moved {fate : SourceTree.Fate}
    (h : SourceTree.publishFails s n fate = some t) :
    ∃ v, Moved s t n v ∧ v.pc = .done ∧ v.loc = (s.name n).loc ∧
      v.tally = { (s.name n).tally with counted := (s.name n).tally.counted + 1 } := by
  simp only [SourceTree.publishFails] at h
  split at h
  all_goals
    obtain rfl := Option.some.inj h
    exact ⟨_, (Quiet.refl s).put n _, rfl, rfl, rfl⟩

theorem Single.publishFails {fate : SourceTree.Fate} (hs : Single T (T.ino n) s)
    (hpc : (s.name n).pc = .queued) (h : SourceTree.publishFails s n fate = some t) :
    Single T (T.ino n) t := by
  obtain ⟨v, hmv, hp, hloc, htally⟩ := publishFails_moved h
  exact hs.onward hmv (.inr (.inl hpc)) (.inr (.inr (.inr hp))) (by simp [hloc])
    (.inl (by rw [hloc])) (by simp [htally]) (by simp [hp]) fun _ => hp

theorem Single.handle (hs : Single T (T.ino n) s) (hpc : (s.name n).pc = .handle) :
    Single T (T.ino n) (T.handle s n) := by
  have hd := hs.direct_of_queued (.inr (.inl hpc))
  rw [SourceTree.handle]
  split
  · rename_i r hr
    exact hs.onward ((Quiet.refl s).put n _) (.inr (.inr hpc)) (.inr (.inr (.inl rfl))) ⟨rfl, rfl⟩
      (.inr hr) ⟨rfl, rfl⟩ (fun _ => .inl hpc) fun hne => absurd hd hne
  · exact hs.onward ((Quiet.refl s).put n _) (.inr (.inr hpc)) (.inr (.inr (.inr rfl))) ⟨rfl, rfl⟩
      (.inl rfl) ⟨rfl, rfl⟩ (by simp [NameState.finish]) fun _ => rfl

/-- A name at the record sees the record of the entry. -/
theorem Single.sees (hs : Single T (T.ino n) s) (hearly : (s.name n).pc.early = false)
    (hask : T.asks n (s.name n)) : s.fwd (T.ino n) = some (s.name n).loc.hinfoRef := by
  cases hf : s.fwd (T.ino n) with
  | none =>
    rcases hs.absent hf n rfl with h | ⟨h, -⟩
    · simp [hearly] at h
    · exact absurd hask h
  | some r =>
    obtain ⟨m, -, -, -, href, hall⟩ := hs.root r hf
    by_cases hnm : n = m
    · rw [hnm, href]
    · rcases (hall n rfl hnm).hinfoRef with h | h
      · simp [hearly] at h
      · rw [h]

inductive RelinkFate (s : State Name) (n : Name) (v : NameState) (h h' : HLinkInfo Name) : Prop
  | counted (hd : v.tally.direct = (s.name n).tally.direct + 1)
      (hp : v.pc = if h.nlinkRC = 0 then .retire else .reverse)
      (hrc : h'.nlinkRC = decSize h.nlinkRC)
  | other (hd : v.tally.direct = (s.name n).tally.direct) (hp : v.pc = .leaked ∨ v.pc = .reverse)
      (hrc : h'.nlinkRC = h.nlinkRC)

theorem relink_fate {fate : SourceTree.Fate} (h : SourceTree.relink s n fate = some t) :
    ∃ x x' v, s.info (s.name n).loc.hinfoRef = some x ∧ RelinkFate s n v x x' ∧
      x'.remote = x.remote ∧ t.fwd = s.fwd ∧ t.name = Function.update s.name n v ∧
      t.info = Function.update s.info (s.name n).loc.hinfoRef (some x') ∧
      v.loc.out.firstLook = (s.name n).loc.out.firstLook ∧
      v.loc.out.shouldTransfer = (s.name n).loc.out.shouldTransfer ∧
      v.loc.destStx = (s.name n).loc.destStx ∧ v.loc.hinfoRef = (s.name n).loc.hinfoRef ∧
      v.tally.handled = (s.name n).tally.handled := by
  obtain ⟨x, hx, h⟩ := Option.bind_eq_some_iff.mp h
  obtain ⟨-, h⟩ := Option.ite_none_left_eq_some.mp h
  refine ⟨x, ?_⟩
  split at h
  · cases fate with
    | linked =>
      obtain ⟨y, -, h⟩ := Option.bind_eq_some_iff.mp h
      obtain rfl := Option.some.inj h
      refine ⟨_, _, hx, ?_, ?_, rfl, rfl, rfl, rfl, rfl, rfl, rfl, rfl⟩
      exacts [.counted rfl rfl rfl, rfl]
    | kept =>
      obtain rfl := Option.some.inj h
      refine ⟨_, _, hx, ?_, ?_, rfl, rfl, rfl, rfl, rfl, rfl, rfl, rfl⟩
      exacts [.counted rfl rfl rfl, rfl]
    | gone =>
      obtain rfl := Option.some.inj h
      refine ⟨_, _, hx, ?_, ?_, rfl, rfl, rfl, rfl, rfl, rfl, rfl, rfl⟩
      exacts [.other rfl (.inl rfl) rfl, rfl]
  · obtain rfl := Option.some.inj h
    refine ⟨_, _, hx, ?_, ?_, rfl, rfl, rfl, rfl, rfl, rfl, rfl, rfl⟩
    exacts [.other rfl (.inr rfl) rfl, rfl]

theorem Single.relink {fate : SourceTree.Fate} (hs : Single T (T.ino n) s)
    (hpc : (s.name n).pc = .relink) (h : SourceTree.relink s n fate = some t) :
    Single T (T.ino n) t := by
  have hok := hs.name n rfl
  obtain ⟨hd, hh, hfl⟩ := hok.unused (by rw [hpc]; rfl)
  have hset : (s.name n).pc.settled = false := by rw [hpc]; rfl
  have hask : T.asks n (s.name n) := by simpa [hpc, hfl] using hok.asked (by simp [hpc])
  obtain ⟨x, x', v, hx, hfate, hrem, hfwd, hname, hinfo, hout, hsh, hstx, href, hv⟩ := relink_fate h
  have hr := hs.sees (by rw [hpc]; rfl) hask
  obtain ⟨x₁, hx₁, hrc, -⟩ := hs.counted _ n hr rfl hset
  obtain rfl : x = x₁ := Option.some.inj (hx.symm.trans hx₁)
  have hroom : T.used s (T.ino n) + 1 ≤ (T.stx n).stx_nlink := used_add_one_le (by simp [hd, hh])
  have hth : OneThread T s t n v := ⟨by rw [hname, Function.update_self], fun m hm => by
    rw [hname, Function.update_of_ne hm]
    exact .refl _⟩
  have hp : v.pc = .leaked ∨ v.pc = .reverse := by
    cases hfate with
    | counted _ hp _ => exact .inr (by rw [hp, if_neg (by omega)])
    | other _ hp _ => exact hp
  have hasks : T.asks n v := by rwa [SourceTree.asks, hstx]
  refine hs.thread hth (by rw [hfwd]) ?_ (fun hf => by simp [hr] at hf) ?_ ?_ (by simp [hset])
    ?_ ?_
  · exact {
      first := by simp [hout, hfl]
      asked := fun _ => .inl hasks
      withdrawn := by rcases hp with h | h <;> simp [h]
      direct := fun hd' => by
        refine ⟨by rw [hv, hh], by rw [hsh, hok.withdrawn hpc], by rw [hout, hfl], ?_⟩
        cases hfate with
        | counted _ hp _ => rw [hp, if_neg (by omega)]; rfl
        | other h _ _ => exact absurd (h.trans hd) hd'
      handled := by simp [hv, hh] }
  · simp [hfl]
  · intro r m hr' _ _ _
    refine ⟨hout.trans hfl, .inr ?_, by rcases hp with h | h <;> simp [h]⟩
    exact href.trans (Option.some.inj (hr.symm.trans hr'))
  · intro r m hr' hm _ y hy hrc'
    obtain rfl : (s.name n).loc.hinfoRef = r := Option.some.inj (hr.symm.trans hr')
    obtain rfl : x = y := Option.some.inj (hx.symm.trans hy)
    refine ⟨x', by rw [hinfo, Function.update_self], ?_, hrem⟩
    cases hfate with
    | counted h1 _ h2 =>
      rw [h2, decSize, if_neg (by omega), hth.used_succ (by simp [hd, hh]) (by omega)]
      omega
    | other h1 _ h2 => rw [h2, hth.used_eq (by rw [h1, hv]), hrc']
  · rcases hp with h | h <;> simp [h]

theorem drainEntry_thread (fate : SourceTree.Fate) (y k : ℕ) (v : NameState) :
    SameThread v (SourceTree.drainEntry fate y k v) := by
  unfold SourceTree.drainEntry
  split <;> exact ⟨rfl, rfl, rfl, rfl⟩

/-- Draining counts the record down, whatever becomes of the links. -/
theorem drain_fate {fate : Name → SourceTree.Fate} (h : SourceTree.drain s n fate = some t) :
    ∃ x x' v, s.info (s.name n).loc.hinfoRef = some x ∧ x'.nlinkRC = decSize x.nlinkRC ∧
      x'.remote = x.remote ∧
      t.fwd = s.fwd ∧ OneThread T s t n v ∧
      t.info = Function.update s.info (s.name n).loc.hinfoRef (some x') ∧
      v.loc = (s.name n).loc ∧ v.tally.direct = (s.name n).tally.direct ∧
      v.tally.handled = (s.name n).tally.handled + 1 ∧
      v.pc = if x'.nlinkRC = 0 then .handleRetire else .done := by
  obtain ⟨x, hx, h⟩ := Option.bind_eq_some_iff.mp h
  obtain ⟨y, -, h⟩ := Option.bind_eq_some_iff.mp h
  obtain ⟨-, h⟩ := Option.ite_none_left_eq_some.mp h
  obtain rfl := Option.some.inj h
  refine ⟨x, { x with
    transferred := true, destInode := (s.name n).loc.finishIno, nlinkRC := decSize x.nlinkRC },
    _, hx, rfl, rfl, rfl, ⟨Function.update_self _ _ _, fun m hm => ?_⟩, rfl, ?_⟩
  · refine Eq.mpr (congrArg _ (Function.update_of_ne hm _ _)) ?_
    exact drainEntry_thread _ _ _ _
  · split <;> exact ⟨rfl, rfl, rfl, rfl⟩

theorem Single.drain {fate : Name → SourceTree.Fate} (hs : Single T (T.ino n) s)
    (hpc : (s.name n).pc = .drain) (h : SourceTree.drain s n fate = some t) :
    Single T (T.ino n) t := by
  have hok := hs.name n rfl
  have hd := hs.direct_of_queued (.inr (.inr hpc))
  have hh : (s.name n).tally.handled = 0 := by
    by_contra hne
    simpa [hpc] using (hok.handled hne).2
  have hask : T.asks n (s.name n) := by simpa [hpc] using hok.asked (by simp [hpc])
  obtain ⟨x, x', v, hx, hrc', hrem, hfwd, hth, hinfo, hloc, hvd, hvh, hp⟩ := drain_fate (T := T) h
  have hr := hs.sees (by rw [hpc]; rfl) hask
  have hp' : v.pc = .handleRetire ∨ v.pc = .done := by
    rw [hp]
    split <;> simp
  have hset : v.pc.settled = true := by rcases hp' with h | h <;> rw [h] <;> rfl
  have hasks : T.asks n v := by rwa [SourceTree.asks, hloc]
  -- an undecided name leaves room for itself and for this one
  have hcount : ∀ m, T.ino m = T.ino n → (t.name m).pc.settled = false →
      x.nlinkRC + T.used s (T.ino n) = (T.stx n).stx_nlink ∧ 2 ≤ x.nlinkRC ∧
        (s.name m).pc.settled = false := by
    intro m hm hs'
    have hmn : n ≠ m := by
      rintro rfl
      rw [hth.self, hset] at hs'
      cases hs'
    rw [(hth.other m (Ne.symm hmn)).pc] at hs'
    obtain ⟨x₁, hx₁, hrc, -⟩ := hs.counted _ m hr hm hs'
    obtain rfl : x = x₁ := Option.some.inj (hx.symm.trans hx₁)
    have hun := (hs.name m hm).unused hs'
    have := used_add_two_le (s := s) hmn hm (by simp [hd, hh]) (by simp [hun])
    rw [T.same_inode m n hm] at hrc
    exact ⟨hrc, by omega, hs'⟩
  refine hs.thread hth (by rw [hfwd]) ?_ (fun hf => by simp [hr] at hf) ?_ ?_ (fun _ => hset)
    ?_ ?_
  · exact {
      first := fun hfl => by
        rw [hloc] at hfl ⊢
        exact ⟨by rcases hp' with h | h <;> rw [h] <;> rfl, (hok.first hfl).2⟩
      asked := fun _ => .inl hasks
      withdrawn := by rcases hp' with h | h <;> simp [h]
      direct := by simp [hvd, hd]
      handled := fun _ => ⟨by rw [hvd, hd], hp'⟩ }
  · intro r _ hfl _ he
    rw [hloc]
    exact ⟨hasks, hfl, he⟩
  · intro r m hr' _ _ hfol
    exact ⟨by rw [hloc, hfol.firstLook], .inr (by rw [hloc]; exact Option.some.inj (hr.symm.trans hr')),
      by rcases hp' with h | h <;> simp [h]⟩
  · intro r m hr' hm hs' y hy hrc
    obtain rfl : (s.name n).loc.hinfoRef = r := Option.some.inj (hr.symm.trans hr')
    obtain ⟨-, hpos, -⟩ := hcount m hm hs'
    obtain rfl : x = y := Option.some.inj (hx.symm.trans hy)
    refine ⟨x', by rw [hinfo, Function.update_self], ?_, hrem⟩
    rw [hrc', decSize, if_neg (by omega), hth.used_succ (by simp [hd, hh]) (by omega)]
    omega
  · intro hret m hm
    by_contra hne
    obtain ⟨-, hpos, -⟩ := hcount m hm (by simpa using hne)
    rw [hp, if_neg (by rw [hrc', decSize, if_neg (by omega)]; omega)] at hret
    cases hret

theorem handleRetire_name (h : T.handleRetire s n = some t) :
    t.fwd = s.fwd ∧ t.name = Function.update s.name n (s.name n).finish := by
  rw [SourceTree.handleRetire] at h
  split at h
  · cases h
  · split at h <;>
      · obtain rfl := Option.some.inj h
        exact ⟨rfl, rfl⟩

theorem Single.handleRetire (hs : Single T (T.ino n) s) (hpc : (s.name n).pc = .handleRetire)
    (h : T.handleRetire s n = some t) : Single T (T.ino n) t := by
  have hok := hs.name n rfl
  have hall := fun m hm => hs.retiring n m rfl hm hpc
  have hask : T.asks n (s.name n) := by simpa [hpc] using hok.asked (by simp [hpc])
  have hd : (s.name n).tally.direct = 0 := by
    by_contra hne
    simpa [hpc, Pc.linkedOn] using (hok.direct hne).2.2.2
  have hth := handleRetire_name h
  have hthread : OneThread T s t n (s.name n).finish :=
    ⟨by rw [hth.2, Function.update_self], fun m hm => by
      rw [hth.2, Function.update_of_ne hm]
      exact .refl _⟩
  have hset : ∀ m, T.ino m = T.ino n → (t.name m).pc.settled = true := by
    intro m hm
    by_cases hmn : m = n
    · rw [hmn, hthread.self]
      rfl
    · rw [(hthread.other m hmn).pc]
      exact hall m hm
  refine hs.thread hthread (by rw [hth.1]) ?_ ?_ ?_ ?_ (fun _ => rfl) ?_ (fun _ => hset)
  · exact {
      first := fun hfl => ⟨rfl, (hok.first hfl).2⟩
      asked := fun _ => .inl hask
      withdrawn := by simp [NameState.finish]
      direct := fun hne => absurd hd hne
      handled := fun _ => ⟨hd, .inr rfl⟩ }
  · intro hf
    exact (hs.absent hf n rfl).imp_left (by simp [hpc, Pc.early])
  · exact fun r _ hfl ha he => ⟨ha, hfl, he⟩
  · intro r m _ _ _ hfol
    refine ⟨hfol.firstLook, ?_, by simp [NameState.finish]⟩
    simpa [hpc, Pc.early, NameState.finish] using hfol.hinfoRef
  · intro r m _ hm hs'
    simp [hset m hm] at hs'

/-- The branch that removes the entry is never taken. -/
theorem Single.not_retire (hs : Single T (T.ino n) s) : (s.name n).pc ≠ .retire := by
  intro hpc
  have hok := hs.name n rfl
  have hfl : (s.name n).loc.out.firstLook = false := by
    refine Bool.eq_false_iff.mpr fun hfl => ?_
    simpa [hpc, Pc.firstOn] using (hok.first hfl).1
  have hask : T.asks n (s.name n) := by simpa [hpc, hfl] using hok.asked (by simp [hpc])
  have hr := hs.sees (by rw [hpc]; rfl) hask
  obtain ⟨m, -, -, hfl', -, hall⟩ := hs.root _ hr
  have hne : n ≠ m := by
    rintro rfl
    simp [hfl] at hfl'
  exact (hall n rfl hne).stays hpc

theorem Single.step {y : ℕ} (hs : Single T (T.ino n) s) (h : T.step s n y = some t) :
    Single T (T.ino n) t := by
  rw [SourceTree.step] at h
  split at h <;> rename_i hpc
  · obtain rfl := Option.some.inj h
    exact hs.start hpc
  · obtain rfl := Option.some.inj h
    exact hs.register hpc
  · exact hs.promote hpc h
  · exact hs.compare hpc h
  · exact hs.relink hpc h
  · exact absurd hpc hs.not_retire
  · obtain ⟨p, hmv, hp⟩ := reverse_moved h
    exact hs.reversed _ (.inl hpc) hp hmv
  · exact hs.reversed _ (.inr (.inl hpc)) (.inl rfl) (revPromote_moved h)
  · exact hs.reversed _ (.inr (.inr hpc)) (.inl rfl) (revRetire_moved h)
  · exact hs.transfer hpc h
  · exact hs.publish hpc h
  · obtain rfl := Option.some.inj h
    exact hs.handle hpc
  · exact hs.drain hpc h
  · exact hs.handleRetire hpc h
  · cases h
  · cases h

theorem Single.stepFails {fate : Name → SourceTree.Fate} (hs : Single T (T.ino n) s)
    (h : T.stepFails s n fate = some t) : Single T (T.ino n) t := by
  rw [SourceTree.stepFails] at h
  split at h <;> rename_i hpc
  · exact hs.relink hpc h
  · exact hs.transferFails hpc h
  · exact hs.publishFails hpc h
  · exact hs.drain hpc h
  · cases h

theorem register_moved : ∃ v, Moved s (T.register s n) n v := by
  rw [SourceTree.register]
  split <;> exact ⟨_, (Quiet.refl s).put n _⟩

theorem handle_moved : ∃ v, Moved s (T.handle s n) n v := by
  rw [SourceTree.handle]
  split <;> exact ⟨_, (Quiet.refl s).put n _⟩

theorem retire_name (h : T.retire s n = some t) :
    t.name = Function.update s.name n ((s.name n).goto .transfer) := by
  rw [SourceTree.retire] at h
  split at h
  · cases h
  · split at h <;> exact (reverseWrite_moved h).name

/-- The thread of no other name goes on. -/
theorem step_thread {y : ℕ} (h : T.step s n y = some t) {m : Name} (hm : m ≠ n) :
    SameThread (s.name m) (t.name m) := by
  have moved : ∀ v, t.name = Function.update s.name n v → SameThread (s.name m) (t.name m) := by
    intro v hname
    rw [hname, Function.update_of_ne hm]
    exact .refl _
  rw [SourceTree.step] at h
  split at h
  · obtain rfl := Option.some.inj h
    obtain ⟨v, hmv, -⟩ := start_moved (T := T) (s := s) (n := n)
    exact moved v hmv.name
  · obtain rfl := Option.some.inj h
    obtain ⟨v, hmv⟩ := register_moved (T := T) (s := s) (n := n)
    exact moved v hmv.name
  · rcases promote_cases h with ⟨-, hmv⟩ | ⟨-, mismatch, -, hr⟩
    · exact moved _ hmv.name
    · exact moved _ hr.name
  · obtain ⟨x, -, hmv | ⟨-, -, hmv⟩⟩ := compare_moved h
    · exact moved _ hmv.name
    · exact moved _ hmv.name
  · obtain ⟨x, x', v, -, -, -, -, hname, -⟩ := relink_fate h
    exact moved v hname
  · exact moved _ (retire_name h)
  · obtain ⟨p, hmv, -⟩ := reverse_moved h
    exact moved _ hmv.name
  · exact moved _ (revPromote_moved h).name
  · exact moved _ (revRetire_moved h).name
  · obtain ⟨v, hmv, -⟩ := transfer_moved h
    exact moved v hmv.name
  · obtain ⟨y, v, -, hmv, -⟩ := publish_moved h
    exact moved v hmv.name
  · obtain rfl := Option.some.inj h
    obtain ⟨v, hmv⟩ := handle_moved (T := T) (s := s) (n := n)
    exact moved v hmv.name
  · obtain ⟨x, x', v, -, -, -, -, hth, -⟩ := drain_fate (T := T) h
    exact hth.other m hm
  · exact moved _ (handleRetire_name h).2
  · cases h
  · cases h

theorem stepFails_thread {fate : Name → SourceTree.Fate} (h : T.stepFails s n fate = some t)
    {m : Name} (hm : m ≠ n) : SameThread (s.name m) (t.name m) := by
  have moved : ∀ v, t.name = Function.update s.name n v → SameThread (s.name m) (t.name m) := by
    intro v hname
    rw [hname, Function.update_of_ne hm]
    exact .refl _
  rw [SourceTree.stepFails] at h
  split at h
  · obtain ⟨x, x', v, -, -, -, -, hname, -⟩ := relink_fate h
    exact moved v hname
  · obtain ⟨-, h⟩ := Option.ite_none_right_eq_some.mp h
    obtain rfl := Option.some.inj h
    exact moved _ rfl
  · obtain ⟨v, hmv, -⟩ := publishFails_moved h
    exact moved v hmv.name
  · obtain ⟨x, x', v, -, -, -, -, hth, -⟩ := drain_fate (T := T) h
    exact hth.other m hm
  · cases h

structure EntryKept (i : ℕ) (s t : State Name) : Prop where
  fwd : t.fwd i = s.fwd i
  info : ∀ r h, s.fwd i = some r → s.info r = some h → t.info r = some h

theorem Single.frame (hs : Single T i s) (hk : EntryKept i s t)
    (hth : ∀ m, T.ino m = i → SameThread (s.name m) (t.name m)) : Single T i t := by
  have hused : T.used t i = T.used s i := by
    refine congrArg Lib.count (funext fun m => ?_)
    by_cases hm : T.ino m = i
    · rw [(hth m hm).direct, (hth m hm).handled]
    · have hfalse : (T.ino m == i) = false := by simpa using hm
      simp only [hfalse, Bool.false_and]
  refine ⟨fun m hm => (hs.name m hm).same (hth m hm), fun hf m hm => ?_, fun r hr => ?_,
    fun r m hr hm hp => ?_, fun m k hm hk' hp => ?_⟩
  · rw [SourceTree.asks, (hth m hm).pc, (hth m hm).loc]
    exact hs.absent (hk.fwd ▸ hf) m hm
  · obtain ⟨m, hm, hasks, hfl, href, hall⟩ := hs.root r (hk.fwd ▸ hr)
    refine ⟨m, hm, ?_⟩
    rw [SourceTree.asks, (hth m hm).loc]
    exact ⟨hasks, hfl, href, fun k hk hne => (hall k hk hne).same (hth k hk)⟩
  · rw [(hth m hm).pc] at hp
    rw [hk.fwd] at hr
    obtain ⟨h, hh, hrc, hi, hfl⟩ := hs.counted r m hr hm hp
    exact ⟨h, hk.info r h hr hh, by rw [hused, hrc], hi, by rw [(hth _ hi).loc, hfl]⟩
  · rw [(hth m hm).pc] at hp
    rw [(hth k hk').pc]
    exact hs.retiring m k hm hk' hp

/-- A call for a name of another inode leaves the entry of this one alone. -/
def LeavesAlone (T : SourceTree Name) (i : ℕ) (s : State Name) : Op Name → Prop
  | .run n y => T.ino n ≠ i → ∀ t, T.step s n y = some t → EntryKept i s t
  | .fail n fate => T.ino n ≠ i → ∀ t, T.stepFails s n fate = some t → EntryKept i s t
  | _ => True

theorem Single.next {op : Op Name} (hs : Single T i s) (hk : LeavesAlone T i s op)
    (h : T.next s op = some t) : Single T i t := by
  cases op with
  | run n y =>
    by_cases hn : T.ino n = i
    · subst hn
      exact hs.step h
    · refine hs.frame (hk hn t h) fun m hm => step_thread h ?_
      rintro rfl
      exact hn hm
  | fail n fate =>
    by_cases hn : T.ino n = i
    · subst hn
      exact hs.stepFails h
    · refine hs.frame (hk hn t h) fun m hm => stepFails_thread h ?_
      rintro rfl
      exact hn hm
  | reuseInfo r x =>
    obtain ⟨⟨-, hnone⟩, h⟩ := Option.ite_none_right_eq_some.mp h
    obtain rfl := Option.some.inj h
    refine hs.frame ⟨rfl, fun r' x' _ hr' => ?_⟩ fun m _ => .refl _
    have hne : r' ≠ r := by
      rintro rfl
      simp [hr'] at hnone
    exact (Function.update_of_ne hne _ _).trans hr'
  | reuseRevinfo q x =>
    obtain ⟨-, h⟩ := Option.ite_none_right_eq_some.mp h
    obtain rfl := Option.some.inj h
    exact hs.frame ⟨rfl, fun _ _ _ h => h⟩ fun m _ => .refl _

theorem Single.init {dst : Name → Option ℕ} :
    Single T i ({ name := fun n => { dst := dst n } } : State Name) where
  name n _ := ⟨by simp, by simp, by simp, by simp, by simp⟩
  absent _ n _ := .inl rfl
  root r hr := by simp at hr
  counted r n hr := by simp at hr
  retiring n m _ _ hp := by simp at hp

theorem Single.reach (h : T.system.Reach (LeavesAlone T i) s) : Single T i s := by
  refine h.invariant ?_ fun s op t hs hk hn => hs.next hk hn
  rintro s ⟨dst, rfl⟩
  exact Single.init

/-- The root of the inode: its call has returned `isFirstLook`. -/
def IsRoot (T : SourceTree Name) (s : State Name) (i : ℕ) (m : Name) : Prop :=
  T.ino m = i ∧ Returned T m (s.name m) ∧ (s.name m).loc.out.firstLook = true

/-- The name has found the entry of the root, and the record that the root created. -/
structure Observes (s : State Name) (m n : Name) : Prop where
  entry : (s.name n).loc.hinfoRef = (s.name m).loc.hinfoRef
  record : (s.name n).pc.looking = true →
    ∃ h, s.info (s.name n).loc.hinfoRef = some h ∧ h.remote = m

structure OneRoot (T : SourceTree Name) (s : State Name) (i : ℕ) : Prop where
  unique : ∀ n, T.ino n = i → Returned T n (s.name n) → ∃! m, IsRoot T s i m
  exclusive : ∀ n, T.ino n = i → Returned T n (s.name n) →
    ¬ ((s.name n).loc.out.firstLook = true ∧ (s.name n).loc.out.isPendingHardlink = true)
  observes : ∀ n m, T.ino n = i → T.asks n (s.name n) → (s.name n).pc.early = false →
    IsRoot T s i m → Observes s m n
  retry : ∀ n y t, T.ino n = i → (s.name n).pc = .promote → T.step s n y = some t →
    (t.name n).pc = .register → ∃ m, m ≠ n ∧ IsRoot T s i m

theorem returned_of_first (hn : SingleName T n v) (hask : T.asks n v)
    (hfl : v.loc.out.firstLook = true) : Returned T n v := by
  refine ⟨hask, ?_⟩
  have := (hn.first hfl).1
  revert this
  cases v.pc <;> decide

theorem Single.oneRoot (hs : Single T i s) : OneRoot T s i := by
  have root : ∀ r, s.fwd i = some r → ∃ m, IsRoot T s i m ∧ (s.name m).loc.hinfoRef = r ∧
      ∀ n, T.ino n = i → n ≠ m → Follower r (s.name n) := by
    intro r hr
    obtain ⟨m, hm, hask, hfl, href, hall⟩ := hs.root r hr
    exact ⟨m, ⟨hm, returned_of_first (hs.name m hm) hask hfl, hfl⟩, href, hall⟩
  have entry : ∀ n, T.ino n = i → T.asks n (s.name n) → (s.name n).pc.early = false →
      s.fwd i = some (s.name n).loc.hinfoRef := by
    rintro n rfl hask he
    exact hs.sees he hask
  have late : ∀ n, Returned T n (s.name n) → (s.name n).pc.early = false := by
    rintro n ⟨-, hp⟩
    revert hp
    cases (s.name n).pc <;> decide
  have same : ∀ m k, IsRoot T s i m → IsRoot T s i k → m = k := by
    intro m k hm hk
    obtain ⟨a, -, -, hall⟩ := root _ (entry m hm.1 hm.2.1.1 (late m hm.2.1))
    have eq : ∀ b, IsRoot T s i b → b = a := by
      intro b hb
      by_contra hne
      simpa [hb.2.2] using (hall b hb.1 hne).firstLook
    rw [eq m hm, eq k hk]
  refine ⟨fun n hn hret => ?_, fun n hn hret => ?_, fun n m hn hask he hm => ⟨?_, fun hl => ?_⟩,
    fun n y t hn hpc h hreg => ?_⟩
  · obtain ⟨m, hm, -⟩ := root _ (entry n hn hret.1 (late n hret))
    exact ⟨m, hm, fun k hk => same k m hk hm⟩
  · rintro ⟨hfl, hpend⟩
    simpa [hpend] using ((hs.name n hn).first hfl).2
  · have h1 := entry n hn hask he
    have h2 := entry m hm.1 hm.2.1.1 (late m hm.2.1)
    exact Option.some.inj (h1.symm.trans h2)
  · obtain ⟨h, hh, -, hi, hfl⟩ := hs.counted _ n (entry n hn hask he) hn (by simp [Pc.settled, hl])
    obtain ⟨k, hk, -, hall⟩ := root _ (entry n hn hask he)
    refine ⟨h, hh, ?_⟩
    rw [same m k hm hk]
    by_contra hne
    simpa [hfl] using (hall _ hi hne).firstLook
  · rw [SourceTree.step, hpc] at h
    rcases promote_cases h with ⟨⟨r, hr⟩, -⟩ | ⟨-, mismatch, -, hrt⟩
    · obtain ⟨m, hm, -⟩ := root r (hn ▸ hr)
      refine ⟨m, ?_, hm⟩
      rintro rfl
      simpa [hpc, Pc.returned] using hm.2.1.2
    · rw [hrt.name, Function.update_self] at hreg
      simp [rootState] at hreg

/-- Of the calls for the names of one inode exactly one is first, none is first and pending,
all others see the record of that one, and a call starts again only after that one. -/
theorem one_root (T : SourceTree Name) {i : ℕ} (h : T.system.Reach (LeavesAlone T i) s) :
    OneRoot T s i :=
  (Single.reach h).oneRoot

def ofFirst (_ : State (Fin 3)) : Op (Fin 3) → Bool
  | .run n _ => sampleTree.ino n == 1
  | _ => false

theorem ofFirst_sound {s : State (Fin 3)} {op : Op (Fin 3)} (h : ofFirst s op = true) :
    LeavesAlone sampleTree 1 s op := by
  cases op with
  | run n y => exact fun hne => absurd (beq_iff_eq.mp h) hne
  | _ => cases h

def againRun : List (Op (Fin 3)) :=
  [.run 0 0, .run 1 0, .run 0 0, .run 1 0, .run 0 0, .run 1 0, .run 1 0, .run 1 0, .run 1 0]

theorem one_root_sample : ∃ s, sampleTree.system.Reach (LeavesAlone sampleTree 1) s ∧
    (s.name 1).loc.out.isPendingHardlink = true ∧ OneRoot sampleTree s 1 := by
  obtain ⟨s, hs⟩ := Option.isSome_iff_exists.mp (show (sampleTree.system.exec
    ofFirst emptyStart againRun).isSome = true by decide +kernel)
  have hpend : ((sampleTree.system.exec ofFirst emptyStart againRun).map
      fun s => (s.name 1).loc.out.isPendingHardlink) = some true := by decide +kernel
  have hreach : sampleTree.system.Reach (LeavesAlone sampleTree 1) s :=
    ⟨emptyStart, ⟨fun _ => none, rfl⟩, .of_exec _ (fun _ _ _ h => ofFirst_sound h) hs⟩
  rw [hs] at hpend
  exact ⟨s, hreach, Option.some.inj hpend, one_root sampleTree hreach⟩

end Copy2.HLink
