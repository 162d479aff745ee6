import Copy2.HLink.Reverse

/-! # Are distinct files kept apart?

A root that is left alone keeps the destination inode that it has found. The reverse table
is to see to it that no root of another source keeps the same one: it does, as long as
what is read of it is still right when it is used. -/
namespace Copy2.HLink
open FileJob Lib Os

set_option linter.unusedSectionVars false

variable {Name : Type} [Fintype Name] [DecidableEq Name]
variable {T : SourceTree Name} {s t : State Name} {n m : Name} {v : NameState} {q : Ref}

/-- The reverse entry that a new root has not found is not there now either. -/
def ReadsFresh (T : SourceTree Name) (s : State Name) (n : Name) : Prop :=
  (s.name n).pc = .promote → s.fwd (T.ino n) = none → (s.name n).loc.destExists = true →
    (s.name n).loc.origShouldTransfer = false → (s.name n).loc.revinfoRef = none →
      s.rev (s.name n).found = none

/-- What is read of the reverse table is the entry of the destination inode as it is. -/
def ReadsRight (T : SourceTree Name) (s : State Name) : Op Name → Prop
  | .run n _ => ReadsOwn T s n ∧ ReadsFresh T s n
  | _ => True

def Kept (v : NameState) : Prop := v.loc.out.firstLook = true ∧ v.loc.out.shouldTransfer = false

/-- Roots of different sources that are left alone have different inodes. -/
structure Apart (T : SourceTree Name) (s : State Name) : Prop where
  recorded : ∀ a, Kept (s.name a) → 1 < (s.name a).loc.destStx.stx_nlink →
    s.rev (s.name a).found ≠ none
  sole : ∀ a, T.atHome a (s.name a) = true → (s.name a).pc ≠ .start →
    (s.name a).loc.destExists = true → (s.name a).loc.destStx.stx_nlink ≤ 1 →
    ∀ b, (s.name b).dst = some (s.name a).found → T.ino b = T.ino a
  apart : ∀ a b, Kept (s.name a) → Kept (s.name b) → (s.name a).found = (s.name b).found →
    T.ino a = T.ino b

theorem NameOk.settled (hok : NameOk T n v) (h : v.loc.out.firstLook = true) :
    v.pc.settled = true := by
  have hroot := (hok.flags h).1
  revert hroot
  cases v.pc <;> decide

theorem atHome_of_unsettled (h : v.pc.settled = false) (hs : v.pc ≠ .start) :
    T.atHome n v = true := by
  revert h hs
  cases hp : v.pc <;> simp [SourceTree.atHome, hp, Pc.settled, Pc.early, Pc.looking]

theorem atHome_of_settled (h : v.pc.settled = true) :
    T.atHome n v = (v.loc.out.firstLook && (v.pc.before || !T.replaces n v)) := by
  revert h
  cases hp : v.pc <;> simp [SourceTree.atHome, hp, Pc.settled, Pc.early, Pc.looking]

theorem Kept.atHome (h : Kept v) : T.atHome n v = true := by
  simp [SourceTree.atHome, SourceTree.replaces, h.1, h.2]

theorem NameOk.ne_start (hok : NameOk T n v) (h : v.loc.out.firstLook = true) : v.pc ≠ .start := by
  intro hp
  have := (hok.flags h).1
  simp [hp, Pc.rooted] at this

theorem Kept.found (h : Kept v) (hok : NameOk T n v) :
    v.loc.destExists = true ∧ v.dst = some v.found := by
  have horig : v.loc.origShouldTransfer = false :=
    Bool.eq_false_iff.mpr fun ho => Bool.eq_false_iff.mp h.2 ((hok.flags h.1).2.2 ho)
  have hstale : T.stale n v.loc = false := hok.stale (hok.ne_start h.1) ▸ horig
  have hd : v.loc.destExists = true := by
    simp only [SourceTree.stale, Bool.or_eq_false_iff, Bool.not_eq_false'] at hstale
    exact hstale.1
  refine ⟨hd, ?_⟩
  rw [hok.home h.atHome, Local.home, if_pos hd, NameState.found]

/-- A name whose inode is up to its own thread has been so since `statx`. -/
theorem Keeps.atHome (hk : Keeps (s.name m) (t.name m)) (hok : NameOk T m (s.name m))
    (h : T.atHome m (t.name m) = true) (hs : (s.name m).pc ≠ .start) : T.atHome m (s.name m) = true := by
  cases hset : (s.name m).pc.settled with
  | false => exact atHome_of_unsettled hset hs
  | true =>
    obtain ⟨hset', hout, hbefore⟩ := hk.settled hset
    have hrep : T.replaces m (t.name m) = T.replaces m (s.name m) := by
      rw [SourceTree.replaces, hout, SourceTree.replaces]
    rw [atHome_of_settled hset', hout, hrep] at h
    rw [atHome_of_settled hset]
    simp only [Bool.and_eq_true, Bool.or_eq_true, Bool.not_eq_true'] at h ⊢
    refine ⟨h.1, h.2.imp_left fun hb => (hbefore hb).resolve_right fun hroot => ?_⟩
    simp [(hok.flags h.1).1] at hroot

/-- A name gets the inode of a name of its own source, or that of its temporary file. -/
theorem StepCase.dst {y : ℕ} (h : StepCase T s t n) (hy : (t.name m).dst = some y) :
    (∃ k, T.ino k = T.ino m ∧ (s.name k).dst = some y) ∨ (s.name m).tmp = some y := by
  have one (v) (hname : t.name = Function.update s.name n v) (hv : v.dst = some y → m = n →
      (∃ k, T.ino k = T.ino n ∧ (s.name k).dst = some y) ∨ (s.name n).tmp = some y) :
      (∃ k, T.ino k = T.ino m ∧ (s.name k).dst = some y) ∨ (s.name m).tmp = some y := by
    rw [hname, Function.update_apply] at hy
    split at hy
    · rename_i hm
      subst hm
      exact hv hy rfl
    · exact .inl ⟨m, rfl, hy⟩
  cases h with
  | move v hmv hok =>
    refine one v hmv.name fun hv _ => ?_
    cases hok.change.files with
    | same hdst => exact .inl ⟨n, rfl, hdst ▸ hv⟩
    | create z _ hdst => exact .inl ⟨n, rfl, hdst ▸ hv⟩
    | publish z hz hdst => exact .inr (by rw [hz, ← hdst, hv])
  | root mismatch _ _ _ hr => exact one _ hr.name fun hv _ => .inl ⟨n, rfl, hv⟩
  | link r x z _ _ _ hreg _ _ hz hrl =>
    refine one _ hrl.name fun hv _ => .inl ⟨x.remote, hreg.ino_root, ?_⟩
    exact hz.trans hv
  | wait r x _ _ _ _ _ _ hrl => exact one _ hrl.name fun hv _ => .inl ⟨n, rfl, hv⟩
  | drain r x z _ _ _ _ hreg hz hd =>
    by_cases hm : m = n
    · subst hm
      rw [hd.root] at hy
      refine .inl ⟨m, rfl, ?_⟩
      split at hy <;> exact hy
    · rw [hd.other m hm] at hy
      by_cases hl : m ∈ x.links
      · rw [drainEntry_of_mem hl hreg.nodup] at hy
        exact .inl ⟨n, (hreg.links m hl).1.symm, hz.trans hy⟩
      · rw [drainEntry_of_notMem hl] at hy
        exact .inl ⟨m, rfl, hy⟩

theorem start_dst : ((T.start s n).name m).dst = (s.name m).dst := by
  obtain ⟨v, hmv, hdst, -⟩ := start_moved (T := T) (s := s) (n := n)
  rw [hmv.name, Function.update_apply]
  split
  · rename_i hm
    rw [hm, hdst]
  · rfl

/-- An inode with one link has one name. -/
theorem start_alone (hd : ((T.start s n).name n).loc.destExists = true)
    (hn : ((T.start s n).name n).loc.destStx.stx_nlink ≤ 1)
    (hm : (s.name m).dst = some ((T.start s n).name n).found) : m = n := by
  obtain ⟨v, hmv, -, -, -, hv⟩ := start_moved (T := T) (s := s) (n := n)
  have hown : (T.start s n).name n = v := by rw [hmv.name, Function.update_self]
  have hex : v.loc.destExists = (T.statDest s n).destExists := by
    rcases hv with ⟨-, h⟩ | ⟨-, -, h⟩ <;> rw [h]
  have hstx : v.loc.destStx = (T.statDest s n).destStx := by
    rcases hv with ⟨-, h⟩ | ⟨-, -, h⟩ <;> rw [h]
  rw [hown, hex] at hd
  obtain ⟨i, hi, hino, hnlink⟩ := statDest_found hd
  rw [hown, NameState.found, hstx, hino] at hm
  rw [hown, hstx, hnlink, State.nlink] at hn
  by_contra hne
  have htwo := count_add_two_le (p := fun _ => false) (q := fun k => (s.name k).dst == some i)
    (fun _ h => by cases h) hne rfl rfl (by simp [hm]) (by simp [hi])
  omega

/-- A name becomes a root when it is first seen, and none of its inodes has links, or when it
has found no entry for its source. -/
theorem becomes_root {y : ℕ} (hs : Sound T s) (h : T.step s n y = some t)
    (hset : (s.name n).pc.settled = false) (hfl : (t.name n).loc.out.firstLook = true) :
    (s.name n).pc = .start ∧ (t.name n).loc.destStx.stx_nlink ≤ 1 ∨
      (s.name n).pc = .promote ∧ s.fwd (T.ino n) = none := by
  have hno : (s.name n).loc.out.firstLook = false := Bool.eq_false_iff.mpr fun hfl => by
    simp [((hs.group _).names n rfl).settled hfl] at hset
  rw [SourceTree.step] at h
  split at h <;> rename_i hpc
  all_goals try (rw [hpc] at hset; cases hset; done)
  · obtain rfl := Option.some.inj h
    refine .inl ⟨hpc, ?_⟩
    rw [SourceTree.start] at hfl ⊢
    split at hfl
    · simp [State.put, statDest_out] at hfl
    · rename_i hn
      rw [if_neg hn]
      simp only [State.put, Function.update_self]
      omega
  · obtain rfl := Option.some.inj h
    rw [SourceTree.register] at hfl
    split at hfl <;> simp [State.put] at hfl
  · rcases promote_cases h with ⟨-, hmv⟩ | ⟨hf, -⟩
    · rw [hmv.name, Function.update_self] at hfl
      simp [NameState.goto, hno] at hfl
    · exact .inr ⟨hpc, hf⟩
  · obtain ⟨x, -, hmv | ⟨-, -, hmv⟩⟩ := compare_moved h <;>
      rw [hmv.name, Function.update_self] at hfl <;> simp [NameState.goto, hno] at hfl
  · obtain ⟨x, x', v, -, -, -, -, hname, -, hvfl, -⟩ := relink_fate h
    rw [hname, Function.update_self, hvfl, hno] at hfl
    cases hfl

theorem kept_cases {y : ℕ} (hs : Sound T s) (h : T.step s n y = some t) (hk : Kept (t.name m)) :
    Kept (s.name m) ∧ (t.name m).loc.destStx = (s.name m).loc.destStx ∨
      m = n ∧ ((s.name n).pc = .start ∧ (t.name n).loc.destStx.stx_nlink ≤ 1 ∨
        (s.name n).pc = .promote ∧ s.fwd (T.ino n) = none) := by
  by_cases hm : m = n
  · subst hm
    cases hset : (s.name m).pc.settled with
    | false => exact .inr ⟨rfl, becomes_root hs h hset hk.1⟩
    | true =>
      have hkeeps := step_keeps hs h m
      refine .inl ⟨?_, ?_⟩
      · rwa [Kept, ← (hkeeps.settled hset).2.out]
      · refine (hkeeps.started fun hp => ?_).2.1
        simp [hp, Pc.settled, Pc.early] at hset
  · have hth := step_thread h hm
    rw [Kept, hth.loc] at hk
    exact .inl ⟨hk, by rw [hth.loc]⟩

/-- A record that was found would have been that of another source. -/
theorem Records.promote_kept {y : ℕ} (hr : Records T s) (hmax : T.ino n ≠ uint64Max)
    (hpc : (s.name n).pc = .promote) (hf : s.fwd (T.ino n) = none) (hd : (s.name n).loc.destExists = true)
    (h : T.step s n y = some t) (hk : Kept (t.name n)) :
    (s.name n).loc.origShouldTransfer = false ∧ (s.name n).loc.revinfoRef = none := by
  rw [SourceTree.step, hpc] at h
  obtain ⟨⟨r, hr⟩, -⟩ | ⟨-, mismatch, hmis, hroot⟩ := promote_cases h
  · simp [hf] at hr
  have hout : (s.name n).loc.origShouldTransfer = false ∧ mismatch = false := by
    have := hk.2
    rw [hroot.name, Function.update_self] at this
    simpa [rootState] using this
  refine ⟨hout.1, ?_⟩
  cases hq : (s.name n).loc.revinfoRef with
  | none => rfl
  | some q =>
    exfalso
    obtain ⟨x, hrec⟩ := hr.record q (.inr ⟨n, by simp [NameState.holds, hpc, Pc.counting, hq]⟩)
    have hsrc : x.srcInode = T.ino n := by
      simpa [SourceTree.revMismatch, hd, hout, hq, hrec.info] using hmis
    rcases hrec.source with h | h
    · exact hmax (hsrc.symm.trans h)
    · exact h (hsrc ▸ hf)

theorem RevStep.rev_stays {d : ℕ} (h : RevStep T s t n) (hr : Records T s) (hd : s.rev d ≠ none) :
    t.rev d ≠ none := by
  cases h with
  | same hrev => rwa [hrev]
  | counted q x _ _ _ _ hrev => rwa [hrev]
  | made q x _ _ _ _ _ _ _ hrev =>
    rw [hrev, Function.update_apply]
    split
    · simp
    · exact hd
  | last q x hpc hq hx hzero =>
    obtain ⟨hdec, hlt⟩ := hr.not_last hpc hq hx
    omega
  | retire hpc => exact absurd hpc (hr.stays n)

/-- A new root with a linked inode leaves an entry for it. -/
theorem promote_recorded (hf : s.fwd (T.ino n) = none) (h : T.promote s n = some t)
    (hd : (s.name n).loc.destExists = true) (hq : (s.name n).loc.revinfoRef = none)
    (hn : 1 < (s.name n).loc.destStx.stx_nlink) : t.rev (s.name n).found ≠ none := by
  obtain ⟨mismatch, s₁, -, hw, hat, href⟩ := promote_reverse h hf
  rw [← hat.destExists] at hd
  rw [← hat.destStx] at hn
  rw [← href] at hq
  have hfound : (s.name n).found = (s₁.name n).found := by
    rw [NameState.found, NameState.found, hat.destStx]
  cases hw with
  | same _ _ hwhy => exact absurd (hwhy hd hq) (not_le.mpr hn)
  | counted q x _ hq' => simp [hq] at hq'
  | last q x _ hq' => simp [hq] at hq'
  | made _ _ hrev =>
    rw [hrev, hfound, Function.update_self]
    simp

section step
variable {y : ℕ} (hs : Sound T s) (hr : Records T s) (ha : Apart T s)
  (hk : KeepsRoot T s (.run n y)) (hright : ReadsRight T s (.run n y)) (hmax : T.ino n ≠ uint64Max)
  (h : T.step s n y = some t)
include hs hr ha hk hright hmax h

theorem Apart.step_recorded (a : Name) (hkept : Kept (t.name a))
    (hn : 1 < (t.name a).loc.destStx.stx_nlink) : t.rev (t.name a).found ≠ none := by
  have hst := hs.stepCase (hs.step_cases hk h)
  have hrev := HLink.revStep hs hright.1 h
  rcases kept_cases hs h hkept with ⟨hkept', hstx⟩ | ⟨rfl, ⟨-, hn'⟩ | ⟨hpc, hf⟩⟩
  · rw [NameState.found, hstx]
    exact hrev.rev_stays hr (ha.recorded a hkept' (hstx ▸ hn))
  · omega
  · obtain ⟨-, hstx, hex⟩ := (step_keeps hs h a).started (by simp [hpc])
    have hd : (s.name a).loc.destExists = true :=
      hex ▸ (hkept.found ((hst.group _).names a rfl)).1
    obtain ⟨-, hq⟩ := hr.promote_kept hmax hpc hf hd h hkept
    rw [SourceTree.step, hpc] at h
    rw [NameState.found, hstx]
    exact promote_recorded hf h hd hq (hstx ▸ hn)

theorem Apart.step_sole (a : Name) (hat : T.atHome a (t.name a) = true)
    (hp : (t.name a).pc ≠ .start) (hd : (t.name a).loc.destExists = true)
    (hn : (t.name a).loc.destStx.stx_nlink ≤ 1) (b : Name)
    (hb : (t.name b).dst = some (t.name a).found) : T.ino b = T.ino a := by
  by_cases hpc : (s.name a).pc = .start
  · have han : a = n := by
      by_contra hne
      exact hp ((step_thread h hne).pc.trans hpc)
    subst han
    rw [SourceTree.step, hpc] at h
    obtain rfl := Option.some.inj h
    rw [start_dst] at hb
    exact congrArg T.ino (start_alone hd hn hb)
  · have hok := (hs.group _).names a rfl
    have hkeeps := step_keeps hs h a
    obtain ⟨-, hstx, hex⟩ := hkeeps.started hpc
    have hat' := hkeeps.atHome hok hat hpc
    rw [NameState.found, hstx] at hb
    rw [hex] at hd
    rw [hstx] at hn
    rcases (hs.step_cases hk h).dst hb with ⟨k, hino, hdst⟩ | htmp
    · rw [← hino]
      exact ha.sole a hat' hpc hd hn k hdst
    · refine absurd ?_ (hs.fresh.unused b _ htmp a)
      rw [hok.home hat', Local.home, if_pos hd]

/-- No root of another source has kept the inode of a new root that is left alone. -/
theorem Apart.newcomer (hnew : (s.name n).pc = .start ∧ (t.name n).loc.destStx.stx_nlink ≤ 1 ∨
      (s.name n).pc = .promote ∧ s.fwd (T.ino n) = none) (hkept : Kept (t.name n)) {b : Name}
    (hb : Kept (s.name b)) (hfound : (s.name b).found = (t.name n).found) : T.ino b = T.ino n := by
  have hst := hs.stepCase (hs.step_cases hk h)
  have hokb := (hs.group _).names b rfl
  obtain ⟨hdb, hdstb⟩ := hb.found hokb
  have hdn := (hkept.found ((hst.group _).names n rfl)).1
  rcases hnew with ⟨hpc, hn⟩ | ⟨hpc, hf⟩
  · rw [SourceTree.step, hpc] at h
    obtain rfl := Option.some.inj h
    exact congrArg T.ino (start_alone hdn hn (hfound ▸ hdstb))
  · obtain ⟨-, hstx, hex⟩ := (step_keeps hs h n).started (by simp [hpc])
    have hd : (s.name n).loc.destExists = true := hex ▸ hdn
    obtain ⟨horig, hq⟩ := hr.promote_kept hmax hpc hf hd h hkept
    have hfn : (s.name b).found = (s.name n).found := by
      rw [hfound, NameState.found, NameState.found, hstx]
    by_cases hlink : 1 < (s.name b).loc.destStx.stx_nlink
    · refine absurd ?_ (ha.recorded b hb hlink)
      rw [hfn]
      exact hright.2 hpc hf hd horig hq
    · have hhome : (s.name n).dst = some (s.name b).found := by
        have := ((hs.group _).names n rfl).home (by simp [SourceTree.atHome, hpc])
        rw [this, Local.home, if_pos hd, hfn, NameState.found]
      exact (ha.sole b hb.atHome (hokb.ne_start hb.1) hdb (not_lt.mp hlink) n hhome).symm

theorem Apart.step : Apart T t where
  recorded a := ha.step_recorded hs hr hk hright hmax h a
  sole a := ha.step_sole hs hr hk hright hmax h a
  apart a b hka hkb hfound := by
    have hfind (m) (hstx : (t.name m).loc.destStx = (s.name m).loc.destStx) :
        (t.name m).found = (s.name m).found := by rw [NameState.found, hstx, NameState.found]
    rcases kept_cases hs h hka with ⟨hka', ha'⟩ | ⟨rfl, hnew⟩
    · rcases kept_cases hs h hkb with ⟨hkb', hb'⟩ | ⟨rfl, hnew⟩
      · exact ha.apart a b hka' hkb' (by rw [← hfind a ha', ← hfind b hb', hfound])
      · exact ha.newcomer hs hr hk hright hmax h hnew hkb hka' (by rw [← hfind a ha', hfound])
    · rcases kept_cases hs h hkb with ⟨hkb', hb'⟩ | ⟨rfl, -⟩
      · exact (ha.newcomer hs hr hk hright hmax h hnew hka hkb' (by rw [← hfind b hb', hfound])).symm
      · rfl

end step

theorem Apart.init {dst : Name → Option ℕ} :
    Apart T ({ name := fun n => { dst := dst n } } : State Name) where
  recorded a h := by simp [Kept] at h
  sole a _ hp := absurd rfl hp
  apart a b h := by simp [Kept] at h

theorem Apart.congr (ha : Apart T s) (hname : t.name = s.name) (hrev : t.rev = s.rev) : Apart T t := by
  constructor <;> rw [hname]
  · rw [hrev]
    exact ha.recorded
  · exact ha.sole
  · exact ha.apart

structure KeptApart (T : SourceTree Name) (s : State Name) : Prop where
  sound : Sound T s
  records : Records T s
  apart : Apart T s

def ReadsTables (T : SourceTree Name) (s : State Name) (op : Op Name) : Prop :=
  Faultless op ∧ KeepsRoot T s op ∧ ReadsRight T s op

theorem KeptApart.next {op : Op Name} (hmax : ∀ n, T.ino n ≠ uint64Max) (hs : KeptApart T s)
    (hc : ReadsTables T s op) (h : T.next s op = some t) : KeptApart T t := by
  obtain ⟨hf, hk, hright⟩ := hc
  refine ⟨hs.sound.next hf hk h, hs.records.next hs.sound hf hk ?_ h, ?_⟩
  · rintro n y rfl
    exact hright.1
  · cases op with
    | run n y => exact hs.apart.step hs.sound hs.records hk hright (hmax n) h
    | fail n fate => exact hf.elim
    | reuseInfo r x =>
      obtain ⟨-, h⟩ := Option.ite_none_right_eq_some.mp h
      obtain rfl := Option.some.inj h
      exact hs.apart.congr rfl rfl
    | reuseRevinfo q x =>
      obtain ⟨-, h⟩ := Option.ite_none_right_eq_some.mp h
      obtain rfl := Option.some.inj h
      exact hs.apart.congr rfl rfl

theorem KeptApart.reach (hmax : ∀ n, T.ino n ≠ uint64Max) (h : T.system.Reach (ReadsTables T) s) :
    KeptApart T s := by
  refine h.invariant ?_ fun s op t hs hc hn => hs.next hmax hc hn
  rintro s ⟨dst, rfl⟩
  exact ⟨.init, .init, .init⟩

/-- Regular files that are different files in the source are different files in the
destination. -/
def FilesApart (T : SourceTree Name) (s : State Name) : Prop :=
  ∀ a b, T.ino a ≠ T.ino b → isReg (T.stx a).stx_mode = true → isReg (T.stx b).stx_mode = true →
    ∀ y, (s.name a).dst = some y → (s.name b).dst ≠ some y

/-- A name that has been processed has the inode of a root. -/
theorem Sound.root_of (hs : Sound T s) (hend : s.Ended) (hc : T.copied n = true) :
    ∃ r, T.stx r = T.stx n ∧ (s.name r).loc.out.firstLook = true ∧ (s.name r).dst = (s.name n).dst := by
  cases hf : s.fwd (T.ino n) with
  | none =>
    rcases (hs.group _).unregistered hf n rfl with he | ⟨-, hfl, -⟩
    · rw [hend n] at he
      cases he
    · exact ⟨n, rfl, hfl, rfl⟩
  | some r =>
    obtain ⟨x, hx, hreg⟩ := (hs.group _).registered r hf
    have hstx : T.stx n = T.stx x.remote := T.same_inode _ _ hreg.ino_root.symm
    refine ⟨x.remote, hstx.symm, hreg.root.firstLook, ?_⟩
    by_cases hn : n = x.remote
    · rw [hn]
    · have hlink := one_lt_nlink hn hreg.ino_root.symm
      have htr := hreg.transferred hend (by rwa [SourceTree.copied, ← hstx]) (hstx ▸ hlink)
      rw [(hreg.root.transferred htr).2, hreg.joined hend hc hlink]

theorem KeptApart.filesApart (hs : KeptApart T s) (hend : s.Ended) : FilesApart T s := by
  intro a b hab ha hb y hya hyb
  have hcopied (m) (hm : isReg (T.stx m).stx_mode = true) : T.copied m = true := by
    simp [SourceTree.copied, hm]
  obtain ⟨r, hr, hrfl, hrdst⟩ := hs.sound.root_of hend (hcopied a ha)
  obtain ⟨k, hk, hkfl, hkdst⟩ := hs.sound.root_of hend (hcopied b hb)
  have hne : T.ino r ≠ T.ino k := by
    rw [SourceTree.ino, SourceTree.ino, hr, hk]
    exact hab
  have hsame : (s.name r).dst = (s.name k).dst := by rw [hrdst, hkdst, hya, hyb]
  have hbefore (m) : (s.name m).pc.before = false := by rw [hend m]; rfl
  cases hrr : T.replaces r (s.name r) with
  | true => exact hne (hs.sound.fresh.replaced r hrr hrfl (hbefore r) k hsame.symm).1.symm
  | false =>
    cases hrk : T.replaces k (s.name k) with
    | true => exact hne (hs.sound.fresh.replaced k hrk hkfl (hbefore k) r hsame).1
    | false =>
      have hcr : T.copied r = true := hcopied r (by rwa [hr])
      have hck : T.copied k = true := hcopied k (by rwa [hk])
      have hkr : Kept (s.name r) := ⟨hrfl, by simpa [SourceTree.replaces, hcr] using hrr⟩
      have hkk : Kept (s.name k) := ⟨hkfl, by simpa [SourceTree.replaces, hck] using hrk⟩
      have hfr := (hkr.found ((hs.sound.group _).names r rfl)).2
      have hfk := (hkk.found ((hs.sound.group _).names k rfl)).2
      rw [hfr, hfk] at hsame
      exact hne (hs.apart.apart r k hkr hkk (Option.some.inj hsame))

/-- In every run in which no name is compared with a root that is still to be replaced, and
the reverse table is read right, distinct files end up distinct. -/
theorem distinct_files_apart (T : SourceTree Name) (hmax : ∀ n, T.ino n ≠ uint64Max)
    (h : T.system.Reach (ReadsTables T) s) (hend : s.Ended) : FilesApart T s :=
  (KeptApart.reach hmax h).filesApart hend

def readsTables (T : SourceTree Name) (s : State Name) (op : Op Name) : Bool :=
  keepsRoot T s op && match op with
  | .run n _ =>
    let v := s.name n
    (v.pc != .revPromote || (s.rev (T.ino n)).isNone) &&
      (v.pc != .promote || (s.fwd (T.ino n)).isSome || !v.loc.destExists ||
        v.loc.origShouldTransfer || v.loc.revinfoRef.isSome || (s.rev v.found).isNone)
  | _ => true

theorem readsTables_sound {op : Op Name} (h : readsTables T s op = true) : ReadsTables T s op := by
  cases op with
  | run n y =>
    rw [readsTables, Bool.and_eq_true, Bool.and_eq_true] at h
    obtain ⟨hf, hk⟩ := keepsRoot_sound h.1
    refine ⟨hf, hk, fun hpc => ?_, fun hpc hfwd hd horig hq => ?_⟩
    · simpa [hpc] using h.2.1
    · simpa [hpc, hfwd, hd, horig, hq] using h.2.2
  | fail n fate => cases h
  | reuseInfo r x => exact ⟨trivial, trivial, trivial⟩
  | reuseRevinfo q x => exact ⟨trivial, trivial, trivial⟩

/-- Names 0 and 1 share a destination inode with name 2. Name 2 claims it, the root 0 is
replaced, and then name 1 is linked to it. -/
def claimRun : List (Op (Fin 3)) :=
  List.replicate 5 (.run 2 0) ++ List.replicate 3 (.run 0 0) ++ .run 0 11 ::
    List.replicate 3 (.run 0 0) ++ List.replicate 6 (.run 1 0)

theorem distinct_files_apart_sample : ∃ s, sampleTree.system.Reach (ReadsTables sampleTree) s ∧
    s.Ended ∧ FilesApart sampleTree s := by
  have hrun : ((sampleTree.system.exec (readsTables sampleTree) sharedStart claimRun).any fun s =>
      decide (∀ n, (s.name n).pc = .done)) = true := by decide +kernel
  obtain ⟨s, hs, hend⟩ := (Option.any_eq_true _ _).mp hrun
  rw [decide_eq_true_eq] at hend
  have hreach : sampleTree.system.Reach (ReadsTables sampleTree) s :=
    ⟨sharedStart, ⟨fun _ => some 10, rfl⟩, .of_exec _ (fun _ _ _ h => readsTables_sound h) hs⟩
  exact ⟨s, hreach, hend, distinct_files_apart sampleTree (by decide) hreach hend⟩

/-- Name 1 keeps the inode that name 2 has claimed. -/
theorem distinct_files_shared : ¬ ∀ s, sampleTree.system.Reach (fun _ op => Faultless op) s →
    s.Ended → FilesApart sampleTree s := by
  intro h
  obtain ⟨s, hs, hend, -, h1, h2⟩ := sharedRun_end
  exact h s hs hend 1 2 (by decide) (by decide) (by decide) 10 h1 h2

end Copy2.HLink
