import Copy2.References.State

/-! # Who holds a directory

As long as a directory is open its count is the number of its holders. The last of them
queues the finish job, once; the job closes the directory, once. -/
namespace Copy2.References
open Lib HLink

set_option linter.unusedSectionVars false

variable {Name Dir : Type} [Fintype Name] [DecidableEq Name] [Fintype Dir] [DecidableEq Dir]
variable {L : Layout Name Dir} {s t : State Name Dir} {n : Name} {d : Dir} {f : FDRC} {k : ℕ}

/-- What the count and the flag say, when `k` references are held beside that of the finish job. -/
inductive Phase (seen : Bool) (f : FDRC) (k : ℕ) : Prop
  | unseen (hseen : seen = false) (hf : f = {}) (hk : k = 0)
  | opened (hseen : seen = true) (hf : f = { rc := k, dst := true }) (hk : 0 < k)
  | last (hseen : seen = true) (hf : f = { rc := 1, queued := 1 }) (hk : k = 0)
  | closed (hseen : seen = true) (hf : f = { finished := 1, closed := 1 }) (hk : k = 0)

section phase
variable {seen : Bool}

theorem Phase.incref (h : Phase seen f k) (hk : 0 < k) (j : ℕ) :
    Phase seen (f.incref j) (k + j) := by
  cases h with
  | opened hseen hf _ => exact .opened hseen (by rw [hf]; rfl) (by omega)
  | unseen _ _ h => omega
  | last _ _ h => omega
  | closed _ _ h => omega

theorem Phase.release (h : Phase seen f (k + 1)) : Phase seen f.release k := by
  cases h with
  | opened hseen hf _ =>
    subst hf
    cases k with
    | zero => exact .last hseen rfl rfl
    | succ k => exact .opened hseen rfl (Nat.succ_pos k)
  | unseen _ _ h => omega
  | last _ _ h => omega
  | closed _ _ h => omega

theorem Phase.releases {j : ℕ} (h : Phase seen f (k + j)) :
    Phase seen (FDRC.release^[j] f) k := by
  induction j generalizing f with
  | zero => exact h
  | succ j ih => exact ih (Phase.release h)

theorem Phase.finish (h : Phase seen f k) (hq : 0 < f.queued) : Phase seen f.finish k := by
  cases h with
  | last hseen hf hk =>
    subst hf
    exact .closed hseen rfl hk
  | opened _ hf _ => simp [hf] at hq
  | unseen _ hf _ => simp [hf] at hq
  | closed _ hf _ => simp [hf] at hq

end phase

/-- What one name holds of its directory: its task or its job, and its entry on a list. -/
def hold (s : State Name Dir) (n : Name) : ℕ :=
  (s.task n == .running && !(s.names.name n).pc.ended).toNat +
    ((s.names.name n).tally.dirTaken - (s.names.name n).tally.dirReleased)

def guard (s : State Name Dir) (d : Dir) : ℕ := (s.pc d == .crawling).toNat

def child (L : Layout Name Dir) (s : State Name Dir) (d c : Dir) : ℕ :=
  (decide (L.parent c = some d) && (s.pc c).busy).toNat

def Layout.holders (L : Layout Name Dir) (s : State Name Dir) (d : Dir) : ℕ :=
  guard s d + L.sumIn d (hold s) + ∑ c, child L s d c

theorem sumIn_of_one {g h : Name → ℕ} (hgh : ∀ m ≠ n, h m = g m) :
    L.sumIn d h + (if L.dir n = d then g n else 0) =
      L.sumIn d g + (if L.dir n = d then h n else 0) :=
  sum_add_of_one (f := fun m => if L.dir m = d then g m else 0) n fun m hm => by rw [hgh m hm]

theorem sumIn_add {g h : Name → ℕ} : L.sumIn d g + L.sumIn d h = L.sumIn d fun n => g n + h n := by
  rw [Layout.sumIn, Layout.sumIn, ← Finset.sum_add_distrib]
  refine Finset.sum_congr rfl fun n _ => ?_
  split <;> rfl

theorem sumIn_pos {g : Name → ℕ} (h : 0 < L.sumIn d g) : ∃ n, L.dir n = d ∧ 0 < g n := by
  obtain ⟨n, -, hn⟩ := Finset.exists_ne_zero_of_sum_ne_zero h.ne'
  obtain ⟨hd, hn⟩ : L.dir n = d ∧ g n ≠ 0 := by simpa using hn
  exact ⟨n, hd, Nat.pos_of_ne_zero hn⟩

theorem le_sumIn (g : Name → ℕ) (hd : L.dir n = d) : g n ≤ L.sumIn d g := by
  have := Finset.single_le_sum (f := fun m => if L.dir m = d then g m else 0)
    (fun _ _ => Nat.zero_le _) (Finset.mem_univ n)
  simpa [Layout.sumIn, hd] using this

/-- One name has gone on by itself. -/
theorem holders_of_name (hpc : t.pc = s.pc) (hhold : ∀ m ≠ n, hold t m = hold s m) :
    L.holders t d + (if L.dir n = d then hold s n else 0) =
      L.holders s d + (if L.dir n = d then hold t n else 0) := by
  have hsum := sumIn_of_one (L := L) (d := d) hhold
  have hguard : guard t d = guard s d := by rw [guard, hpc]; rfl
  have hchild : ∀ c, child L t d c = child L s d c := fun c => by rw [child, hpc]; rfl
  simp only [Layout.holders, hguard, hchild]
  omega

/-- One directory has gone on. -/
theorem holders_of_dir {e : Dir} (hhold : ∀ m, hold t m = hold s m)
    (hpc : ∀ c ≠ e, t.pc c = s.pc c) :
    L.holders t d + (if d = e then guard s e else 0) + child L s d e =
      L.holders s d + (if d = e then guard t e else 0) + child L t d e := by
  have hsum : ∑ c, child L t d c + child L s d e = ∑ c, child L s d c + child L t d e :=
    sum_add_of_one e fun c hc => by rw [child, hpc c hc]; rfl
  have hin : L.sumIn d (hold t) = L.sumIn d (hold s) := by rw [funext hhold]
  have hguard : guard t d + (if d = e then guard s e else 0) =
      guard s d + (if d = e then guard t e else 0) := by
    by_cases hd : d = e
    · rw [if_pos hd, if_pos hd, hd, add_comm]
    · rw [if_neg hd, if_neg hd, guard, hpc d hd]
      rfl
  simp only [Layout.holders, hin]
  omega

/-- The condition on the steps: no root ends unhandled while others wait for it, or are going to,
and no list is drained twice. -/
def KeepsRefs (L : Layout Name Dir) (s : State Name Dir) : Act Name Dir → Prop
  | .name op => NoneStrands L.tree s.names op ∧ DrainsOnce s.names op
  | _ => True

structure Held (L : Layout Name Dir) (s : State Name Dir) : Prop where
  orderly : Orderly L.tree s.names
  refs : Refs s.names
  idle : ∀ n, s.task n ≠ .running → (s.names.name n).pc = .start
  phase : ∀ d, Phase (s.pc d).seen (s.fdrc d) (L.holders s d)

theorem Held.init {dst : Name → Option ℕ} :
    Held L ({ names := { name := fun n => { dst := dst n } } } : State Name Dir) where
  orderly := ⟨.init, fun _ => ⟨by simp, by simp, by simp⟩, by simp⟩
  refs := .init
  idle _ _ := rfl
  phase d := by
    refine .unseen rfl rfl ?_
    simp [Layout.holders, guard, Layout.sumIn, hold, child, DirPc.busy]

/-- The names have not gone on. -/
theorem Held.dirs (h : Held L s) (hnames : t.names = s.names)
    (hidle : ∀ n, t.task n ≠ .running → (s.names.name n).pc = .start)
    (hphase : ∀ d, Phase (t.pc d).seen (t.fdrc d) (L.holders t d)) : Held L t where
  orderly := by rw [hnames]; exact h.orderly
  refs := by rw [hnames]; exact h.refs
  idle := by rw [hnames]; exact hidle
  phase := hphase

structure Charged (s : State Name Dir) (t : HLink.State Name) : Prop where
  ahead : ∀ m, Ahead (s.names.name m) (t.name m)
  taken : ∀ m, (s.names.name m).tally.dirTaken < (t.name m).tally.dirTaken →
    s.task m = .running ∧ (s.names.name m).pc.ended = false
  ended : ∀ m, s.task m ≠ .running → (t.name m).pc = (s.names.name m).pc

theorem charged_of_share {failed : Prop} {t : HLink.State Name} (hrun : s.task n = .running)
    (hend : (s.names.name n).pc.ended = false)
    (h : ShareStep L.tree s.names t n failed) : Charged s t where
  ahead m := (h.ahead hend m).1
  taken m hlt := by
    by_cases hm : m = n
    · exact hm ▸ ⟨hrun, hend⟩
    · have := ((h.ahead hend m).2 hm).taken
      omega
  ended m hm := ((h.ahead hend m).2 fun he => hm (he ▸ hrun)).pc

theorem charged_of_same {t : HLink.State Name} (h : t.name = s.names.name) : Charged s t where
  ahead m := by rw [h]; exact ⟨le_rfl, le_rfl, id⟩
  taken m hlt := by rw [h] at hlt; omega
  ended m _ := by rw [h]

theorem Held.charged {op : Op Name} {t : HLink.State Name} (h : Held L s)
    (hg : NoneStrands L.tree s.names op) (hrun : s.mayRun op = true)
    (hn : L.tree.next s.names op = some t) : Charged s t := by
  cases op with
  | run n y =>
    exact charged_of_share (by simpa [State.mayRun] using hrun) (running_of_step hn)
      (share_of_step h.orderly hg.1 hn)
  | fail n fate =>
    exact charged_of_share (by simpa [State.mayRun] using hrun) (running_of_stepFails hn)
      (share_of_stepFails h.orderly hn)
  | reuseInfo r x => exact charged_of_same (sameLists_of_reuse h.orderly hn).1
  | reuseRevinfo q x => exact charged_of_same (sameLists_of_reuseRev hn).1

/-- What a name holds after the step, and what it gives back, is what it held and takes. -/
theorem Charged.balance {u : HLink.State Name} (hc : Charged s u) (hr : Refs s.names)
    (hr' : Refs u) (m : Name) :
    hold { s with names := u } m + Layout.gives (s.names.name m) (u.name m) =
      hold s m + Layout.takes (s.names.name m) (u.name m) := by
  have hle := hr.released_le m
  have hle' := hr'.released_le m
  obtain ⟨htaken, hreleased, hended⟩ := hc.ahead m
  have hrun : (s.task m == .running && !(u.name m).pc.ended).toNat +
      ((u.name m).pc.ended && !(s.names.name m).pc.ended).toNat =
      (s.task m == .running && !(s.names.name m).pc.ended).toNat := by
    by_cases ht : s.task m = .running
    · cases he : (s.names.name m).pc.ended with
      | false => cases (u.name m).pc.ended <;> simp [ht]
      | true => simp [hended he]
    · rw [hc.ended m ht]
      simp
  simp only [hold, Layout.gives, Layout.takes]
  omega

theorem Held.name {op : Op Name} {u : HLink.State Name} (h : Held L s)
    (hg : KeepsRefs L s (.name op)) (hrun : s.mayRun op = true)
    (hn : L.tree.next s.names op = some u) :
    Held L { s with names := u, fdrc := L.charge s u } := by
  have hc := h.charged hg.1 hrun hn
  have hr' := h.refs.next h.orderly hg.1 hg.2 hn
  refine ⟨h.orderly.next hg.1 hn, hr', fun m hm => ?_, fun d => ?_⟩
  · exact (hc.ended m hm).trans (h.idle m hm)
  · have hsum : L.sumIn d (hold { s with names := u }) +
        (L.sumIn d fun m => Layout.gives (s.names.name m) (u.name m)) =
        L.sumIn d (hold s) + L.sumIn d fun m => Layout.takes (s.names.name m) (u.name m) := by
      rw [sumIn_add, sumIn_add]
      exact congrArg _ (funext fun m => hc.balance h.refs hr' m)
    have hphase := h.phase d
    show Phase (s.pc d).seen (L.charge s u d) _
    refine Phase.releases (j := L.sumIn d fun m => Layout.gives (s.names.name m) (u.name m)) ?_
    have hk : L.holders { s with names := u, fdrc := L.charge s u } d +
        (L.sumIn d fun m => Layout.gives (s.names.name m) (u.name m)) =
        L.holders s d + L.sumIn d fun m => Layout.takes (s.names.name m) (u.name m) := by
      simp only [Layout.holders]
      have hin : L.sumIn d (hold { s with names := u, fdrc := L.charge s u }) =
        L.sumIn d (hold { s with names := u }) := rfl
      rw [hin]
      simp only [guard, child]
      omega
    rw [hk]
    rcases Nat.eq_zero_or_pos (L.sumIn d fun m => Layout.takes (s.names.name m) (u.name m)) with
      hz | hpos
    · rw [hz]
      exact hphase
    · -- whoever takes a reference is a holder already
      obtain ⟨m, hd, hm⟩ := sumIn_pos hpos
      obtain ⟨hrun, hend⟩ := hc.taken m (Nat.sub_pos_iff_lt.mp hm)
      have hhold : 0 < hold s m := by simp [hold, hrun, hend]
      have hin := le_sumIn (L := L) (hold s) hd
      exact hphase.incref (by simp only [Layout.holders]; omega) _

/-- The task of a name has been made, or has failed at once. -/
theorem holders_of_task {x : Task} {g : Dir → FDRC} (hpc : (s.names.name n).pc = .start) :
    L.holders { s with task := Function.update s.task n x, fdrc := g } d +
        (if L.dir n = d then (s.task n == .running).toNat else 0) =
      L.holders s d + if L.dir n = d then (x == .running).toNat else 0 := by
  have hsum := holders_of_name (L := L) (s := s) (d := d) (n := n)
    (t := { s with task := Function.update s.task n x, fdrc := g }) rfl fun m hm => by
      simp only [hold, Function.update_of_ne hm]
  have hs : hold s n = (s.task n == .running).toNat +
      ((s.names.name n).tally.dirTaken - (s.names.name n).tally.dirReleased) := by
    simp [hold, hpc, Pc.ended]
  have ht : hold { s with task := Function.update s.task n x, fdrc := g } n =
      (x == .running).toNat +
        ((s.names.name n).tally.dirTaken - (s.names.name n).tally.dirReleased) := by
    simp [hold, hpc, Pc.ended]
  rw [hs, ht] at hsum
  by_cases hd : L.dir n = d
  · simp only [if_pos hd] at hsum ⊢
    omega
  · simpa only [if_neg hd] using hsum

/-- The task of a name, and the record of its directory, have gone on. -/
theorem Held.task {x : Task} {f : FDRC} (h : Held L s) (hstart : (s.names.name n).pc = .start)
    (hself : ∀ k, k + (s.task n == .running).toNat =
      L.holders s (L.dir n) + (x == .running).toNat → Phase (s.pc (L.dir n)).seen f k) :
    Held L { s.put (L.dir n) f with task := Function.update s.task n x } := by
  refine h.dirs rfl (fun m hm => ?_) fun d => ?_
  · by_cases hmn : m = n
    · exact hmn ▸ hstart
    · exact h.idle m (by simpa [hmn] using hm)
  · have hk := holders_of_task (L := L) (x := x) (d := d)
      (g := Function.update s.fdrc (L.dir n) f) hstart
    show Phase _ (Function.update s.fdrc (L.dir n) f d) _
    by_cases hd : d = L.dir n
    · subst hd
      rw [Function.update_self]
      rw [if_pos rfl, if_pos rfl] at hk
      exact hself _ hk
    · rw [Function.update_of_ne hd]
      simp only [if_neg (Ne.symm hd), Nat.add_zero] at hk
      exact hk ▸ h.phase d

theorem Held.spawnName (h : Held L s) (hpc : s.pc (L.dir n) = .crawling)
    (htask : s.task n = .waiting) :
    Held L { s.put (L.dir n) ((s.fdrc (L.dir n)).incref 1) with
      task := Function.update s.task n .running } := by
  refine h.task (h.idle n (by simp [htask])) fun k hk => ?_
  obtain rfl : k = L.holders s (L.dir n) + 1 := by rw [htask] at hk; exact hk
  exact (h.phase _).incref (by simp [Layout.holders, guard, hpc]) 1

theorem Held.failName (h : Held L s) (htask : s.task n = .running)
    (hstart : (s.names.name n).pc = .start) :
    Held L { s.put (L.dir n) (s.fdrc (L.dir n)).release with
      task := Function.update s.task n .failed } := by
  refine h.task hstart fun k hk => Phase.release ?_
  obtain hk : k + 1 = L.holders s (L.dir n) := by rw [htask] at hk; exact hk
  exact hk ▸ h.phase _

/-! A directory goes on: its own record sees whether it is being read, that of its parent whether
it is under way. -/
section dir
variable {e : Dir} {p : DirPc} {g : Dir → FDRC}

theorem Held.dir (h : Held L s)
    (hself : ∀ k, k + (s.pc e == .crawling).toNat = L.holders s e + (p == .crawling).toNat →
      Phase p.seen (g e) k)
    (hparent : ∀ q, L.parent e = some q → ∀ k, k + (s.pc e).busy.toNat =
      L.holders s q + p.busy.toNat → Phase (s.pc q).seen (g q) k)
    (hother : ∀ d ≠ e, L.parent e ≠ some d → g d = s.fdrc d) :
    Held L { s with pc := Function.update s.pc e p, fdrc := g } := by
  refine h.dirs rfl h.idle fun d => ?_
  have hk := holders_of_dir (L := L) (s := s) (d := d) (e := e)
    (t := { s with pc := Function.update s.pc e p, fdrc := g }) (fun _ => rfl) fun c hc => by
      simp only [Function.update_of_ne hc]
  simp only [guard, child, Function.update_self] at hk
  show Phase (Function.update s.pc e p d).seen (g d) _
  by_cases hd : d = e
  · subst hd
    have hne : ¬ L.parent d = some d := L.parent_ne d
    rw [Function.update_self]
    exact hself _ (by simpa [hne] using hk)
  · rw [Function.update_of_ne hd]
    by_cases hp : L.parent e = some d
    · exact hparent d hp _ (by simpa [hp, hd] using hk)
    · rw [hother d hd hp]
      have hk : L.holders { s with pc := Function.update s.pc e p, fdrc := g } d =
          L.holders s d := by simpa [hp, hd] using hk
      exact hk ▸ h.phase d

theorem Held.spawnDir (h : Held L s) (hpc : s.pc e = .waiting)
    (hparent : ∀ q, L.parent e = some q → s.pc q = .crawling) :
    Held L { L.parentDo s e (·.incref 1) with pc := Function.update s.pc e .spawned } := by
  have hwait : ∀ k, k + (s.pc e == .crawling).toNat = L.holders s e + 0 →
      Phase false (s.fdrc e) k := fun k hk => by
    rw [hpc] at hk
    obtain rfl : k = L.holders s e := hk
    have hphase := h.phase e
    rwa [hpc] at hphase
  rw [Layout.parentDo]
  cases hq : L.parent e with
  | none => exact h.dir hwait (by simp [hq]) fun _ _ _ => rfl
  | some q =>
    have hqe : e ≠ q := fun he => L.parent_ne e (he ▸ hq)
    refine h.dir (fun k hk => ?_) (fun q' hq' k hk => ?_) fun d _ hd => ?_
    · show Phase _ (Function.update s.fdrc q _ e) k
      rw [Function.update_of_ne hqe]
      exact hwait k hk
    · obtain rfl := Option.some.inj (hq.symm.trans hq')
      rw [hpc] at hk
      obtain rfl : k = L.holders s q + 1 := hk
      show Phase _ (Function.update s.fdrc q _ q) _
      rw [Function.update_self]
      exact (h.phase q).incref (by simp [Layout.holders, guard, hparent q hq]) 1
    · show Function.update s.fdrc q _ d = _
      rw [Function.update_of_ne fun he : d = q => hd (he ▸ hq)]

theorem Held.openDir (h : Held L s) (hpc : s.pc e = .spawned) :
    Held L { s.put e (s.fdrc e).opened with pc := Function.update s.pc e .crawling } := by
  refine h.dir (fun k hk => ?_) (fun q hq k hk => ?_) fun d hd _ => Function.update_of_ne hd _ _
  · rw [hpc] at hk
    obtain rfl : k = L.holders s e + 1 := hk
    show Phase _ (Function.update s.fdrc e _ e) _
    rw [Function.update_self]
    have hphase := h.phase e
    rw [hpc] at hphase
    cases hphase with
    | unseen _ hf hk => exact .opened rfl (by rw [hf, hk]; rfl) (Nat.succ_pos _)
    | opened hs _ _ => cases hs
    | last hs _ _ => cases hs
    | closed hs _ _ => cases hs
  · have hqe : q ≠ e := fun he => L.parent_ne e (he ▸ hq)
    rw [hpc] at hk
    obtain rfl : k = L.holders s q := Nat.succ.inj hk
    show Phase _ (Function.update s.fdrc e _ q) _
    rw [Function.update_of_ne hqe]
    exact h.phase q

/-- The task of a directory ends: its parent is given back. -/
theorem Held.leave {f : FDRC} (h : Held L s) (hbusy : (s.pc e).busy = true) (hp : p.busy = false)
    (hself : ∀ k, k + (s.pc e == .crawling).toNat = L.holders s e → Phase p.seen f k) :
    Held L { L.parentDo (s.put e f) e FDRC.release with pc := Function.update s.pc e p } := by
  have hcrawl : (p == .crawling).toNat = 0 := by
    revert hp
    cases p <;> simp [DirPc.busy]
  have hself' : ∀ k, k + (s.pc e == .crawling).toNat = L.holders s e + (p == .crawling).toNat →
      Phase p.seen (Function.update s.fdrc e f e) k := fun k hk => by
    rw [Function.update_self]
    exact hself k (by rw [hk, hcrawl, Nat.add_zero])
  rw [Layout.parentDo]
  cases hq : L.parent e with
  | none => exact h.dir hself' (by simp [hq]) fun d hd _ => Function.update_of_ne hd _ _
  | some q =>
    have hqe : q ≠ e := fun he => L.parent_ne e (he ▸ hq)
    refine h.dir (fun k hk => ?_) (fun q' hq' k hk => ?_) fun d hd hdq => ?_
    · show Phase _ (Function.update (Function.update s.fdrc e f) q _ e) k
      rw [Function.update_of_ne hqe.symm]
      exact hself' k hk
    · obtain rfl := Option.some.inj (hq.symm.trans hq')
      rw [hbusy, hp] at hk
      obtain hk : k + 1 = L.holders s q := hk
      show Phase _ (Function.update (Function.update s.fdrc e f) q
        (Function.update s.fdrc e f q).release q) k
      rw [Function.update_self, Function.update_of_ne hqe]
      exact Phase.release (hk ▸ h.phase q)
    · show Function.update (Function.update s.fdrc e f) q _ d = _
      rw [Function.update_of_ne fun he : d = q => hdq (he ▸ hq), Function.update_of_ne hd]

theorem Held.returnDir (h : Held L s) (hpc : s.pc e = .crawling) :
    Held L { L.parentDo (s.put e (s.fdrc e).release) e FDRC.release with
      pc := Function.update s.pc e .returned } := by
  refine h.leave (by rw [hpc]; rfl) rfl fun k hk => Phase.release ?_
  rw [hpc] at hk
  obtain hk : k + 1 = L.holders s e := hk
  have := h.phase e
  rw [hpc] at this
  exact hk ▸ this

theorem Held.skipDir (h : Held L s) (hpc : s.pc e = .spawned) :
    Held L { L.parentDo s e FDRC.release with pc := Function.update s.pc e .skipped } := by
  have hput : s = s.put e (s.fdrc e) := by rw [State.put, Function.update_eq_self]
  have := h.leave (e := e) (p := .skipped) (f := s.fdrc e) (by rw [hpc]; rfl) rfl fun k hk => by
    rw [hpc] at hk
    obtain rfl : k = L.holders s e := hk
    have := h.phase e
    rwa [hpc] at this
  rwa [← hput] at this

theorem Held.finishDir (h : Held L s) (hq : 0 < (s.fdrc e).queued) :
    Held L (s.put e (s.fdrc e).finish) := by
  refine h.dirs rfl h.idle fun d => ?_
  show Phase _ (Function.update s.fdrc e _ d) (L.holders s d)
  by_cases hd : d = e
  · subst hd
    rw [Function.update_self]
    exact (h.phase d).finish hq
  · rw [Function.update_of_ne hd]
    exact h.phase d

end dir

theorem Held.next {a : Act Name Dir} (h : Held L s) (hg : KeepsRefs L s a)
    (hn : L.next s a = some t) : Held L t := by
  obtain ⟨-, hn⟩ := Option.ite_none_left_eq_some.mp hn
  cases a with
  | name op =>
    obtain ⟨hrun, hn⟩ := Option.ite_none_right_eq_some.mp hn
    obtain ⟨u, hu, rfl⟩ := Option.map_eq_some_iff.mp hn
    exact h.name hg hrun hu
  | spawnName n =>
    obtain ⟨⟨hpc, htask⟩, hn⟩ := Option.ite_none_right_eq_some.mp hn
    obtain rfl := Option.some.inj hn
    exact h.spawnName hpc htask
  | failName n =>
    obtain ⟨⟨htask, hstart⟩, hn⟩ := Option.ite_none_right_eq_some.mp hn
    obtain rfl := Option.some.inj hn
    exact h.failName htask hstart
  | spawnDir d =>
    obtain ⟨⟨hpc, hparent⟩, hn⟩ := Option.ite_none_right_eq_some.mp hn
    obtain rfl := Option.some.inj hn
    exact h.spawnDir hpc hparent
  | openDir d =>
    obtain ⟨hpc, hn⟩ := Option.ite_none_right_eq_some.mp hn
    obtain rfl := Option.some.inj hn
    exact h.openDir hpc
  | skipDir d =>
    obtain ⟨hpc, hn⟩ := Option.ite_none_right_eq_some.mp hn
    obtain rfl := Option.some.inj hn
    exact h.skipDir hpc
  | returnDir d =>
    obtain ⟨⟨hpc, -⟩, hn⟩ := Option.ite_none_right_eq_some.mp hn
    obtain rfl := Option.some.inj hn
    exact h.returnDir hpc
  | finishDir d =>
    obtain ⟨hq, hn⟩ := Option.ite_none_right_eq_some.mp hn
    obtain rfl := Option.some.inj hn
    exact h.finishDir hq
  | stop =>
    obtain ⟨-, hn⟩ := Option.ite_none_right_eq_some.mp hn
    obtain rfl := Option.some.inj hn
    exact h.dirs rfl h.idle h.phase

end Copy2.References
