import Copy2.References.Work

/-! # Is the job of a directory the last thing that happens to it?

Every step works in a directory that somebody holds, or that has not been opened yet. The job
is queued when the last holder has gone, so nothing works in its directory afterwards. -/
namespace Copy2.References
open Lib HLink

set_option linter.unusedSectionVars false

variable {Name Dir : Type} [Fintype Name] [DecidableEq Name] [Fintype Dir] [DecidableEq Dir]
variable {L : Layout Name Dir} {D : Destination Name Dir} {s t : State Name Dir}
variable {n m : Name} {d e : Dir} {f : FDRC} {k : ℕ}

theorem Phase.unheld {seen : Bool} (h : Phase seen f k) (hf : 0 < f.queued + f.finished) :
    k = 0 ∧ seen = true := by
  cases h with
  | unseen _ he _ => simp [he] at hf
  | opened _ he _ => simp [he] at hf
  | last hs _ hk => exact ⟨hk, hs⟩
  | closed hs _ hk => exact ⟨hk, hs⟩

theorem holders_pos_of_hold (h : 0 < hold s n) : 0 < L.holders s (L.dir n) := by
  have := le_sumIn (L := L) (hold s) (n := n) rfl
  rw [Layout.holders]
  omega

theorem child_le_holders (c : Dir) : child L s d c ≤ L.holders s d := by
  have := Finset.single_le_sum (f := child L s d) (fun _ _ => Nat.zero_le _) (Finset.mem_univ c)
  rw [Layout.holders]
  omega

theorem Held.unheld (h : Held L s) (hk : L.holders s d = 0) : Unheld L s d where
  task hpc := by simp [Layout.holders, guard, hpc] at hk
  tasks c hc := by
    have := child_le_holders (L := L) (s := s) (d := d) c
    rw [hk] at this
    simpa [child, hc] using this
  jobs n hn hrun := by
    by_contra hend
    have hpos : 0 < hold s n := by simp [hold, hrun, Bool.not_eq_true _ ▸ hend]
    have := holders_pos_of_hold (L := L) hpos
    rw [hn, hk] at this
    exact lt_irrefl 0 this
  links n hn := by
    have hle := h.refs.released_le n
    by_contra hne
    have hpos : 0 < hold s n := by
      rw [hold]
      omega
    have := holders_pos_of_hold (L := L) hpos
    rw [hn, hk] at this
    exact lt_irrefl 0 this

/-- A name that goes on has a task or a job. -/
theorem hold_of_run {op : Op Name} {u : HLink.State Name} (hop : (∃ y, op = .run n y) ∨
    ∃ fate, op = .fail n fate) (hrun : s.mayRun op = true)
    (hn : L.tree.next s.names op = some u) : 0 < hold s n := by
  have hboth : s.task n = .running ∧ (s.names.name n).pc.ended = false := by
    rcases hop with ⟨y, rfl⟩ | ⟨fate, rfl⟩
    · exact ⟨by simpa [State.mayRun] using hrun, running_of_step hn⟩
    · exact ⟨by simpa [State.mayRun] using hrun, running_of_stepFails hn⟩
  simp [hold, hboth.1, hboth.2]

/-- A name on a list that is drained for the first time has not given back what it took. -/
theorem Held.hold_of_listed {x : HLinkInfo Name} (h : Held L s)
    (hpc : (s.names.name n).pc = .drain) (honce : ¬ DrainsAgain s.names n)
    (hx : s.names.info (s.names.name n).loc.hinfoRef = some x) (hm : m ∈ x.links) :
    0 < hold s m := by
  have hown := h.orderly.tables.own (n := n) (by rw [hpc]; rfl)
  obtain ⟨x', hx', hw⟩ := h.orderly.waiting _ _ hown
  obtain rfl : x = x' := Option.some.inj (hx.symm.trans hx')
  have htr : x.transferred = false := by
    by_contra htr
    exact honce ⟨hpc, x, hx, by simpa using htr, List.ne_nil_of_mem hm⟩
  have hpend : (s.names.name m).pending = true := (hw.links m hm).2
  have htaken := h.refs.taken m
  have hreleased := h.refs.released m
  have hdrained := h.refs.drained _ _ x hown hx m hm
  rw [hpend] at htaken
  rw [htr] at hdrained
  rw [hold, htaken, hreleased, hdrained]
  exact Nat.lt_of_lt_of_le Nat.one_pos (Nat.le_add_left _ _)

/-- The steps of the names work where a name is held. -/
theorem Held.holds_of_opWorks {op : Op Name} {u : HLink.State Name} (h : Held L s)
    (hD : D.Plain) (honce : DrainsOnce s.names op) (hrun : s.mayRun op = true)
    (hn : L.tree.next s.names op = some u) (hw : L.OpWorks D s (.own d) op) :
    ∃ m, L.dir m = d ∧ 0 < hold s m := by
  have own : ∀ m, .own d = D.opened (L.dir m) → L.dir m = d := fun m he => by
    rw [hD.opened] at he
    exact (Place.own.inj he).symm
  have work : ∀ n, ((∃ y, op = .run n y) ∨ ∃ fate, op = .fail n fate) →
      ¬ DrainsAgain s.names n → L.OpWorks D s (.own d) (.run n 0) →
      ∃ m, L.dir m = d ∧ 0 < hold s m := by
    intro n hop honce hw
    have hself := hold_of_run hop hrun hn
    rw [Layout.OpWorks] at hw
    split at hw
    · exact ⟨n, own n hw, hself⟩
    · exact ⟨n, own n hw, hself⟩
    · rcases hw with hw | hw
      · exact ⟨n, own n hw, hself⟩
      · obtain ⟨k, hk⟩ := hD.old n _ hw
        cases hk
    · rename_i hpc
      obtain ⟨x, hx, m, hm, hw⟩ := hw
      exact ⟨m, own m hw, h.hold_of_listed hpc honce hx hm⟩
    · exact hw.elim
  cases op with
  | run n y => exact work n (.inl ⟨y, rfl⟩) honce hw
  | fail n fate => exact work n (.inr ⟨fate, rfl⟩) honce hw
  | reuseInfo r x => exact hw.elim
  | reuseRevinfo q x => exact hw.elim

/-- A directory has a task only when its parent has been opened. -/
def Downward (L : Layout Name Dir) (s : State Name Dir) : Prop :=
  ∀ c p, L.parent c = some p → s.pc c ≠ .waiting → (s.pc p).seen = true

/-- The directories below one that has not been opened have not been opened either. -/
theorem Downward.unseen (h : Downward L s) (hd : (s.pc d).seen = false) (hb : L.Below d e) :
    (s.pc e).seen = false := by
  induction hb with
  | self => exact hd
  | @child c p hp _ ih =>
    have hwait : s.pc c = .waiting := by
      by_contra hne
      rw [h c p hp hne] at ih
      cases ih
    rw [hwait]
    rfl

theorem Downward.update {x : DirPc} {u : State Name Dir} (h : Downward L s)
    (hpc : u.pc = Function.update s.pc e x) (hseen : (s.pc e).seen = true → x.seen = true)
    (hnew : s.pc e ≠ .waiting ∨ ∀ p, L.parent e = some p → s.pc p = .crawling) :
    Downward L u := by
  intro c p hp hc
  have hcs : (s.pc p).seen = true := by
    rw [hpc] at hc
    by_cases hce : c = e
    · subst hce
      rcases hnew with hne | hall
      · exact h c p hp hne
      · rw [hall p hp]
        rfl
    · rw [Function.update_of_ne hce] at hc
      exact h c p hp hc
  rw [hpc]
  by_cases hpe : p = e
  · subst hpe
    rw [Function.update_self]
    exact hseen hcs
  · rwa [Function.update_of_ne hpe]

theorem Downward.next {a : Act Name Dir} (h : Downward L s) (hn : L.next s a = some t) :
    Downward L t := by
  obtain ⟨-, hn⟩ := Option.ite_none_left_eq_some.mp hn
  cases a with
  | name op =>
    obtain ⟨-, hn⟩ := Option.ite_none_right_eq_some.mp hn
    obtain ⟨u, -, rfl⟩ := Option.map_eq_some_iff.mp hn
    exact h
  | spawnDir e =>
    obtain ⟨⟨hpc, hparent⟩, hn⟩ := Option.ite_none_right_eq_some.mp hn
    obtain rfl := Option.some.inj hn
    exact h.update rfl (fun hs => by simp [hpc, DirPc.seen] at hs) (.inr hparent)
  | openDir e =>
    obtain ⟨hpc, hn⟩ := Option.ite_none_right_eq_some.mp hn
    obtain rfl := Option.some.inj hn
    exact h.update rfl (fun _ => rfl) (.inl (by simp [hpc]))
  | skipDir e =>
    obtain ⟨hpc, hn⟩ := Option.ite_none_right_eq_some.mp hn
    obtain rfl := Option.some.inj hn
    exact h.update rfl (fun hs => by simp [hpc, DirPc.seen] at hs) (.inl (by simp [hpc]))
  | returnDir e =>
    obtain ⟨⟨hpc, -⟩, hn⟩ := Option.ite_none_right_eq_some.mp hn
    obtain rfl := Option.some.inj hn
    exact h.update rfl (fun _ => rfl) (.inl (by simp [hpc]))
  | _ =>
    obtain ⟨-, hn⟩ := Option.ite_none_right_eq_some.mp hn
    obtain rfl := Option.some.inj hn
    exact h

structure Orders (L : Layout Name Dir) (s : State Name Dir) : Prop where
  held : Held L s
  downward : Downward L s
  stopped : s.stopped = true → s.quiet ∧ s.queuesEmpty

theorem KeepsLast.keepsRefs {a : Act Name Dir} (h : KeepsLast L s (.act a)) :
    KeepsRefs L s a := by
  cases a with
  | stop => trivial
  | _ => exact h

theorem Orders.next {a : Step Name Dir} (h : Orders L s) (hg : KeepsLast L s a)
    (hn : L.stepNext s a = some t) : Orders L t := by
  cases a with
  | act a =>
    have hrun := (Option.ite_none_left_eq_some.mp hn).1
    refine ⟨h.held.next hg.keepsRefs hn, h.downward.next hn, fun ht => ?_⟩
    have hact := (Option.ite_none_left_eq_some.mp hn).2
    obtain rfl := Layout.act_stopped hact (by simpa using hrun) ht
    obtain ⟨hq, hact⟩ := Option.ite_none_right_eq_some.mp hact
    obtain rfl := Option.some.inj hact
    exact ⟨hq, hg⟩
  | mkdir d =>
    obtain ⟨-, hn⟩ := Option.ite_none_right_eq_some.mp hn
    obtain rfl := Option.some.inj hn
    exact h
  | prune d x =>
    obtain ⟨-, hn⟩ := Option.ite_none_right_eq_some.mp hn
    obtain rfl := Option.some.inj hn
    exact h

theorem Orders.reach (h : L.steps.Reach (KeepsLast L) s) : Orders L s := by
  refine h.invariant ?_ fun s a t ho hg hn => ho.next hg hn
  rintro s ⟨dst, rfl⟩
  exact ⟨.init, fun c p _ hc => absurd rfl hc, by simp⟩

/-- A directory that is pruned has not been opened, nor has any below it. -/
theorem Orders.prunes_unseen {x : Pruned Name Dir} (h : Orders L s) (hD : D.Plain)
    (hg : KeepsLast L s (.prune e x)) (hpc : s.pc e = .spawned)
    (hw : L.Works D s (.own d) (.prune e x)) : (s.pc d).seen = false := by
  have hseen : (s.pc e).seen = false := by rw [hpc]; rfl
  rcases hw with hw | hw
  · rw [hD.opened] at hw
    rwa [Place.own.inj hw]
  · cases x with
    | extra => exact (hw hD).elim
    | name n => exact (hw hD).elim
    | dir c =>
      obtain ⟨hc, hb⟩ := hw hD
      refine h.downward.unseen (d := c) ?_ hb
      exact h.downward.unseen hseen (.child hc .self)
    | dot => exact h.downward.unseen hseen (hw hD)
    | dotDot => exact absurd rfl hg.1
    | stale => exact absurd rfl hg.2

/-- Nothing works in a directory that has been opened and is held by nobody. -/
theorem Orders.not_works {a : Step Name Dir} (h : Orders L s) (hD : D.Plain)
    (hseen : (s.pc d).seen = true) (hk : L.holders s d = 0) (hn : L.stepNext s a = some t)
    (hg : KeepsLast L s a) : ¬ L.Works D s (.own d) a := by
  intro hw
  cases a with
  | act a =>
    cases a with
    | name op =>
      obtain ⟨-, hn⟩ := Option.ite_none_left_eq_some.mp hn
      obtain ⟨hrun, hn⟩ := Option.ite_none_right_eq_some.mp hn
      obtain ⟨u, hu, -⟩ := Option.map_eq_some_iff.mp hn
      obtain ⟨m, rfl, hm⟩ := h.held.holds_of_opWorks hD hg.2 hrun hu hw
      have := holders_pos_of_hold (L := L) hm
      omega
    | _ => exact hw.elim
  | mkdir e =>
    obtain ⟨⟨-, hpc⟩, -⟩ := Option.ite_none_right_eq_some.mp hn
    obtain ⟨q, hq, hw⟩ := hw
    rw [hD.opened] at hw
    obtain rfl := Place.own.inj hw
    have := (h.held.unheld hk).tasks e hq
    simp [hpc, DirPc.busy] at this
  | prune e x =>
    obtain ⟨⟨-, hpc⟩, -⟩ := Option.ite_none_right_eq_some.mp hn
    have := h.prunes_unseen hD hg hpc hw
    simp [this] at hseen

theorem Phase.counts {seen : Bool} (h : Phase seen f k) :
    f.queued + f.finished ≤ 1 ∧ f.closed = f.finished := by
  cases h with
  | unseen _ he _ | opened _ he _ | last _ he _ | closed _ he _ => simp [he]

def plainDest : Destination (Fin 3) Unit where
  opened := .own
  old _ := []

theorem plainDest_plain : plainDest.Plain := ⟨fun _ => rfl, by simp [plainDest]⟩

def keepsLast (s : State (Fin 3) Unit) : Step (Fin 3) Unit → Bool
  | .act (.name op) => noneStrands s.names op && accountsAll (flat sampleTree) s (.name op)
  | .act .stop => decide s.queuesEmpty
  | .prune _ .dotDot | .prune _ .stale => false
  | _ => true

theorem keepsLast_sound {s : State (Fin 3) Unit} {a : Step (Fin 3) Unit}
    (h : keepsLast s a = true) : KeepsLast (flat sampleTree) s a := by
  cases a with
  | act a =>
    cases a with
    | name op =>
      obtain ⟨hns, hacc⟩ := Bool.and_eq_true_iff.mp h
      exact ⟨noneStrands_sound hns, (accountsAll_sound hacc).once⟩
    | stop =>
      show s.queuesEmpty
      exact of_decide_eq_true h
    | _ => trivial
  | mkdir d => trivial
  | prune d x =>
    cases x with
    | dotDot => cases h
    | stale => cases h
    | _ => exact ⟨by simp, by simp⟩

/-- The directory is made and pruned, and then all goes as in `flatRun`. -/
def prunedRun : List (Step (Fin 3) Unit) :=
  .act (.spawnDir ()) :: .mkdir () :: .prune () .extra :: flatRun.tail.map .act

end Copy2.References
