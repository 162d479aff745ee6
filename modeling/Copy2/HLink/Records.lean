import Copy2.HLink.OneRoot

/-! # Records of other inodes

No two entries of the forward table show one record, and a thread changes no record but
the one that its own inode has shown it. So the group of an inode sees nothing of the
others, unless one of them finds it under a destination inode, or in a record that has
been freed and used again. -/
namespace Copy2.HLink
open FileJob Lib Os

set_option linter.unusedSectionVars false

variable {Name : Type} [Fintype Name] [DecidableEq Name]
variable {T : SourceTree Name} {s t : State Name} {n m : Name} {v : NameState} {i : ℕ}

/-- The points at which a thread holds on to a forward record. -/
def Pc.visits : Pc → Bool
  | compare | relink | drain => true
  | _ => false

/-- No two inodes show one record, and who holds on to a record that an inode shows is a name
of that inode. -/
structure Separate (T : SourceTree Name) (s : State Name) : Prop where
  bound : ∀ i r, s.fwd i = some r → r < s.nextRef
  visited : ∀ n, (s.name n).pc.visits = true → (s.name n).loc.hinfoRef < s.nextRef
  injective : ∀ i j r, s.fwd i = some r → s.fwd j = some r → i = j
  own : ∀ i n, (s.name n).pc.visits = true → s.fwd i = some (s.name n).loc.hinfoRef → T.ino n = i

/-- What a step of a name does to the forward table and its records. -/
inductive RecordStep (T : SourceTree Name) (s t : State Name) (n : Name) : Prop
  | same (hfwd : t.fwd = s.fwd) (hinfo : t.info = s.info)
  | visit (hpc : (s.name n).pc.visits = true) (x : HLinkInfo Name) (hfwd : t.fwd = s.fwd)
      (hinfo : t.info = Function.update s.info (s.name n).loc.hinfoRef (some x))
  | root (x : HLinkInfo Name) (hnext : s.nextRef < t.nextRef)
      (hfwd : t.fwd = Function.update s.fwd (T.ino n) (some s.nextRef))
      (hinfo : t.info = Function.update s.info s.nextRef (some x))
  | drop (r : Ref) (hr : s.fwd (T.ino n) = some r)
      (hfwd : t.fwd = Function.update s.fwd (T.ino n) none)
      (hinfo : t.info = Function.update s.info r none)
  | free (hpc : (s.name n).pc = .handleRetire) (r : Ref)
      (hr : s.fwd (s.name n).loc.finishIno = some r) (hfwd : t.fwd = s.fwd)
      (hinfo : t.info = Function.update s.info r none)

/-- What is left of the step: the record that the thread holds on to afterwards, and the
names that it has linked. -/
structure Recorded (T : SourceTree Name) (s t : State Name) (n : Name) : Prop where
  step : RecordStep T s t n
  nextRef : s.nextRef ≤ t.nextRef
  visits : (t.name n).pc.visits = true →
    (s.name n).pc.visits = true ∧ (t.name n).loc.hinfoRef = (s.name n).loc.hinfoRef ∨
      s.fwd (T.ino n) = some (t.name n).loc.hinfoRef
  names : ∀ m, m ≠ n → t.name m = s.name m ∨ (s.name n).pc = .drain ∧
    ∃ x, s.info (s.name n).loc.hinfoRef = some x ∧ m ∈ x.links

theorem Moved.recorded (h : Moved s t n v)
    (hv : v.pc.visits = true →
      (s.name n).pc.visits = true ∧ v.loc.hinfoRef = (s.name n).loc.hinfoRef ∨
        s.fwd (T.ino n) = some v.loc.hinfoRef) : Recorded T s t n where
  step := .same h.fwd h.info
  nextRef := h.nextRef
  visits := by
    rw [h.name, Function.update_self]
    exact hv
  names m hm := .inl (by rw [h.name, Function.update_of_ne hm])

theorem Moved.recorded_away (h : Moved s t n v) (hv : v.pc.visits = false) : Recorded T s t n :=
  h.recorded fun hp => by simp [hv] at hp

theorem register_recorded : Recorded T s (T.register s n) n := by
  rw [SourceTree.register]
  split
  · rename_i r hr
    exact ((Quiet.refl s).put n _).recorded fun _ => .inr hr
  · exact ((Quiet.refl s).put n _).recorded_away rfl

theorem handle_recorded : Recorded T s (T.handle s n) n := by
  rw [SourceTree.handle]
  split
  · rename_i r hr
    exact ((Quiet.refl s).put n _).recorded fun _ => .inr hr
  · exact ((Quiet.refl s).put n _).recorded_away rfl

theorem Relinked.recorded {h h' : HLinkInfo Name}
    (hrl : Relinked T s t n v (s.name n).loc.hinfoRef h h') (hpc : (s.name n).pc.visits = true)
    (hv : v.loc.hinfoRef = (s.name n).loc.hinfoRef) : Recorded T s t n where
  step := .visit hpc _ hrl.fwd hrl.info
  nextRef := hrl.nextRef
  visits _ := .inl ⟨hpc, by rw [hrl.name, Function.update_self, hv]⟩
  names m hm := .inl (by rw [hrl.name, Function.update_of_ne hm])

theorem relink_recorded (hpc : (s.name n).pc = .relink)
    (h : SourceTree.relink s n .linked = some t) : Recorded T s t n := by
  obtain ⟨x, -, hcase⟩ := relink_cases (T := T) h
  have hvisits : (s.name n).pc.visits = true := by rw [hpc]; rfl
  cases hcase with
  | link y _ _ _ hrl => exact hrl.recorded hvisits rfl
  | wait _ hrl => exact hrl.recorded hvisits rfl

theorem drain_recorded (hpc : (s.name n).pc = .drain)
    (h : SourceTree.drain s n (fun _ => .linked) = some t) : Recorded T s t n := by
  obtain ⟨x, y, hx, -, -, hd⟩ := drain_cases h
  have hvisits : (s.name n).pc.visits = true := by rw [hpc]; rfl
  refine ⟨.visit hvisits _ hd.fwd hd.info, hd.nextRef, fun hp => ?_, fun m hm => ?_⟩
  · rw [hd.root] at hp
    split at hp <;> simp [NameState.goto, NameState.finish, Pc.visits] at hp
  · by_cases hl : m ∈ x.links
    · exact .inr ⟨hpc, x, hx, hl⟩
    · rw [hd.other m hm, drainEntry_of_notMem hl]
      exact .inl rfl

theorem retire_recorded (h : T.retire s n = some t) : Recorded T s t n := by
  have hname := retire_name h
  have hvisits : (t.name n).pc.visits = false := by
    rw [hname, Function.update_self]
    rfl
  rw [SourceTree.retire] at h
  obtain ⟨-, h⟩ := Option.ite_none_left_eq_some.mp h
  split at h
  · rename_i r hr
    have hmv := reverseWrite_moved h
    exact ⟨.drop r hr hmv.fwd hmv.info, hmv.nextRef, by simp [hvisits], fun m hm =>
      .inl (by rw [hname, Function.update_of_ne hm])⟩
  · exact (reverseWrite_moved h).recorded_away rfl

theorem handleRetire_recorded (hpc : (s.name n).pc = .handleRetire)
    (h : T.handleRetire s n = some t) : Recorded T s t n := by
  rw [SourceTree.handleRetire] at h
  obtain ⟨-, h⟩ := Option.ite_none_left_eq_some.mp h
  split at h
  · rename_i r hr
    obtain rfl := Option.some.inj h
    refine ⟨.free hpc r hr rfl rfl, le_rfl, ?_, fun m hm => .inl (Function.update_of_ne hm _ _)⟩
    simp [State.finish, State.put, State.setInfo, NameState.finish, Pc.visits]
  · obtain rfl := Option.some.inj h
    exact ((Quiet.refl s).put n _).recorded_away rfl

theorem step_recorded {y : ℕ} (h : T.step s n y = some t) : Recorded T s t n := by
  rw [SourceTree.step] at h
  split at h <;> rename_i hpc
  · obtain rfl := Option.some.inj h
    obtain ⟨v, hmv, -, -, -, hv⟩ := start_moved (T := T) (s := s) (n := n)
    exact hmv.recorded_away (by rcases hv with ⟨hv, -⟩ | ⟨-, hv, -⟩ <;> rw [hv] <;> rfl)
  · obtain rfl := Option.some.inj h
    exact register_recorded
  · rcases promote_cases h with ⟨-, hmv⟩ | ⟨-, mismatch, -, hr⟩
    · exact hmv.recorded_away rfl
    · refine ⟨.root _ hr.nextRef hr.fwd hr.info, hr.nextRef.le, ?_, fun m hm => .inl ?_⟩ <;>
        rw [hr.name]
      · simp [rootState, Pc.visits]
      · rw [Function.update_of_ne hm]
  · have hvisits : (s.name n).pc.visits = true := by rw [hpc]; rfl
    obtain ⟨x, -, hmv | ⟨-, -, hmv⟩⟩ := compare_moved h
    · exact hmv.recorded fun _ => .inl ⟨hvisits, rfl⟩
    · exact hmv.recorded_away rfl
  · exact relink_recorded hpc h
  · exact retire_recorded h
  · obtain ⟨p, hmv, hp⟩ := reverse_moved h
    exact hmv.recorded_away (by rcases hp with rfl | rfl | rfl <;> rfl)
  · exact (revPromote_moved h).recorded_away rfl
  · exact (revRetire_moved h).recorded_away rfl
  · obtain ⟨v, hmv, htr⟩ := transfer_moved h
    refine hmv.recorded_away ?_
    cases htr with
    | create p _ _ hp => rcases hp with rfl | ⟨-, rfl⟩ <;> rfl
    | _ => rfl
  · obtain ⟨y, v, -, hmv, -, -, -, hv⟩ := publish_moved h
    exact hmv.recorded_away (by rcases hv with ⟨-, hv, -⟩ | ⟨-, hv, -⟩ <;> rw [hv] <;> rfl)
  · obtain rfl := Option.some.inj h
    exact handle_recorded
  · exact drain_recorded hpc h
  · exact handleRetire_recorded hpc h
  · cases h
  · cases h

theorem Recorded.fwd_cases (h : Recorded T s t n) {r : Ref} (hr : t.fwd i = some r) :
    s.fwd i = some r ∨ i = T.ino n ∧ r = s.nextRef ∧ s.nextRef < t.nextRef := by
  cases h.step with
  | same hfwd _ => exact .inl (hfwd ▸ hr)
  | visit _ x hfwd _ => exact .inl (hfwd ▸ hr)
  | root x hnext hfwd _ =>
    rw [hfwd, Function.update_apply] at hr
    split at hr
    · rename_i hi
      exact .inr ⟨hi, (Option.some.inj hr).symm, hnext⟩
    · exact .inl hr
  | drop _ _ hfwd _ =>
    rw [hfwd, Function.update_apply] at hr
    split at hr
    · cases hr
    · exact .inl hr
  | free _ _ _ hfwd _ => exact .inl (hfwd ▸ hr)

/-- Whoever holds on to a record has done so before, or has just been shown it. -/
theorem visit_cases {y : ℕ} (h : T.step s n y = some t) (hp : (t.name m).pc.visits = true) :
    (s.name m).pc.visits = true ∧ (t.name m).loc.hinfoRef = (s.name m).loc.hinfoRef ∨
      s.fwd (T.ino m) = some (t.name m).loc.hinfoRef := by
  by_cases hm : m = n
  · subst hm
    exact (step_recorded h).visits hp
  · have hth := step_thread h hm
    rw [hth.pc] at hp
    exact .inl ⟨hp, by rw [hth.loc]⟩

theorem Separate.step {y : ℕ} (hs : Separate T s) (h : T.step s n y = some t) : Separate T t := by
  have hrec := step_recorded h
  have hlt : ∀ m, (t.name m).pc.visits = true → (t.name m).loc.hinfoRef < s.nextRef := by
    intro m hp
    rcases visit_cases h hp with ⟨hp', href⟩ | hshown
    · exact href ▸ hs.visited m hp'
    · exact hs.bound _ _ hshown
  refine ⟨fun j r hr => ?_, fun m hp => (hlt m hp).trans_le hrec.nextRef, fun j k r hj hk => ?_,
    fun j m hp hj => ?_⟩
  · rcases hrec.fwd_cases hr with hr | ⟨-, rfl, hnext⟩
    · exact (hs.bound j r hr).trans_le hrec.nextRef
    · exact hnext
  · rcases hrec.fwd_cases hj with hj | ⟨rfl, rfl, -⟩ <;>
      rcases hrec.fwd_cases hk with hk | ⟨rfl, hr, -⟩
    · exact hs.injective j k r hj hk
    · exact absurd (hs.bound j r hj) (by rw [hr]; exact lt_irrefl _)
    · exact absurd (hs.bound k _ hk) (lt_irrefl _)
    · rfl
  · rcases hrec.fwd_cases hj with hj | ⟨-, hr, -⟩
    · rcases visit_cases h hp with ⟨hp', href⟩ | hshown
      · exact hs.own j m hp' (href ▸ hj)
      · exact hs.injective _ _ _ hshown hj
    · exact absurd (hlt m hp) (by rw [hr]; exact lt_irrefl _)

theorem Separate.init {dst : Name → Option ℕ} :
    Separate T ({ name := fun n => { dst := dst n } } : State Name) where
  bound _ _ hr := by simp at hr
  visited n hp := by simp [Pc.visits] at hp
  injective _ _ _ hi := by simp at hi
  own _ n hp := by simp [Pc.visits] at hp

theorem Separate.congr (hs : Separate T s) (hfwd : t.fwd = s.fwd) (hname : t.name = s.name)
    (hnext : t.nextRef = s.nextRef) : Separate T t := by
  constructor
  · rw [hfwd, hnext]
    exact hs.bound
  · rw [hname, hnext]
    exact hs.visited
  · rw [hfwd]
    exact hs.injective
  · rw [hname, hfwd]
    exact hs.own

/-- A call for a name of another inode does not find the entry of this one under its
destination inode, nor a name of this one in the list that it drains. -/
def Spares (T : SourceTree Name) (i : ℕ) (s : State Name) : Op Name → Prop
  | .run n _ => T.ino n ≠ i →
    ((s.name n).pc = .handleRetire → (s.name n).loc.finishIno = i → s.fwd i = none) ∧
      ((s.name n).pc = .drain → ∀ x, s.info (s.name n).loc.hinfoRef = some x →
        ∀ m ∈ x.links, T.ino m ≠ i)
  | _ => True

theorem Separate.sameGroup {y : ℕ} (hs : Separate T s) (hn : T.ino n ≠ i)
    (hspare : Spares T i s (.run n y)) (h : T.step s n y = some t) : SameGroup T s t i := by
  have hrec := step_recorded h
  obtain ⟨hmiss, hlist⟩ := hspare hn
  have hfwd : t.fwd i = s.fwd i := by
    cases hrec.step with
    | same hfwd _ => rw [hfwd]
    | visit _ x hfwd _ => rw [hfwd]
    | root x _ hfwd _ => rw [hfwd, Function.update_of_ne (Ne.symm hn)]
    | drop r _ hfwd _ => rw [hfwd, Function.update_of_ne (Ne.symm hn)]
    | free _ r _ hfwd _ => rw [hfwd]
  have hinfo : ∀ r, s.fwd i = some r → t.info r = s.info r := by
    intro r hr
    cases hrec.step with
    | same _ hinfo => rw [hinfo]
    | visit hp x _ hinfo =>
      rw [hinfo, Function.update_of_ne]
      rintro rfl
      exact hn (hs.own i n hp hr)
    | root x _ _ hinfo => rw [hinfo, Function.update_of_ne (hs.bound i r hr).ne]
    | drop r' hr' _ hinfo =>
      rw [hinfo, Function.update_of_ne]
      rintro rfl
      exact hn (hs.injective _ _ _ hr' hr)
    | free hpc r' hr' _ hinfo =>
      rw [hinfo, Function.update_of_ne]
      rintro rfl
      have hnone := hmiss hpc (hs.injective _ _ _ hr' hr)
      simp [hr] at hnone
  refine ⟨hfwd, hinfo, hrec.nextRef, fun m hm => ?_⟩
  rcases hrec.names m (fun he => hn (he ▸ hm)) with hsame | ⟨hpc, x, hx, hmem⟩
  · exact hsame
  · exact absurd hm (hlist hpc x hx m hmem)

end Copy2.HLink
