import Copy2.Finish.Directory

/-! # How a new file takes the place of an old entry

The old entry is unlinked before the temporary file is renamed. At every point of a job
the final name is the old entry or the complete new file, but between those two calls it
is nothing, and stays so when the renaming fails. -/
namespace Copy2.Finish
open FileJob Lib Os

inductive Kind
  | neutral
  | examined (name : String) (a : Statx)
  | renamed (old new : String)
  | refused
  | unlinked (name : String)
  | cleared (name : String)
  | removed (name : String)
  | changed (name : String)

def kind : Raw.Event → Kind
  | ⟨.base (.statx _ name), .ok a⟩ => .examined name a
  | ⟨.base (.renameat _ old new), .ok _⟩ => .renamed old new
  | ⟨.base (.renameat ..), .error _⟩ => .refused
  | ⟨.base (.unlinkat _ name), .ok _⟩ => .removed name
  | ⟨.base (.utimensat _ name _ _), .ok _⟩ => .changed name
  | ⟨.base (.fchownat _ name _ _), .ok _⟩ => .changed name
  | ⟨.base (.fchmodat _ name _), .ok _⟩ => .changed name
  | ⟨.base (.recursiveRemove path), _⟩ => .removed (baseName path)
  | ⟨.unlinkRoot path, .ok _⟩ => .unlinked (baseName path)
  | ⟨.removeDirectory path, _⟩ => .cleared (baseName path)
  | _ => .neutral

def unlinked (l : List Raw.Event) : Bool :=
  l.any fun e => match kind e with
    | .unlinked _ => true
    | _ => false

def renamed (l : List Raw.Event) : Bool :=
  l.any fun e => match kind e with
    | .renamed .. => true
    | _ => false

def renameFailed (l : List Raw.Event) : Bool :=
  l.any fun e => match kind e with
    | .refused => true
    | _ => false

/-- Metadata aside, the two are one file. -/
def SameFile (a b : Statx) : Prop := b.stx_ino = a.stx_ino ∧ b.stx_size = a.stx_size

theorem rawEffect_kind (d : Directory) (e : Raw.Event) :
    match kind e with
    | .neutral | .examined .. | .refused => rawEffect d e = d
    | .renamed old new => rawEffect d e = Function.update (Function.update d old none) new (d old)
    | .unlinked name | .removed name => rawEffect d e = Function.update d name none
    | .cleared name => (∀ a, d name = some a → isDirectory a.stx_mode = false) → rawEffect d e = d
    | .changed name => ∃ f, rawEffect d e = d.modify name f ∧ ∀ a, SameFile a (f a) := by
  obtain ⟨c, r⟩ := e
  cases c with
  | base c =>
    cases c with
    | statx dir name => cases r <;> rfl
    | renameat dir old new => cases r <;> rfl
    | unlinkat dir name => cases r <;> rfl
    | utimensat dir name atime mtime =>
      cases r with
      | error e => rfl
      | ok u => exact ⟨_, rfl, fun a => ⟨rfl, rfl⟩⟩
    | fchownat dir name uid gid =>
      cases r with
      | error e => rfl
      | ok u => exact ⟨_, rfl, fun a => ⟨rfl, rfl⟩⟩
    | fchmodat dir name mode =>
      cases r with
      | error e => rfl
      | ok u => exact ⟨_, rfl, fun a => ⟨rfl, rfl⟩⟩
    | _ => rfl
  | unlinkRoot path => cases r <;> rfl
  | removeDirectory path =>
    intro h
    refine if_neg ?_
    cases hd : d (baseName path) with
    | none => simp
    | some a => simp [h a hd]

inductive Phase
  | working (unlinked : Bool) (seen : Option Statx)
  | published
  | abandoned (unlinked : Bool)

/-- The new file is complete: all of it has been copied, as far as the job knows. -/
def Complete (job : FileCopyJob) (a : Statx) : Prop :=
  (isReg job.stx.stx_mode = true → a.stx_size = job.stx.stx_size) ∧ job.nErrors = 0

instance (job : FileCopyJob) (a : Statx) : Decidable (Complete job a) :=
  inferInstanceAs (Decidable (_ ∧ _))

/-- What a job may do: unlink the old entry, rename the temporary file when its examination
has shown it complete, and change metadata after that; or remove the temporary file. -/
def replacing (job : FileCopyJob) : Protocol Raw Phase := fun s e =>
  match s, kind e with
  | s, .neutral => some s
  | .working u _, .examined name a =>
    if name = dstFileName job then some (.working u (some a)) else none
  | .working _ seen, .unlinked name =>
    if name = dstRemoteName job then some (.working true seen) else none
  | .working u seen, .cleared name =>
    if name = dstRemoteName job then some (.working u seen) else none
  | .working _ (some a), .renamed old new =>
    if old = dstFileName job ∧ new = dstRemoteName job ∧ Complete job a then some .published
    else none
  | .working u _, .refused => some (.abandoned u)
  | .working u _, .removed name => if name = dstFileName job then some (.abandoned u) else none
  | .abandoned u, .removed name => if name = dstFileName job then some (.abandoned u) else none
  | .published, .changed name => if name = dstRemoteName job then some .published else none
  | _, _ => none

section equations
attribute [local simp] kind replacing
end equations

section follows
variable {job : FileCopyJob} {pa : Bool} {s : Phase}

theorem replacing_neutral {e : Raw.Event} (h : kind e = .neutral) :
    replacing job s e = some s := by
  unfold replacing
  rw [h]

/-- A call that means nothing for the names. -/
theorem neutral_follows {c : Call} (hc : ∀ r, kind ⟨.base c, r⟩ = .neutral)
    (hraw : rawCall c = .call (.base c) .ret) :
    ((sys c).expand rawCall).Follows (replacing job) (fun _ s' => s' = s) s := by
  rw [sys, Prog.expand_call, hraw]
  exact fun r => ⟨s, replacing_neutral (hc r), rfl⟩

theorem onlyIf_follows {p : Prog Sys Unit} {Q : Unit → Phase → Prop} (wanted : Bool)
    (hp : wanted = true → (p.expand rawCall).Follows (replacing job) Q s)
    (hno : wanted = false → Q () s) :
    ((onlyIf wanted p).expand rawCall).Follows (replacing job) Q s := by
  cases wanted with
  | false => exact hno rfl
  | true => exact hp rfl

theorem failed_follows {p : Prog Sys (Except Errno Unit)} {Q : Bool → Phase → Prop}
    (wanted : Bool)
    (hp : wanted = true → (p.expand rawCall).Follows (replacing job)
      (fun r s' => Q (match r with | .ok _ => false | .error _ => true) s') s)
    (hno : wanted = false → Q false s) :
    ((failed wanted p).expand rawCall).Follows (replacing job) Q s := by
  cases wanted with
  | false => exact hno rfl
  | true =>
    change Prog.Follows _ _ (Prog.expand _ (p >>= _)) _
    rw [Prog.expand_bind]
    exact (hp rfl).bind fun r s' h => h

theorem closeFiles_follows :
    ((closeFiles job).expand rawCall).Follows (replacing job)
      (fun job' s' => s' = s ∧ ∃ e, job' = { job with nErrors := job.nErrors + e }) s := by
  rw [closeFiles, Prog.expand_bind]
  refine (onlyIf_follows (Q := fun _ s' => s' = s) _ (fun _ => ?_) fun _ => rfl).bind ?_
  · exact neutral_follows (c := .close job.srcFd) (fun _ => rfl) rfl
  · rintro _ s' hs
    rw [hs]
    split
    · rw [Prog.expand_bind]
      refine (failed_follows (Q := fun _ s' => s' = s) _ (fun _ => ?_) fun _ => rfl).bind ?_
      · exact neutral_follows (c := .ftruncate job.dstFd job.stx.stx_size)
          (fun r => by cases r <;> rfl) rfl
      · rintro bad s'' hs'
        exact fun u => ⟨s'', replacing_neutral rfl, hs', bad.toNat, rfl⟩
    · exact ⟨rfl, 0, rfl⟩

theorem afterUnlink_follows {u : Bool} {seen : Option Statx} {path : String}
    (hpath : baseName path = dstRemoteName job) (r : Except Errno Unit) :
    (afterUnlink path r).Follows (replacing job) (fun _ s' => s' = .working u seen)
      (.working u seen) := by
  rw [afterUnlink.eq_def]
  split
  · rfl
  · split
    · exact fun _ => ⟨.working u seen, by simp [replacing, kind, hpath], rfl⟩
    · rfl

/-- The removal of the old entry leaves the temporary file to be renamed. -/
theorem recursiveRemove_follows {u : Bool} {seen : Option Statx} {path : String}
    (hpath : baseName path = dstRemoteName job) :
    ((sys (.recursiveRemove path)).expand rawCall).Follows (replacing job)
      (fun _ s' => ∃ u, s' = .working u seen) (.working u seen) := by
  refine Prog.Follows.bind (p := recursiveRemove path)
    (Q := fun _ s' => ∃ u, s' = .working u seen) ?_ (by
      intro _ _ h
      exact h)
  intro r
  have hafter : ∀ u, (afterUnlink path r).Follows (replacing job)
      (fun _ s' => ∃ u, s' = .working u seen) (.working u seen) := fun u =>
    (afterUnlink_follows hpath r).mono fun _ _ h => ⟨u, h⟩
  cases r with
  | ok _ => exact ⟨.working true seen, by simp [replacing, kind, hpath], hafter true⟩
  | error e => exact ⟨.working u seen, replacing_neutral rfl, hafter u⟩

/-- A call that changes metadata, once the file has its name. -/
theorem metadata_follows {p : Prog Sys (Except Errno Unit)} {Q : Bool → Phase → Prop}
    (wanted : Bool) (hp : (p.expand rawCall).Follows (replacing job)
      (fun _ s' => s' = .published) .published) (hQ : ∀ bad, Q bad .published) :
    ((failed wanted p).expand rawCall).Follows (replacing job) Q .published := by
  refine failed_follows wanted (fun _ => hp.mono ?_) fun _ => hQ _
  rintro r _ rfl
  exact hQ _

theorem changed_follows {c : Call} (hraw : rawCall c = .call (.base c) .ret)
    (hc : ∀ r, kind ⟨.base c, r⟩ = .changed (dstRemoteName job) ∨ kind ⟨.base c, r⟩ = .neutral) :
    ((sys c).expand rawCall).Follows (replacing job) (fun _ s' => s' = .published)
      .published := by
  rw [sys, Prog.expand_call, hraw]
  intro r
  refine ⟨.published, ?_, rfl⟩
  rcases hc r with h | h
  · simp [replacing, h]
  · exact replacing_neutral h

def Ends (out : Outcome) (s : Phase) : Prop :=
  (∃ u seen, s = .working u seen) ∨ (∃ u, s = .abandoned u) ∨
    s = .published ∧ out.partialDeleted = true

theorem publish_follows {u : Bool} {dst : Statx} (hwf : WellFormed job)
    (hp : job.partialRef.isSome = true) (hdst : Complete job dst) :
    ((publish pa job dst).expand rawCall).Follows (replacing job) Ends
      (.working u (some dst)) := by
  rw [publish, Prog.expand_bind]
  refine (onlyIf_follows (Q := fun _ s' => ∃ u, s' = .working u (some dst)) _
    (fun _ => recursiveRemove_follows (hwf.remote hp)) fun _ => ⟨u, rfl⟩).bind ?_
  rintro _ _ ⟨u, rfl⟩
  rw [Prog.expand_bind, hp]
  refine (failed_follows (Q := fun bad s' => if bad then s' = .abandoned u
    else s' = .published) _ (fun _ => ?_) fun h => by cases h).bind ?_
  · intro r
    cases r with
    | error e => exact ⟨.abandoned u, by simp [replacing, kind], rfl⟩
    | ok _ => exact ⟨.published, by simp [replacing, kind, hdst], rfl⟩
  · intro bad s' hs'
    cases bad with
    | true => exact .inr (.inl ⟨u, hs'⟩)
    | false =>
      obtain rfl : s' = .published := hs'
      have done : ∀ b, Ends ⟨b, true⟩ .published := fun b => .inr (.inr ⟨rfl, rfl⟩)
      rw [if_neg (by simp), Prog.expand_bind]
      refine (metadata_follows (Q := fun _ s' => s' = .published) _ ?_ fun _ => rfl).bind ?_
      · exact changed_follows (c := .utimensat job.dstDirFD (dstRemoteName job)
          (if pa then some job.stx.stx_atime else none) job.stx.stx_mtime) rfl
          fun r => by cases r <;> simp [kind]
      rintro bad _ rfl
      cases bad with
      | true => exact done _
      | false =>
        rw [if_neg (by simp), Prog.expand_bind]
        refine (metadata_follows (Q := fun _ s' => s' = .published) _ ?_ fun _ => rfl).bind ?_
        · exact changed_follows (c := .fchownat job.dstDirFD (dstRemoteName job) job.stx.stx_uid
            job.stx.stx_gid) rfl
            fun r => by cases r <;> simp [kind]
        rintro bad _ rfl
        cases bad with
        | true => exact done _
        | false =>
          rw [if_neg (by simp), Prog.expand_bind]
          refine (metadata_follows (Q := fun _ s' => s' = .published) _ ?_ fun _ => rfl).bind ?_
          · exact changed_follows (c := .fchmodat job.dstDirFD (dstRemoteName job) job.stx.stx_mode) rfl
              fun r => by cases r <;> simp [kind]
          rintro bad _ rfl
          cases bad with
          | true => exact done _
          | false =>
            rw [if_neg (by simp)]
            split
            · exact fun _ => ⟨_, replacing_neutral rfl, fun _ => ⟨_, replacing_neutral rfl, done _⟩⟩
            · exact done _

theorem checkAndPublish_follows (hwf : WellFormed job) (hp : job.partialRef.isSome = true) :
    ((checkAndPublish pa job).expand rawCall).Follows (replacing job) Ends
      (.working false none) := by
  intro r
  cases r with
  | error e => exact ⟨_, replacing_neutral rfl, .inl ⟨_, _, rfl⟩⟩
  | ok a =>
    refine ⟨.working false (some a), by simp [replacing, kind], ?_⟩
    have stop : Ends ⟨false, false⟩ (.working false (some a)) := .inl ⟨_, _, rfl⟩
    show Prog.Follows _ _ (Prog.expand _ (ite _ _ _)) _
    split
    · exact stop
    · rename_i hsize
      simp only [Bool.and_eq_true, bne_iff_ne, ne_eq, not_and, not_not] at hsize
      split
      · exact stop
      · rename_i herr
        rw [Prog.expand_bind]
        refine (publish_follows hwf hp ⟨hsize, by simpa using herr⟩).bind fun out s' hs' => ?_
        rw [Prog.expand_bind]
        refine (onlyIf_follows (Q := fun _ s'' => s'' = s') _ (fun _ => ?_) fun _ => rfl).bind ?_
        · exact neutral_follows
            (c := .addBytesTransferred job.stx.stx_size job.actuallyTransferred) (fun _ => rfl) rfl
        · rintro _ _ rfl
          exact hs'

theorem cleanUp_follows {out : Outcome} (hs : Ends out s) :
    ((do
      let _ ← failed (!out.partialDeleted && job.partialRef.isSome)
        (sys (.unlinkat job.dstDirFD (dstFileName job)))
      sys (.addFinished 1)
      sys (.releaseDir job.dstDirFD)
      sys (.releasePath job.partialRef)
      sys (.releasePath job.remote) : Prog Sys Unit).expand rawCall).Follows (replacing job)
        (fun _ _ => True) s := by
  rw [Prog.expand_bind]
  refine (failed_follows (Q := fun _ _ => True) _ (fun h => ?_) fun _ => trivial).bind
    fun _ _ _ => ?_
  · rcases hs with ⟨u, seen, rfl⟩ | ⟨u, rfl⟩ | ⟨-, hdel⟩
    · intro r
      cases r with
      | error e => exact ⟨_, replacing_neutral rfl, trivial⟩
      | ok _ => exact ⟨.abandoned u, by simp [replacing, kind], trivial⟩
    · intro r
      cases r with
      | error e => exact ⟨_, replacing_neutral rfl, trivial⟩
      | ok _ => exact ⟨.abandoned u, by simp [replacing, kind], trivial⟩
    · simp [hdel] at h
  · exact fun _ => ⟨_, replacing_neutral rfl, fun _ => ⟨_, replacing_neutral rfl, fun _ =>
      ⟨_, replacing_neutral rfl, fun _ => ⟨_, replacing_neutral rfl, trivial⟩⟩⟩⟩

/-- A job with more errors may do less. -/
theorem replacing_errors (e : ℕ) (s : Phase) (ev : Raw.Event) (s' : Phase)
    (h : replacing { job with nErrors := job.nErrors + e } s ev = some s') :
    replacing job s ev = some s' := by
  have hcomplete : ∀ a, Complete { job with nErrors := job.nErrors + e } a → Complete job a :=
    fun a ha => ⟨ha.1, by have := ha.2; simp only at this; omega⟩
  unfold replacing at h ⊢
  split at h
  all_goals try exact h
  rename_i a old new hk
  simp only [Option.ite_none_right_eq_some] at h ⊢
  exact ⟨⟨h.1.1, h.1.2.1, hcomplete _ h.1.2.2⟩, h.2⟩

theorem finishRaw_follows (hwf : WellFormed job) (hp : job.partialRef.isSome = true) :
    (finishRaw pa job).Follows (replacing job) (fun _ _ => True) (.working false none) := by
  refine Prog.Follows.expand_bind closeFiles_follows ?_
  rintro _ _ ⟨rfl, e, rfl⟩
  have hwf' : WellFormed { job with nErrors := job.nErrors + e } := ⟨hwf.suffix, hwf.dot⟩
  refine Prog.Follows.weaken ?_ (replacing_errors e)
  exact Prog.Follows.expand_bind (checkAndPublish_follows hwf' hp) fun out s' hs' =>
    cleanUp_follows hs'

end follows
section stands
variable {job : FileCopyJob} {old new : Statx}

theorem unlinked_snoc (l : List Raw.Event) (e : Raw.Event) :
    unlinked (l ++ [e]) = (unlinked l || match kind e with
      | .unlinked _ => true
      | _ => false) := by
  simp [unlinked]

theorem renamed_snoc (l : List Raw.Event) (e : Raw.Event) :
    renamed (l ++ [e]) = (renamed l || match kind e with
      | .renamed .. => true
      | _ => false) := by
  simp [renamed]

theorem renameFailed_snoc (l : List Raw.Event) (e : Raw.Event) :
    renameFailed (l ++ [e]) = (renameFailed l || match kind e with
      | .refused => true
      | _ => false) := by
  simp [renameFailed]

/-- The phase tells what is under the final name. -/
def Stands (job : FileCopyJob) (old new : Statx) (l : List Raw.Event) : Phase → Directory → Prop
  | .working u seen, d => d (dstRemoteName job) = (if u then none else some old) ∧
    d (dstFileName job) = some new ∧ (∀ a, seen = some a → a = new) ∧
    unlinked l = u ∧ renamed l = false ∧ renameFailed l = false
  | .published, d => (∃ a, d (dstRemoteName job) = some a ∧ SameFile new a) ∧
    Complete job new ∧ renameFailed l = false
  | .abandoned u, d => d (dstRemoteName job) = (if u then none else some old) ∧
    unlinked l = u ∧ renamed l = false

theorem examined_truthful {d : Directory} {e : Raw.Event} {name : String} {a : Statx}
    (h : rawTruthful d e) (hk : kind e = .examined name a) : d name = some a := by
  obtain ⟨c, r⟩ := e
  cases c with
  | base c =>
    cases c with
    | statx dir n =>
      cases r with
      | error e => cases hk
      | ok b =>
        obtain ⟨rfl, rfl⟩ : n = name ∧ b = a := by simpa [kind] using hk
        exact h
    | renameat | unlinkat | utimensat | fchownat | fchmodat => cases r <;> cases hk
    | _ => cases hk
  | unlinkRoot path => cases r <;> cases hk
  | removeDirectory path => cases hk

theorem Stands.working_step {l : List Raw.Event} {u : Bool} {seen : Option Statx} {s' : Phase}
    {d : Directory} {e : Raw.Event} (hne : dstFileName job ≠ dstRemoteName job)
    (hold : isDirectory old.stx_mode = false) (hs : Stands job old new l (.working u seen) d)
    (h : replacing job (.working u seen) e = some s') (hok : rawTruthful d e) :
    Stands job old new (l ++ [e]) s' (rawEffect d e) := by
  obtain ⟨hr, hp, hseen, hu, hre, hfail⟩ := hs
  have heff := rawEffect_kind d e
  have hun := unlinked_snoc l e
  have hren := renamed_snoc l e
  have href := renameFailed_snoc l e
  cases hk : kind e with
  | neutral =>
    rw [replacing_neutral hk] at h
    obtain rfl := Option.some.inj h
    rw [hk] at heff hun hren href
    rw [heff]
    exact ⟨hr, hp, hseen, by simp [hun, hu], by simp [hren, hre], by simp [href, hfail]⟩
  | examined name a =>
    simp only [replacing, hk, Option.ite_none_right_eq_some, Option.some.injEq] at h
    obtain ⟨rfl, rfl⟩ := h
    have ha := (examined_truthful hok hk).symm.trans hp
    rw [hk] at heff hun hren href
    rw [heff]
    refine ⟨hr, hp, fun b hb => ?_, by simp [hun, hu], by simp [hren, hre],
      by simp [href, hfail]⟩
    exact (Option.some.inj hb).symm.trans (Option.some.inj ha)
  | renamed a b =>
    cases seen with
    | none => simp [replacing, hk] at h
    | some c =>
      simp only [replacing, hk, Option.ite_none_right_eq_some, Option.some.injEq] at h
      obtain ⟨⟨rfl, rfl, hc⟩, rfl⟩ := h
      rw [hk] at heff href
      rw [heff]
      obtain rfl := hseen c rfl
      refine ⟨⟨c, ?_, rfl, rfl⟩, hc, by simp [href, hfail]⟩
      rw [Function.update_self, hp]
  | refused =>
    obtain rfl : Phase.abandoned u = s' := by simpa [replacing, hk] using h
    rw [hk] at heff hun hren
    rw [heff]
    exact ⟨hr, by simp [hun, hu], by simp [hren, hre]⟩
  | unlinked name =>
    simp only [replacing, hk, Option.ite_none_right_eq_some, Option.some.injEq] at h
    obtain ⟨rfl, rfl⟩ := h
    rw [hk] at heff hun hren href
    rw [heff]
    refine ⟨?_, ?_, hseen, by simp [hun], by simp [hren, hre], by simp [href, hfail]⟩
    · rw [Function.update_self]
      rfl
    · rw [Function.update_of_ne hne, hp]
  | cleared name =>
    simp only [replacing, hk, Option.ite_none_right_eq_some, Option.some.injEq] at h
    obtain ⟨rfl, rfl⟩ := h
    rw [hk] at heff hun hren href
    rw [heff]
    · exact ⟨hr, hp, hseen, by simp [hun, hu], by simp [hren, hre], by simp [href, hfail]⟩
    · intro a ha
      rw [hr, Option.ite_none_left_eq_some] at ha
      obtain ⟨-, ha⟩ := ha
      obtain rfl := Option.some.inj ha
      exact hold
  | removed name =>
    simp only [replacing, hk, Option.ite_none_right_eq_some, Option.some.injEq] at h
    obtain ⟨rfl, rfl⟩ := h
    rw [hk] at heff hun hren href
    rw [heff]
    refine ⟨?_, by simp [hun, hu], by simp [hren, hre]⟩
    rw [Function.update_of_ne hne.symm, hr]
  | changed name => simp [replacing, hk] at h

theorem Stands.step {l : List Raw.Event} {s s' : Phase} {d : Directory} {e : Raw.Event}
    (hne : dstFileName job ≠ dstRemoteName job) (hold : isDirectory old.stx_mode = false)
    (hs : Stands job old new l s d) (h : replacing job s e = some s') (hok : rawTruthful d e) :
    Stands job old new (l ++ [e]) s' (rawEffect d e) := by
  have heff := rawEffect_kind d e
  have hun := unlinked_snoc l e
  have hren := renamed_snoc l e
  have href := renameFailed_snoc l e
  cases s with
  | working u seen => exact hs.working_step hne hold h hok
  | published =>
    obtain ⟨⟨a, ha, hsame⟩, hc, hfail⟩ := hs
    cases hk : kind e with
    | neutral =>
      rw [replacing_neutral hk] at h
      obtain rfl := Option.some.inj h
      rw [hk] at heff
      rw [heff]
      exact ⟨⟨a, ha, hsame⟩, hc, by simp [href, hfail, hk]⟩
    | changed name =>
      simp only [replacing, hk, Option.ite_none_right_eq_some, Option.some.injEq] at h
      obtain ⟨rfl, rfl⟩ := h
      rw [hk] at heff
      obtain ⟨f, heff, hf⟩ := heff
      rw [heff]
      refine ⟨⟨f a, ?_, (hf a).1.trans hsame.1, (hf a).2.trans hsame.2⟩, hc,
        by simp [href, hfail, hk]⟩
      rw [Directory.modify, Function.update_self, ha]
      rfl
    | _ => simp [replacing, hk] at h
  | abandoned u =>
    obtain ⟨hr, hu, hre⟩ := hs
    cases hk : kind e with
    | neutral =>
      rw [replacing_neutral hk] at h
      obtain rfl := Option.some.inj h
      rw [hk] at heff hun hren
      rw [heff]
      exact ⟨hr, by simp [hun, hu], by simp [hren, hre]⟩
    | removed name =>
      simp only [replacing, hk, Option.ite_none_right_eq_some, Option.some.injEq] at h
      obtain ⟨rfl, rfl⟩ := h
      rw [hk] at heff hun hren
      rw [heff]
      refine ⟨?_, by simp [hun, hu], by simp [hren, hre]⟩
      rw [Function.update_of_ne hne.symm, hr]
    | _ => simp [replacing, hk] at h

inductive Resolves (job : FileCopyJob) (old new : Statx) (l : List Raw.Event) :
    Option Statx → Prop
  | old : Resolves job old new l (some old)
  | new {a : Statx} (hsame : SameFile new a) (hc : Complete job new) :
    Resolves job old new l (some a)
  | absent (hu : unlinked l = true) (hr : renamed l = false) : Resolves job old new l none

theorem Stands.resolves {l : List Raw.Event} {s : Phase} {d : Directory}
    (hs : Stands job old new l s d) : Resolves job old new l (d (dstRemoteName job)) := by
  have pending : ∀ {u}, d (dstRemoteName job) = (if u then none else some old) →
      unlinked l = u → renamed l = false → Resolves job old new l (d (dstRemoteName job)) := by
    rintro u hr hu hre
    rw [hr]
    cases u with
    | true => exact .absent hu hre
    | false => exact .old
  cases s with
  | working u seen => exact pending hs.1 hs.2.2.2.1 hs.2.2.2.2.1
  | published =>
    obtain ⟨⟨a, ha, hsame⟩, hc, -⟩ := hs
    rw [ha]
    exact .new hsame hc
  | abandoned u => exact pending hs.1 hs.2.1 hs.2.2

theorem Stands.of_failed {l : List Raw.Event} {s : Phase} {d : Directory}
    (hs : Stands job old new l s d) (hf : renameFailed l = true) :
    d (dstRemoteName job) = some old ↔ unlinked l = false := by
  cases s with
  | working u seen => simp [hs.2.2.2.2.2] at hf
  | published => simp [hs.2.2] at hf
  | abandoned u =>
    rw [hs.1, hs.2.1]
    cases u <;> simp

/-- At every point of every run the final name is the old entry, or the complete new file,
or, from the unlinking of the old entry until the renaming has worked, nothing; and when
the renaming fails, the old entry is there exactly if it could not be unlinked. -/
theorem replacement (env : Raw.Environment) (pa : Bool) {d : Directory} (hwf : WellFormed job)
    (hp : job.partialRef.isSome = true) (hr : d (dstRemoteName job) = some old)
    (hold : isDirectory old.stx_mode = false) (hnew : d (dstFileName job) = some new)
    (hstat : Protocol.Consistent rawEffect rawTruthful d ((finishRaw pa job).run env []).2) :
    let l := ((finishRaw pa job).run env []).2
    (∀ k, Resolves job old new (l.take k) ((l.take k).foldl rawEffect d (dstRemoteName job))) ∧
      (renameFailed l = true →
        (l.foldl rawEffect d (dstRemoteName job) = some old ↔ unlinked l = false)) := by
  intro l
  have hinit : Stands job old new [] (.working false none) d :=
    ⟨hr, hnew, by simp, rfl, rfl, rfl⟩
  obtain ⟨s, hs, -⟩ : ∃ s, (replacing job).after (.working false none) l = some s ∧ True :=
    (finishRaw_follows hwf hp).every.run_nil
  have stands : ∀ l' s', (replacing job).after (.working false none) l' = some s' →
      Protocol.Consistent rawEffect rawTruthful d l' →
      Stands job old new l' s' (l'.foldl rawEffect d) := fun l' s' h hok =>
    Protocol.simulation hinit
      (fun _ _ _ _ _ h1 h2 h3 => h1.step (hwf.distinct hp) hold h2 h3) hok h
  refine ⟨fun k => ?_, fun hf => (stands l s hs hstat).of_failed hf⟩
  obtain ⟨s', hs'⟩ := Protocol.after_take hs k
  refine (stands _ s' hs' ?_).resolves
  exact (show Protocol.Consistent rawEffect rawTruthful d (l.take k ++ l.drop k) by
    rwa [List.take_append_drop]).append.1

end stands

def oldEntry : Statx := { stx_mode := 0o100644, stx_nlink := 1, stx_ino := 1, stx_size := 7 }

def newFile : Statx := { stx_mode := 0o100644, stx_nlink := 1, stx_ino := 2, stx_size := 1 }

def replaceJob : FileCopyJob :=
  { firstLook := true, remote := some "f", partialRef := some ("f" ++ ".partial"),
    stx := newFile, srcFd := -1, dstFd := -1 }

def replaceDir : Directory := fun name =>
  if name = "f" then some oldEntry else if name = "f.partial" then some newFile else none

def refusedEnv : Raw.Environment := fun _ c =>
  match c with
  | .base (.renameat ..) => .error 5
  | .base c => c.succeed newFile
  | .unlinkRoot _ => .ok ()
  | .removeDirectory _ => ()

def refusedTrace : List Raw.Event :=
  [⟨.base (.statx 0 "f.partial"), .ok newFile⟩, ⟨.unlinkRoot "f", .ok ()⟩,
    ⟨.base (.renameat 0 "f.partial" "f"), .error 5⟩, ⟨.base (.unlinkat 0 "f.partial"), .ok ()⟩,
    ⟨.base (.addFinished 1), ()⟩, ⟨.base (.releaseDir 0), ()⟩,
    ⟨.base (.releasePath (some "f.partial")), ()⟩, ⟨.base (.releasePath (some "f")), ()⟩]

theorem refused_run : ((finishRaw false replaceJob).run refusedEnv []).2 = refusedTrace := by
  rfl

theorem replaceJob_names : WellFormed replaceJob ∧ dstRemoteName replaceJob = "f" ∧
    dstFileName replaceJob = "f.partial" := by
  refine ⟨⟨fun p hp => ⟨".partial", (Option.some.inj hp).symm, by decide, by decide⟩, ?_⟩, ?_, ?_⟩
  · exact fun h => by cases h
  · decide +kernel
  · decide +kernel

theorem refused_consistent :
    Protocol.Consistent rawEffect rawTruthful replaceDir refusedTrace := by
  simp [refusedTrace, Protocol.Consistent, rawTruthful, Truthful, replaceDir]

/-- Between the two calls nothing is there, and nothing stays there. -/
theorem old_entry_lost : ¬ ∀ (env : Raw.Environment) (pa : Bool) (job : FileCopyJob)
    (d : Directory) (old new : Statx), WellFormed job → job.partialRef.isSome = true →
    d (dstRemoteName job) = some old → isDirectory old.stx_mode = false →
    d (dstFileName job) = some new →
    Protocol.Consistent rawEffect rawTruthful d ((finishRaw pa job).run env []).2 →
    (∀ k, ∃ a, (((finishRaw pa job).run env []).2.take k).foldl rawEffect d
      (dstRemoteName job) = some a ∧ (a = old ∨ SameFile new a ∧ Complete job new)) ∧
    (renameFailed ((finishRaw pa job).run env []).2 = true →
      ((finishRaw pa job).run env []).2.foldl rawEffect d (dstRemoteName job) = some old) := by
  intro h
  obtain ⟨hwf, hremote, hfile⟩ := replaceJob_names
  have hlost := (h refusedEnv false replaceJob replaceDir oldEntry newFile hwf rfl
    (by rw [hremote]; rfl) (by decide) (by rw [hfile]; rfl)
    (by rw [refused_run]; exact refused_consistent)).2
  rw [refused_run, hremote] at hlost
  have hgone : refusedTrace.foldl rawEffect replaceDir "f" = none := by decide +kernel
  have := hlost (by decide +kernel)
  rw [hgone] at this
  cases this

theorem replacement_sample :
    refusedTrace.foldl rawEffect replaceDir "f" = some oldEntry ↔ unlinked refusedTrace = false := by
  obtain ⟨hwf, hremote, hfile⟩ := replaceJob_names
  have hfailed : renameFailed refusedTrace = true := by decide +kernel
  have hold : replaceDir (dstRemoteName replaceJob) = some oldEntry := by rw [hremote]; rfl
  have hnew : replaceDir (dstFileName replaceJob) = some newFile := by rw [hfile]; rfl
  have := (replacement refusedEnv false hwf rfl hold (by decide) hnew
    (by rw [refused_run]; exact refused_consistent)).2
  rw [refused_run, hremote] at this
  exact this hfailed

end Copy2.Finish
