import Copy2.Finish.Directory

/-! # The metadata of a finished job

Each call is left out when the field that it sets was right at the examination. When all
calls work, the fields are right in the end, but for the mode: the change of owner may
have taken bits from a mode that was right. -/
namespace Copy2.Finish
open FileJob Lib Os

/-- The calls that change the destination, and its examination, have worked. -/
def Worked : Sys.Event → Prop
  | ⟨.statx .., .error _⟩ | ⟨.ftruncate .., .error _⟩ | ⟨.renameat .., .error _⟩
  | ⟨.utimensat .., .error _⟩ | ⟨.fchownat .., .error _⟩ | ⟨.fchmodat .., .error _⟩ => False
  | _ => True

structure MetadataEquals (src a : Statx) : Prop where
  uid : a.stx_uid = src.stx_uid
  gid : a.stx_gid = src.stx_gid
  mtime : a.stx_mtime.tv_sec = src.stx_mtime.tv_sec
  mode : isLnk src.stx_mode = false → a.stx_mode = src.stx_mode

/-- The entry under the final name has the metadata of the source. -/
def Finished (job : FileCopyJob) (d : Directory) : Prop :=
  ∃ a, d (dstRemoteName job) = some a ∧ MetadataEquals job.stx a

/-- The checks of the destination. -/
def Accepted (job : FileCopyJob) (dst : Statx) : Prop :=
  (isReg job.stx.stx_mode = true → dst.stx_size = job.stx.stx_size) ∧ job.nErrors = 0

def ownerDiffers (src dst : Statx) : Bool :=
  dst.stx_uid != src.stx_uid || dst.stx_gid != src.stx_gid

section stages
variable {d : Directory} {job : FileCopyJob} {dst : Statx} {pa : Bool}

theorem failed_every {p : Prog Sys (Except Errno Unit)} {f : Directory → Directory}
    (hp : p.Every fun r l => (∀ e ∈ l, Worked e) →
      r = .ok () ∧ ∀ d, l.foldl effect d = f d) (wanted : Bool) :
    (failed wanted p).Every fun bad l => (∀ e ∈ l, Worked e) →
      bad = false ∧ ∀ d, l.foldl effect d = if wanted then f d else d := by
  rw [failed]
  split
  · refine hp.bind fun r l hl => ?_
    intro hw
    rw [List.append_nil] at hw ⊢
    obtain ⟨rfl, hf⟩ := hl hw
    exact ⟨rfl, hf⟩
  · exact fun _ => ⟨rfl, fun _ => rfl⟩

/-- What the calls of `publish` make of the attributes found at the examination. -/
def utimed (pa : Bool) (src : Statx) (a : Statx) : Statx :=
  { a with
    stx_atime := (if pa then some src.stx_atime else none).getD a.stx_atime
    stx_mtime := src.stx_mtime }

def chowned (src : Statx) (a : Statx) : Statx :=
  { a with stx_uid := src.stx_uid, stx_gid := src.stx_gid, stx_mode := clearIds a.stx_mode }

def chmodded (src : Statx) (a : Statx) : Statx :=
  { a with stx_mode := chmodMode a.stx_mode src.stx_mode }

def applied (pa : Bool) (src dst : Statx) : Statx :=
  let a := if timesDiffer pa src dst then utimed pa src dst else dst
  let a := if ownerDiffers src dst then chowned src a else a
  if !isLnk src.stx_mode && dst.stx_mode != src.stx_mode then chmodded src a else a

theorem modify_self (d : Directory) (name : String) (f : Statx → Statx) :
    d.modify name f name = (d name).map f := Function.update_self _ _ _

theorem remove_every (hwf : WellFormed job) :
    (onlyIf job.partialRef.isSome (sys (.recursiveRemove (job.remote.getD "")))).Every
      fun _ l => ∀ d : Directory, l.foldl effect d (dstFileName job) = d (dstFileName job) := by
  cases hp : job.partialRef.isSome with
  | false => exact fun d => rfl
  | true =>
    intro r d
    have hne : dstFileName job ≠ baseName (job.remote.getD "") := by
      rw [hwf.remote hp]
      exact hwf.distinct hp
    rw [List.foldl_cons, List.foldl_nil, effect, Function.update_of_ne hne]

theorem rename_every (job : FileCopyJob) :
    (failed job.partialRef.isSome (sys (.renameat job.dstDirFD (dstFileName job)
      (dstRemoteName job)))).Every fun bad l => (∀ e ∈ l, Worked e) → bad = false ∧
        ∀ d : Directory, l.foldl effect d (dstRemoteName job) = d (dstFileName job) := by
  have hcall : (sys (.renameat job.dstDirFD (dstFileName job) (dstRemoteName job))).Every
      fun r l => (∀ e ∈ l, Worked e) → r = .ok () ∧ ∀ d : Directory, l.foldl effect d =
        Function.update (Function.update d (dstFileName job) none) (dstRemoteName job)
          (d (dstFileName job)) := by
    intro r
    cases r with
    | error e => exact fun hw => False.elim (List.forall_mem_singleton.mp hw)
    | ok u => exact fun _ => ⟨rfl, fun d => rfl⟩
  refine (failed_every hcall _).mono fun bad l hl hw => ?_
  obtain ⟨rfl, hf⟩ := hl hw
  refine ⟨rfl, fun d => ?_⟩
  rw [hf d]
  split
  · exact Function.update_self _ _ _
  · rename_i hp
    rw [dstFileName_of_none (by simpa using hp)]

/-- A call that changes the attributes of one entry. -/
theorem modify_every {p : Prog Sys (Except Errno Unit)} {name : String} {f : Statx → Statx}
    (hp : p.Every fun r l => (∀ e ∈ l, Worked e) →
      r = .ok () ∧ ∀ d : Directory, l.foldl effect d = d.modify name f) (wanted : Bool) :
    (failed wanted p).Every fun bad l => (∀ e ∈ l, Worked e) → bad = false ∧
      ∀ (d : Directory) a, d name = some a →
        l.foldl effect d name = some (if wanted then f a else a) := by
  refine (failed_every hp wanted).mono fun bad l hl hw => ?_
  obtain ⟨rfl, hf⟩ := hl hw
  refine ⟨rfl, fun d a ha => ?_⟩
  rw [hf d]
  split
  · rw [modify_self, ha]
    rfl
  · exact ha

theorem utimensat_every (pa : Bool) (job : FileCopyJob) (wanted : Bool) :
    (failed wanted (sys (.utimensat job.dstDirFD (dstRemoteName job)
      (if pa then some job.stx.stx_atime else none) job.stx.stx_mtime))).Every
      fun bad l => (∀ e ∈ l, Worked e) → bad = false ∧
        ∀ (d : Directory) a, d (dstRemoteName job) = some a →
          l.foldl effect d (dstRemoteName job) =
            some (if wanted then utimed pa job.stx a else a) := by
  refine modify_every ?_ _
  intro r
  cases r with
  | error e => exact fun hw => False.elim (List.forall_mem_singleton.mp hw)
  | ok u => exact fun _ => ⟨rfl, fun d => rfl⟩

theorem fchownat_every (job : FileCopyJob) (wanted : Bool) :
    (failed wanted (sys (.fchownat job.dstDirFD (dstRemoteName job) job.stx.stx_uid
      job.stx.stx_gid))).Every fun bad l => (∀ e ∈ l, Worked e) → bad = false ∧
        ∀ (d : Directory) a, d (dstRemoteName job) = some a →
          l.foldl effect d (dstRemoteName job) =
            some (if wanted then chowned job.stx a else a) := by
  refine modify_every ?_ _
  intro r
  cases r with
  | error e => exact fun hw => False.elim (List.forall_mem_singleton.mp hw)
  | ok u => exact fun _ => ⟨rfl, fun d => rfl⟩

theorem fchmodat_every (job : FileCopyJob) (wanted : Bool) :
    (failed wanted (sys (.fchmodat job.dstDirFD (dstRemoteName job) job.stx.stx_mode))).Every
      fun bad l => (∀ e ∈ l, Worked e) → bad = false ∧
        ∀ (d : Directory) a, d (dstRemoteName job) = some a →
          l.foldl effect d (dstRemoteName job) =
            some (if wanted then chmodded job.stx a else a) := by
  refine modify_every ?_ _
  intro r
  cases r with
  | error e => exact fun hw => False.elim (List.forall_mem_singleton.mp hw)
  | ok u => exact fun _ => ⟨rfl, fun d => rfl⟩

/-- When all works, the new entry has the attributes that the calls give it. -/
theorem publish_every (hwf : WellFormed job) :
    (publish pa job dst).Every fun out l => (∀ e ∈ l, Worked e) → out = ⟨true, true⟩ ∧
      ∀ d : Directory, d (dstFileName job) = some dst →
        l.foldl effect d (dstRemoteName job) = some (applied pa job.stx dst) := by
  refine (remove_every hwf).bind fun _ l₀ h₀ => ?_
  refine (rename_every job).bind fun bad l₁ h₁ => ?_
  cases bad with
  | true => exact fun hw => by simpa using (h₁ fun e he => hw e (by simp [he])).1
  | false =>
    refine (utimensat_every pa job _).bind fun bad l₂ h₂ => ?_
    cases bad with
    | true => exact fun hw => by simpa using (h₂ fun e he => hw e (by simp [he])).1
    | false =>
      refine (fchownat_every job _).bind fun bad l₃ h₃ => ?_
      cases bad with
      | true => exact fun hw => by simpa using (h₃ fun e he => hw e (by simp [he])).1
      | false =>
        refine (fchmodat_every job _).bind fun bad l₄ h₄ => ?_
        cases bad with
        | true => exact fun hw => by simpa using (h₄ fun e he => hw e (by simp [he])).1
        | false =>
          refine Prog.Every.mono (S := fun out l₅ => (out = ⟨true, true⟩ ∧ ∀ d : Directory,
            l₅.foldl effect d = d)) ?_ ?_
          · show Prog.Every _ (if 1 < job.stx.stx_nlink then _ else _)
            split
            · intro n u
              exact ⟨rfl, fun d => rfl⟩
            · exact ⟨rfl, fun d => rfl⟩
          · rintro out l₅ ⟨rfl, h₅⟩ hw
            refine ⟨rfl, fun d hd => ?_⟩
            simp only [List.foldl_append, h₅]
            have e₁ := (h₁ fun e he => hw e (by simp [he])).2 (l₀.foldl effect d)
            rw [h₀, hd] at e₁
            have e₂ := (h₂ fun e he => hw e (by simp [he])).2 _ _ e₁
            have e₃ := (h₃ fun e he => hw e (by simp [he])).2 _ _ e₂
            exact (h₄ fun e he => hw e (by simp [he])).2 _ _ e₃

/-- A job that is not accepted leaves the entry under the final name alone. -/
theorem checkAndPublish_every (hwf : WellFormed job) (hdst : d (dstFileName job) = some dst) :
    (checkAndPublish pa job).Every fun out l => (∀ e ∈ l, Worked e) →
      Protocol.Consistent effect Truthful d l →
      (Accepted job dst → out = ⟨true, true⟩ ∧
        l.foldl effect d (dstRemoteName job) = some (applied pa job.stx dst)) ∧
      (¬ Accepted job dst → out = ⟨false, false⟩ ∧ l.foldl effect d = d) := by
  intro r
  cases r with
  | error e => exact fun hw => False.elim (hw _ List.mem_cons_self)
  | ok a =>
    have accept : ∀ l : List Sys.Event, Protocol.Consistent effect Truthful d
        (⟨.statx job.dstDirFD (dstFileName job), .ok a⟩ :: l) → a = dst := fun l hc =>
      Option.some.inj (hc.1.symm.trans hdst)
    show Prog.Every _ (ite _ _ _)
    split
    · rename_i hsize
      intro _ hc
      obtain rfl := accept _ hc
      simp only [Bool.and_eq_true, bne_iff_ne, ne_eq] at hsize
      exact ⟨fun h => absurd (h.1 hsize.1) hsize.2, fun _ => ⟨rfl, rfl⟩⟩
    · rename_i hsize
      simp only [Bool.and_eq_true, bne_iff_ne, ne_eq, not_and, not_not] at hsize
      split
      · rename_i herr
        intro _ hc
        obtain rfl := accept _ hc
        exact ⟨fun h => absurd h.2 herr, fun _ => ⟨rfl, rfl⟩⟩
      · rename_i herr
        refine (publish_every hwf).bind fun out l hl => ?_
        have hadd : (onlyIf (isReg job.stx.stx_mode && out.fileJobSuccess && job.firstLook)
            (sys (.addBytesTransferred job.stx.stx_size job.actuallyTransferred))).Every
            fun _ l' => ∀ d : Directory, l'.foldl effect d = d := by
          cases isReg job.stx.stx_mode && out.fileJobSuccess && job.firstLook with
          | false => exact fun d => rfl
          | true => exact fun _ d => rfl
        refine hadd.bind fun _ l' hl' => ?_
        intro hw hc
        obtain rfl := accept _ hc
        obtain ⟨rfl, he⟩ := hl fun e he => hw e (by simp [he])
        refine ⟨fun _ => ⟨rfl, ?_⟩, fun h => absurd ⟨hsize, by simpa using herr⟩ h⟩
        simp only [List.append_nil, List.foldl_cons, List.foldl_append, hl']
        exact he d hdst

theorem closeFiles_every (job : FileCopyJob) :
    (closeFiles job).Every fun job' l => (∀ e ∈ l, Worked e) →
      job' = job ∧ ∀ d : Directory, l.foldl effect d = d := by
  have hclose : (onlyIf (0 ≤ job.srcFd) (sys (.close job.srcFd))).Every
      fun _ l => ∀ d : Directory, l.foldl effect d = d := by
    cases decide (0 ≤ job.srcFd) with
    | false => exact fun d => rfl
    | true => exact fun _ d => rfl
  refine hclose.bind fun _ l hl => ?_
  split
  · have htruncate : (sys (.ftruncate job.dstFd job.stx.stx_size)).Every
        fun r l => (∀ e ∈ l, Worked e) → r = .ok () ∧ ∀ d : Directory, l.foldl effect d = d := by
      intro r
      cases r with
      | error e => exact fun hw => False.elim (List.forall_mem_singleton.mp hw)
      | ok u => exact fun _ => ⟨rfl, fun d => rfl⟩
    refine (failed_every htruncate _).bind fun bad l' hl' u hw => ?_
    obtain ⟨rfl, hf⟩ := hl' fun e he => hw e (by simp [he])
    refine ⟨rfl, fun d => ?_⟩
    simp only [List.foldl_append, hl, hf, ite_self]
    rfl
  · exact fun _ => ⟨rfl, fun d => by rw [List.append_nil, hl]⟩

end stages

theorem and_full {m : ℕ} (h : m < 2 ^ 16) : (m &&& sIfmt) ||| (m &&& 0o7777) = m := by
  rw [← Nat.and_or_distrib_left]
  exact (Nat.and_two_pow_sub_one_eq_mod m 16).trans (Nat.mod_eq_of_lt h)

theorem xor_eq_self {m k : ℕ} : m ^^^ k = m ↔ k = 0 := by
  constructor
  · intro h
    have : m ^^^ (m ^^^ k) = m ^^^ m := congrArg _ h
    rwa [← Nat.xor_assoc, Nat.xor_self, Nat.zero_xor] at this
  · rintro rfl
    exact Nat.xor_zero m

/-- A change of owner takes nothing from the mode. -/
theorem clearIds_eq_self {mode : ℕ} :
    clearIds mode = mode ↔ isReg mode = false ∨ mode &&& idBits mode = 0 := by
  rw [clearIds]
  cases isReg mode with
  | false => simp
  | true => simpa using xor_eq_self

/-- A change of owner leaves the type alone. -/
theorem clearIds_type (mode : ℕ) : clearIds mode &&& sIfmt = mode &&& sIfmt := by
  have hbits : idBits mode &&& sIfmt = 0 := by
    rw [idBits]
    split <;> rfl
  rw [clearIds]
  split
  · rw [Nat.and_xor_distrib_right, Nat.and_assoc, hbits, Nat.and_zero, Nat.xor_zero]
  · rfl

/-- The mode is right in the end: a link has none; it is set; or nothing is taken from it. -/
def ModeKept (src dst : Statx) : Prop :=
  isLnk src.stx_mode = true ∨
    dst.stx_mode ≠ src.stx_mode ∧ dst.stx_mode &&& sIfmt = src.stx_mode &&& sIfmt ∨
    dst.stx_mode = src.stx_mode ∧ (ownerDiffers src dst = false ∨ isReg src.stx_mode = false ∨
      src.stx_mode &&& idBits src.stx_mode = 0)

theorem applied_mode {pa : Bool} {src dst : Statx} (hlnk : isLnk src.stx_mode = false) :
    (applied pa src dst).stx_mode =
      let mode := if ownerDiffers src dst then clearIds dst.stx_mode else dst.stx_mode
      if dst.stx_mode = src.stx_mode then mode else chmodMode mode src.stx_mode := by
  simp only [applied, hlnk, Bool.not_false, Bool.true_and]
  by_cases hmode : dst.stx_mode = src.stx_mode
  · simp only [hmode, bne_self_eq_false, Bool.false_eq_true, if_false, if_true]
    split <;> split <;> simp [chowned, utimed, hmode]
  · rw [if_pos (bne_iff_ne.mpr hmode), if_neg hmode, chmodded]
    split <;> split <;> rfl

theorem applied_owner {pa : Bool} {src dst : Statx} :
    (applied pa src dst).stx_uid = src.stx_uid ∧ (applied pa src dst).stx_gid = src.stx_gid := by
  have howner : ownerDiffers src dst = false →
      dst.stx_uid = src.stx_uid ∧ dst.stx_gid = src.stx_gid := by
    simp [ownerDiffers]
  cases ho : ownerDiffers src dst with
  | true =>
    simp only [applied, ho, if_true]
    split <;> exact ⟨rfl, rfl⟩
  | false =>
    simp only [applied, ho, Bool.false_eq_true, if_false]
    split <;> split <;> exact howner ho

theorem applied_mtime {pa : Bool} {src dst : Statx} :
    (applied pa src dst).stx_mtime.tv_sec = src.stx_mtime.tv_sec := by
  have htimes : timesDiffer pa src dst = false →
      dst.stx_mtime.tv_sec = src.stx_mtime.tv_sec := fun h => by
    simp only [timesDiffer, Bool.or_eq_false_iff, bne_eq_false_iff_eq] at h
    exact h.1
  cases ht : timesDiffer pa src dst with
  | true =>
    simp only [applied, ht, if_true]
    split <;> split <;> rfl
  | false =>
    simp only [applied, ht, Bool.false_eq_true, if_false]
    split <;> split <;> exact htimes ht

theorem chmodMode_eq {mode new : ℕ} (hnew : new < 2 ^ 16) (hlnk : isLnk new = false) :
    chmodMode mode new = new ↔ mode &&& sIfmt = new &&& sIfmt := by
  have hand : ((mode &&& sIfmt) ||| (new &&& 0o7777)) &&& sIfmt = mode &&& sIfmt := by
    rw [Nat.and_or_distrib_right, Nat.and_assoc, Nat.and_assoc]
    simp [sIfmt]
  constructor
  · intro h
    rw [chmodMode] at h
    split at h
    · rw [h]
    · rw [← h, hand]
  · intro h
    have hl : isLnk mode = false := by rwa [isLnk, h]
    rw [chmodMode, hl, if_neg (by simp), h, and_full hnew]

theorem applied_iff {pa : Bool} {src dst : Statx} (hsrc : src.stx_mode < 2 ^ 16) :
    MetadataEquals src (applied pa src dst) ↔ ModeKept src dst := by
  have hfields : MetadataEquals src (applied pa src dst) ↔
      (isLnk src.stx_mode = false → (applied pa src dst).stx_mode = src.stx_mode) :=
    ⟨fun h => h.mode, fun h => ⟨applied_owner.1, applied_owner.2, applied_mtime, h⟩⟩
  rw [hfields, ModeKept]
  cases hlnk : isLnk src.stx_mode with
  | true => simp
  | false =>
    simp only [forall_const, Bool.false_eq_true, false_or]
    rw [applied_mode hlnk]
    by_cases hmode : dst.stx_mode = src.stx_mode
    · simp only [hmode, if_true, ne_eq, not_true_eq_false, false_and, true_and, false_or]
      cases ownerDiffers src dst with
      | false => simp
      | true => simpa using clearIds_eq_self
    · simp only [hmode, if_false, ne_eq, not_false_eq_true, false_and, true_and, or_false]
      rw [chmodMode_eq hsrc hlnk]
      cases ownerDiffers src dst with
      | false => simp
      | true => simp [clearIds_type]

/-- The end of the job does not touch the entry under the final name. -/
theorem cleanUp_every {job : FileCopyJob} (hwf : WellFormed job) (out : Outcome) :
    (do
      let _ ← failed (!out.partialDeleted && job.partialRef.isSome)
        (sys (.unlinkat job.dstDirFD (dstFileName job)))
      sys (.addFinished 1)
      sys (.releaseDir job.dstDirFD)
      sys (.releasePath job.partialRef)
      sys (.releasePath job.remote) : Prog Sys Unit).Every
    fun _ l => ∀ d : Directory, l.foldl effect d (dstRemoteName job) = d (dstRemoteName job) := by
  cases hp : job.partialRef.isSome with
  | false =>
    rw [Bool.and_false]
    exact fun _ _ _ _ d => rfl
  | true =>
    cases out.partialDeleted with
    | true => exact fun _ _ _ _ d => rfl
    | false =>
      intro r
      cases r with
      | error e => exact fun _ _ _ _ d => rfl
      | ok u =>
        intro _ _ _ _ d
        simp only [List.foldl_cons, List.foldl_nil, effect]
        exact Function.update_of_ne (hwf.distinct hp).symm _ _

theorem finishProcessorOne_every {pa : Bool} {job : FileCopyJob} {d : Directory} {dst : Statx}
    (hwf : WellFormed job) (hsrc : job.stx.stx_mode < 2 ^ 16)
    (hdst : d (dstFileName job) = some dst) :
    (finishProcessorOne pa job).Every fun _ l => (∀ e ∈ l, Worked e) →
      Protocol.Consistent effect Truthful d l →
      (Finished job (l.foldl effect d) ↔ Accepted job dst ∧ ModeKept job.stx dst ∨
        ¬ Accepted job dst ∧ Finished job d) := by
  refine (closeFiles_every job).bind fun job' l₀ h₀ => ?_
  by_cases hjob : job' = job
  · subst hjob
    refine (checkAndPublish_every hwf hdst).bind fun out l₁ h₁ => ?_
    refine (cleanUp_every hwf out).mono fun _ l₂ h₂ hw hc => ?_
    have hc₁ := hc.append.2.append.1
    rw [(h₀ fun e he => hw e (by simp [he])).2] at hc₁
    obtain ⟨haccept, hreject⟩ := h₁ (fun e he => hw e (by simp [he])) hc₁
    have hfinished : Finished job' ((l₀ ++ (l₁ ++ l₂)).foldl effect d) ↔
        Finished job' (l₁.foldl effect d) := by
      rw [Finished, List.foldl_append, List.foldl_append, h₂,
        (h₀ fun e he => hw e (by simp [he])).2]
      rfl
    rw [hfinished]
    by_cases ha : Accepted job' dst
    · rw [Finished, (haccept ha).2]
      simp [ha, applied_iff hsrc]
    · rw [(hreject ha).2]
      simp [ha]
  · refine .of_forall _ fun _ l hw => absurd (h₀ fun e he => hw e (by simp [he])).1 hjob

/-- In every run in which the calls work: the metadata of the source is on the entry under
the final name if and only if the mode has been set or has lost nothing, or the job was
not accepted and the entry had the metadata before. -/
theorem finished_iff (env : Sys.Environment) {pa : Bool} {job : FileCopyJob} {d : Directory}
    {dst : Statx} (hwf : WellFormed job) (hsrc : job.stx.stx_mode < 2 ^ 16)
    (hdst : d (dstFileName job) = some dst)
    (hworked : ∀ e ∈ ((finishProcessorOne pa job).run env []).2, Worked e)
    (hstat : Protocol.Consistent effect Truthful d ((finishProcessorOne pa job).run env []).2) :
    Finished job (((finishProcessorOne pa job).run env []).2.foldl effect d) ↔
      Accepted job dst ∧ ModeKept job.stx dst ∨ ¬ Accepted job dst ∧ Finished job d :=
  (finishProcessorOne_every hwf hsrc hdst).run_nil hworked hstat

def ownedSrc : Statx := { stx_mode := 0o104755, stx_nlink := 1, stx_uid := 0, stx_size := 1 }

def ownedDst : Statx := { ownedSrc with stx_uid := 1000 }

/-- An up-to-date file, but for its owner. -/
def ownedJob : FileCopyJob :=
  { firstLook := true, remote := some "f", stx := ownedSrc, srcFd := -1, dstFd := -1 }

def ownedDir : Directory := fun name => if name = "f" then some ownedDst else none

def ownedEnv : Sys.Environment := fun _ c => c.succeed ownedDst

def ownedTrace : List Sys.Event :=
  [⟨.statx 0 "f", .ok ownedDst⟩, ⟨.fchownat 0 "f" 0 0, .ok ()⟩, ⟨.addBytesTransferred 1 false, ()⟩,
    ⟨.addFinished 1, ()⟩, ⟨.releaseDir 0, ()⟩, ⟨.releasePath none, ()⟩,
    ⟨.releasePath (some "f"), ()⟩]

theorem owned_run : ((finishProcessorOne false ownedJob).run ownedEnv []).2 = ownedTrace := by
  rfl

theorem setuid_lost : ¬ ∀ (env : Sys.Environment) (pa : Bool) (job : FileCopyJob)
    (d : Directory) (dst : Statx), WellFormed job → job.stx.stx_mode < 2 ^ 16 →
    d (dstFileName job) = some dst → Accepted job dst →
    (∀ e ∈ ((finishProcessorOne pa job).run env []).2, Worked e) →
    Protocol.Consistent effect Truthful d ((finishProcessorOne pa job).run env []).2 →
    Finished job (((finishProcessorOne pa job).run env []).2.foldl effect d) := by
  intro h
  have hwf : WellFormed ownedJob := ⟨fun p hp => (by cases hp), fun hd => (by cases hd)⟩
  have hname : dstFileName ownedJob = "f" := by decide +kernel
  have hremote : dstRemoteName ownedJob = "f" := by decide +kernel
  have hdst : ownedDir (dstFileName ownedJob) = some ownedDst := by rw [hname]; rfl
  have := h ownedEnv false ownedJob ownedDir ownedDst hwf (by decide) hdst ⟨fun _ => rfl, rfl⟩
  rw [owned_run] at this
  obtain ⟨a, ha, heq⟩ := this (by simp [ownedTrace, Worked]) ⟨by simp [Truthful, ownedDir], by
    simp [Truthful, Protocol.Consistent]⟩
  have hmode := heq.mode (by decide)
  have hlost : (ownedTrace.foldl effect ownedDir "f").map Statx.stx_mode = some 0o100755 := by
    decide +kernel
  rw [hremote] at ha
  rw [ha, Option.map_some, hmode] at hlost
  revert hlost
  decide

def otherDst : Statx :=
  { ownedSrc with stx_uid := 1000, stx_mode := 0o100600, stx_mtime := { tv_sec := 7 } }

def otherDir : Directory := fun name => if name = "f" then some otherDst else none

def otherEnv : Sys.Environment := fun _ c => c.succeed otherDst

def otherTrace : List Sys.Event :=
  [⟨.statx 0 "f", .ok otherDst⟩, ⟨.utimensat 0 "f" none {}, .ok ()⟩, ⟨.fchownat 0 "f" 0 0, .ok ()⟩,
    ⟨.fchmodat 0 "f" 0o104755, .ok ()⟩] ++ ownedTrace.drop 2

theorem other_run : ((finishProcessorOne false ownedJob).run otherEnv []).2 = otherTrace := by
  rfl

/-- The mode is set after the owner, and so it stays. -/
theorem finished_iff_sample :
    ⟨.fchownat 0 "f" 0 0, .ok ()⟩ ∈ ((finishProcessorOne false ownedJob).run otherEnv []).2 ∧
    ⟨.fchmodat 0 "f" 0o104755, .ok ()⟩ ∈ ((finishProcessorOne false ownedJob).run otherEnv []).2 ∧
    Finished ownedJob
      (((finishProcessorOne false ownedJob).run otherEnv []).2.foldl effect otherDir) := by
  have hname : dstFileName ownedJob = "f" := by decide +kernel
  have hwf : WellFormed ownedJob := ⟨fun p hp => (by cases hp), fun hd => (by cases hd)⟩
  have hdst : otherDir (dstFileName ownedJob) = some otherDst := by rw [hname]; rfl
  refine ⟨by simp [other_run, otherTrace], by simp [other_run, otherTrace],
    (finished_iff otherEnv hwf (by decide) hdst ?_ ?_).mpr (.inl ⟨⟨fun _ => rfl, rfl⟩, ?_⟩)⟩
  · simp [other_run, otherTrace, ownedTrace, Worked]
  · rw [other_run]
    exact ⟨by simp [Truthful, otherDir],
      by simp [ownedTrace, Truthful, Protocol.Consistent]⟩
  · exact .inr (.inl (by decide))

end Copy2.Finish
