import Copy2.Scheduler.ContentSteps

/-! # A copy without failures is exact

As long as every request is carried out in full and nobody else touches the files of a
job, every job on the finish queue has, once truncated, the bytes of its source and no
errors, whatever the order of submissions and completions. -/
namespace Copy2.Scheduler
open FileJob Lib

variable {nFile nBlock n : ℕ}

def Uses (job : FileCopyJob) (fd : Fd) : Prop := fd = job.srcFd ∨ fd = job.dstFd

namespace Fleet
variable (w : Fleet n nFile nBlock)

def job (k : Fin n) (f : Fin nFile) : FileCopyJob := (w.scheds k).fileCopyJobs f

/-- A descriptor is open for a job that is being copied or waits to be finished. -/
def Live (fd : Fd) : Prop :=
  (∃ k f, (w.job k f).active = true ∧ Uses (w.job k f) fd) ∨
    ∃ e ∈ w.shared.finishQueue, Uses e.1 fd

/-- A job as the crawl puts it on the job queue: its descriptors are new, the source has
the size it was found to have, and the destination has just been extended with zeros. -/
structure Fresh (job : FileCopyJob) : Prop where
  accepts : Accepts job
  aligned : directIoAlign ∣ job.blockSize
  distinct : job.srcFd ≠ job.dstFd
  unused : ∀ fd, Uses job fd → ¬ w.Live fd
  src : (w.shared.files job.srcFd).size = job.stx.stx_size
  dst : w.shared.files job.dstFd =
    ByteFile.empty.ftruncate (alignUp job.stx.stx_size directIoAlign)

/-- Nothing fails: requests are submitted, possibly some at a time, complete with their full
byte count, and the open files are left to the schedulers. -/
def Faithful (a : Fin n × Op nFile nBlock) : Prop :=
  match a.2 with
  | .accept _ newJob => w.Fresh newJob
  | .submit submitted => 0 ≤ submitted
  | .complete s res => ∀ cb, (s, cb) ∈ (w.scheds a.1).held → res = cb.nbytes
  | .environment files => ∀ fd, w.Live fd → files fd = w.shared.files fd
  | _ => True

def Same (w' : Fleet n nFile nBlock) (k : Fin n) (f : Fin nFile) : Prop :=
  (w.job k f).active = true ∧ (w'.job k f).srcFd = (w.job k f).srcFd ∧
    (w'.job k f).dstFd = (w.job k f).dstFd

def New (w' : Fleet n nFile nBlock) (k : Fin n) (f : Fin nFile) : Prop :=
  ∀ fd, Uses (w'.job k f) fd → ¬ w.Live fd

variable {w} {w' : Fleet n nFile nBlock} {k : Fin n} {f : Fin nFile} {fd : Fd}

theorem Same.uses (h : w.Same w' k f) (hu : Uses (w'.job k f) fd) : Uses (w.job k f) fd := by
  rwa [Uses, h.2.1, h.2.2] at hu

theorem Same.live (h : w.Same w' k f) (hu : Uses (w'.job k f) fd) : w.Live fd :=
  .inl ⟨k, f, h.1, h.uses hu⟩

end Fleet

theorem Current.of_agreesOff {d d' : CopyScheduler nFile nBlock} {s : Slot nFile nBlock}
    (h : Current d) (hs : s ∉ d.pending) (ha : d.AgreesOff d' s) : Current d' := by
  intro e he
  rw [ha.1] at he
  have hne : e.1 ≠ s := fun heq =>
    hs (List.mem_append_right _ (List.mem_map.mpr ⟨e, he, heq⟩))
  rw [ha.2 e.1 hne]
  exact h e he

structure Exact (cfg : Config) (w : Fleet n nFile nBlock) : Prop where
  content : ∀ k, SchedContent cfg (w.view k)
  current : ∀ k, Current (w.scheds k)
  owner : ∀ k k' s s' p, (w.scheds k).data s = some p → (w.scheds k').data s' = some p → k = k'
  apart : ∀ k f k' f', (w.job k f).active = true → (w.job k' f').active = true →
    (k, f) ≠ (k', f') → ¬ Uses (w.job k' f') (w.job k f).dstFd
  queue : ∀ e ∈ w.shared.finishQueue, Delivered w.shared e.1 ∧
    ∀ k f, (w.job k f).active = true → ¬ Uses e.1 (w.job k f).dstFd

namespace Exact
variable {cfg : Config} {w : Fleet n nFile nBlock} {k : Fin n} {st' : State nFile nBlock}

theorem separate (h : Exact cfg w) (k : Fin n) : Separate (w.view k).sched := by
  intro f g hf hg hne
  have hapart := h.apart k f k g hf hg (by simpa using hne)
  exact ⟨fun he => hapart (.inr he), fun he => hapart (.inl he)⟩

/-- What the other schedulers see of a step leaves their content alone. -/
theorem content_put (h : Exact cfg w) (hadv : Advances cfg (w.view k) st') (k' : Fin n) :
    SchedContent cfg ((w.put k st').view k') := by
  by_cases hk : k' = k
  · subst hk
    rw [Fleet.view_put]
    exact hadv.1
  · have hsched : (w.put k st').scheds k' = w.scheds k' := by simp [Fleet.put, hk]
    have hkeep : ∀ s q, (w.scheds k').data s = some q →
        st'.shared.memory q = w.shared.memory q ∧ st'.shared.allocated q = true := by
      intro s q hq
      exact hadv.2.memory q ((h.content k').own.allocated s q hq)
        fun t ht => hk (h.owner k k' t s q ht hq).symm
    have hfiles : ∀ f fd, (w.job k' f).active = true → Uses (w.job k' f) fd →
        st'.shared.files fd = w.shared.files fd := by
      intro f fd hf hfd
      refine hadv.2.files fd fun g hg he => ?_
      exact h.apart k g k' f hg hf (by simp [Ne.symm hk]) (he ▸ hfd)
    have hview : (w.put k st').view k' = ⟨w.scheds k', st'.shared⟩ := by
      rw [Fleet.view, hsched]
      rfl
    rw [hview]
    refine ⟨⟨fun s q hq => (hkeep s q hq).2, (h.content k').own.injective⟩, (h.content k').idle, ?_⟩
    intro f hf
    exact ((h.content k').job f hf).frame (hfiles f _ hf (.inl rfl)) (hfiles f _ hf (.inr rfl))
      fun j _ => SharedState.load_congr fun q hq => (hkeep (f, j) q hq).1

/-- A step of one scheduler keeps the copy exact, if it accepts at most one job, with new
descriptors, and delivers what it puts on the finish queue. -/
theorem put (h : Exact cfg w) (hadv : Advances cfg (w.view k) st') (hcur : Current st'.sched)
    (hjobs : ∀ k' f, ((w.put k st').job k' f).active = true → w.Same (w.put k st') k' f ∨
      w.New (w.put k st') k' f ∧ ∀ k'' f', ((w.put k st').job k'' f').active = true →
        (k'', f') ≠ (k', f) → w.Same (w.put k st') k'' f')
    (hqueue : ∀ e ∈ st'.shared.finishQueue, e ∈ w.shared.finishQueue ∨
      Delivered st'.shared e.1 ∧ ∃ k' f, (w.job k' f).active = true ∧
        ((w.put k st').job k' f).active = false ∧ ∀ fd, Uses e.1 fd → Uses (w.job k' f) fd) :
    Exact cfg (w.put k st') where
  content := h.content_put hadv
  current k' := by
    by_cases hk : k' = k
    · subst hk
      simpa [Fleet.put] using hcur
    · simpa [Fleet.put, hk] using h.current k'
  owner := by
    have hput : ∀ k' s q, ((w.put k st').scheds k').data s = some q →
        (∃ s', (w.scheds k').data s' = some q) ∨ k' = k ∧ w.shared.allocated q = false := by
      intro k' s q hq
      by_cases hk : k' = k
      · subst hk
        simp only [Fleet.put, Function.update_self] at hq
        exact (hadv.2.fresh s q hq).imp id fun hfree => ⟨rfl, hfree⟩
      · simp only [Fleet.put, Function.update_of_ne hk] at hq
        exact .inl ⟨s, hq⟩
    intro k₁ k₂ s₁ s₂ q h₁ h₂
    rcases hput k₁ s₁ q h₁ with ⟨t₁, h₁⟩ | ⟨hk₁, hfree⟩
    · rcases hput k₂ s₂ q h₂ with ⟨t₂, h₂⟩ | ⟨hk₂, hfree⟩
      · exact h.owner k₁ k₂ t₁ t₂ q h₁ h₂
      · exact absurd h₁ ((h.content k₁).own.ne_of_free hfree t₁)
    · rcases hput k₂ s₂ q h₂ with ⟨t₂, h₂⟩ | ⟨hk₂, -⟩
      · exact absurd h₂ ((h.content k₂).own.ne_of_free hfree t₂)
      · rw [hk₁, hk₂]
  apart := by
    intro k₁ f₁ k₂ f₂ h₁ h₂ hne hu
    rcases hjobs k₁ f₁ h₁ with hsame₁ | ⟨hnew₁, hrest⟩
    · rcases hjobs k₂ f₂ h₂ with hsame₂ | ⟨hnew₂, -⟩
      · exact h.apart k₁ f₁ k₂ f₂ hsame₁.1 hsame₂.1 hne (hsame₁.2.2 ▸ hsame₂.uses hu)
      · exact hnew₂ _ hu (hsame₁.live (.inr rfl))
    · exact hnew₁ _ (.inr rfl) ((hrest k₂ f₂ h₂ hne.symm).live hu)
  queue := by
    intro e he
    rcases hqueue e he with hold | ⟨hdel, k', f, hactive, hgone, huses⟩
    · obtain ⟨hdel, hapart⟩ := h.queue e hold
      have hfiles : ∀ fd, Uses e.1 fd → st'.shared.files fd = w.shared.files fd :=
        fun fd hfd => hadv.2.files fd fun g hg he => hapart k g hg (he ▸ hfd)
      refine ⟨?_, fun k₁ f₁ h₁ hu => ?_⟩
      · change Delivered st'.shared e.1
        rw [Delivered, hfiles _ (.inl rfl), hfiles _ (.inr rfl)]
        exact hdel
      · rcases hjobs k₁ f₁ h₁ with hsame | ⟨hnew, -⟩
        · exact hapart k₁ f₁ hsame.1 (hsame.2.2 ▸ hu)
        · exact hnew _ (.inr rfl) (.inr ⟨e, hold, hu⟩)
    · refine ⟨hdel, fun k₁ f₁ h₁ hu => ?_⟩
      rcases hjobs k₁ f₁ h₁ with hsame | ⟨hnew, -⟩
      · have hne : (k₁, f₁) ≠ (k', f) := by
          rintro heq
          obtain ⟨rfl, rfl⟩ := Prod.mk.inj heq
          simp [hgone] at h₁
        exact h.apart k₁ f₁ k' f hsame.1 hactive hne (hsame.2.2 ▸ huses _ hu)
      · exact hnew _ (.inr rfl) (.inl ⟨k', f, hactive, huses _ hu⟩)

/-- Only the acceptance of a job brings new descriptors. -/
theorem same_of_apply {op : Op nFile nBlock} (hst : (w.view k).apply cfg op = some st')
    (hop : ∀ f newJob, op ≠ .accept f newJob) (k' : Fin n) (f : Fin nFile)
    (hactive : ((w.put k st').job k' f).active = true) : w.Same (w.put k st') k' f := by
  by_cases hk : k' = k
  · subst hk
    have hjob : (w.put k' st').job k' f = st'.sched.fileCopyJobs f := by
      simp [Fleet.job, Fleet.put]
    rw [hjob] at hactive
    rw [Fleet.Same, hjob]
    rcases apply_fixed hst f with hfix | ⟨-, -, -, -, hgone⟩ | ⟨newJob, heq, -⟩
    · have hact := congrArg FileCopyJob.active hfix
      have hsrc := congrArg FileCopyJob.srcFd hfix
      have hdst := congrArg FileCopyJob.dstFd hfix
      exact ⟨hact.symm.trans hactive, hsrc, hdst⟩
    · simp [hgone] at hactive
    · exact absurd heq (hop f newJob)
  · have hjob : (w.put k st').job k' f = w.job k' f := by simp [Fleet.job, Fleet.put, hk]
    rw [hjob] at hactive
    rw [Fleet.Same, hjob]
    exact ⟨hactive, rfl, rfl⟩

/-- A step that accepts no job and completes none keeps the copy exact. -/
theorem put_quiet (h : Exact cfg w) {op : Op nFile nBlock}
    (hst : (w.view k).apply cfg op = some st') (hop : ∀ f newJob, op ≠ .accept f newJob)
    (hadv : Advances cfg (w.view k) st') (hcur : Current st'.sched)
    (hqueue : st'.shared.finishQueue.Sublist w.shared.finishQueue) : Exact cfg (w.put k st') :=
  h.put hadv hcur (fun k' f hf => .inl (same_of_apply hst hop k' f hf))
    fun _ he => .inl (hqueue.subset he)

theorem updateSlot (h : Exact cfg w) (hbook : Bookkeeping (w.scheds k)) {s : Slot nFile nBlock}
    (hst : (w.view k).apply cfg (.updateSlot s) = some st') : Exact cfg (w.put k st') := by
  have happly := hst
  simp only [State.apply, Bool.and_eq_true, Option.ite_none_right_eq_some,
    Option.some.injEq] at hst
  obtain ⟨⟨hactive, huse⟩, rfl⟩ := hst
  refine h.put_quiet happly (by simp)
    ((h.content k).updateSlot hbook (h.separate k) hactive huse) ?_ ?_
  · by_cases hs : s ∈ (w.scheds k).pending
    · rw [State.update_busy (hbook.pending s hs).2]
      exact h.current k
    · exact (h.current k).of_agreesOff hs (updateSlot_others cfg)
  · rw [updateSlot_finishQueue]
    exact .refl _

theorem updateFile (h : Exact cfg w) (hbook : Bookkeeping (w.scheds k)) {f : Fin nFile}
    {malloc : Option (Ptr × (ℕ → UInt8))}
    (hst : (w.view k).apply cfg (.updateFile f malloc) = some st') : Exact cfg (w.put k st') := by
  have happly := hst
  simp only [State.apply, Option.ite_none_right_eq_some, Option.some.injEq] at hst
  obtain ⟨hactive, rfl⟩ := hst
  by_cases hdone : ((w.view k).sched.fileCopyJobs f).blockCount ≤
      ((w.view k).sched.fileCopyJobs f).nBlockJobsFinished
  · have hfree := hbook.ledger.free_of_complete hactive hdone
    have heq := State.completeOrSchedule_done malloc hdone hfree
    have hdelivered := ((h.content k).job f hactive).delivered
      (hbook.accepts f hactive).blockSize_pos hdone hfree
    have hadv : Advances cfg (w.view k) ((w.view k).completeOrSchedule f malloc) := by
      rw [heq]
      refine Advances.congr (d := (w.view k).sched.setFile f {}) ?_ rfl rfl
      exact (h.content k).replaceFile rfl rfl rfl (by simp)
    refine h.put hadv ?_ (fun k' f' hf' => .inl (same_of_apply happly (by simp) k' f' hf')) ?_
    · rw [heq]
      exact h.current k
    · intro e he
      rw [heq] at he
      rcases List.mem_append.mp he with he | he
      · exact .inl he
      · obtain rfl := List.mem_singleton.mp he
        refine .inr ⟨by rw [heq]; exact hdelivered, k, f, hactive, ?_, fun fd hfd => hfd⟩
        rw [heq]
        simp [Fleet.job, Fleet.put]
  · rcases State.completeOrSchedule_cases malloc hdone with heq | ⟨j, hfree, heq⟩
    · refine h.put_quiet happly (by simp) ?_ ?_ ?_ <;> rw [heq]
      · exact (h.content k).refl
      · exact h.current k
      · exact .refl _
    · refine h.put_quiet happly (by simp) ?_ ?_ ?_ <;> rw [heq]
      · exact (h.content k).schedule (s := (f, j)) hbook hactive hfree malloc
      · exact (h.current k).of_agreesOff (hbook.ledger.notMem_pending_of_free hfree)
          (schedule_others ⟨rfl, fun _ _ => rfl⟩ malloc false)
      · rw [schedule_finishQueue]
        exact .refl _

theorem accept (h : Exact cfg w) (hbook : Bookkeeping (w.scheds k)) {f : Fin nFile}
    {newJob : FileCopyJob} (hfresh : w.Fresh newJob)
    (hst : (w.view k).apply cfg (.accept f newJob) = some st') : Exact cfg (w.put k st') := by
  simp only [State.apply, Option.ite_none_left_eq_some, Bool.not_eq_true,
    Option.some.injEq] at hst
  obtain ⟨hinactive, rfl⟩ := hst
  have hfree : ∀ j, ((w.scheds k).row f j).inUse = false := by
    intro j
    rw [← Bool.not_eq_true]
    intro huse
    have hactive : ((w.view k).sched.fileCopyJobs f).active = true := (hbook.owner (f, j) huse).2
    simp [hinactive] at hactive
  have hjob : JobContent cfg w.shared { newJob with
      nBlockJobsScheduled := 0, nBlockJobsFinished := 0, nErrors := 0, active := true }
      ((w.scheds k).row f) := by
    refine ⟨hfresh.aligned, hfresh.distinct, hfresh.src, rfl, ?_, ?_, ?_, ?_⟩
    · intro j huse
      simp [hfree j] at huse
    · intro j j' huse
      simp [hfree j] at huse
    · intro m hm
      exact absurd hm (Nat.not_lt_zero m)
    · intro m _ i _
      rw [hfresh.dst, ByteFile.ftruncate_empty_byte]
  have hadv : Advances cfg (w.view k) ((w.view k).acceptJob f newJob) := by
    refine Advances.congr (d := (w.view k).sched.setFile f _) ?_ rfl rfl
    exact (h.content k).replaceFile rfl rfl rfl fun _ => hjob
  have hput : (w.put k ((w.view k).acceptJob f newJob)).job k f = { newJob with
      nBlockJobsScheduled := 0, nBlockJobsFinished := 0, nErrors := 0, active := true } := by
    simp [Fleet.job, Fleet.put, State.acceptJob]
  have hsame : ∀ k' f', ((w.put k ((w.view k).acceptJob f newJob)).job k' f').active = true →
      (k', f') ≠ (k, f) → w.Same (w.put k ((w.view k).acceptJob f newJob)) k' f' := by
    intro k' f' hactive hne
    have hjob' : (w.put k ((w.view k).acceptJob f newJob)).job k' f' = w.job k' f' := by
      by_cases hk : k' = k
      · subst hk
        have hf : f' ≠ f := fun he => hne (by rw [he])
        simp [Fleet.job, Fleet.put, State.acceptJob, Fleet.view, hf]
      · simp [Fleet.job, Fleet.put, hk]
    rw [hjob'] at hactive
    rw [Fleet.Same, hjob']
    exact ⟨hactive, rfl, rfl⟩
  refine h.put hadv (h.current k) (fun k' f' hactive => ?_) fun e he => .inl he
  by_cases hkf : (k', f') = (k, f)
  · obtain ⟨rfl, rfl⟩ := Prod.mk.inj hkf
    refine .inr ⟨fun fd hfd => ?_, hsame⟩
    rw [hput] at hfd
    exact hfresh.unused fd hfd
  · exact .inl (hsame k' f' hactive hkf)

theorem submit (h : Exact cfg w) {submitted : ℤ} (hpos : 0 ≤ submitted)
    (hst : (w.view k).apply cfg (.submit submitted) = some st') : Exact cfg (w.put k st') := by
  have happly := hst
  obtain rfl := Option.some.inj hst
  have hblocks : ((w.view k).schedIOSubmitBatch submitted).2 = w.view k ∨
      ((w.view k).schedIOSubmitBatch submitted).2 = { w.view k with sched := { w.scheds k with
        cbBatch := (w.scheds k).cbBatch.drop submitted.toNat
        held := (w.scheds k).held ++ ((w.scheds k).cbBatch.take submitted.toNat).map
          fun s => (s, ((w.scheds k).blockCopyJobs s).cb) } } := by
    rw [State.schedIOSubmitBatch]
    dsimp only
    split
    · exact .inl rfl
    · rw [if_neg (not_lt.mpr hpos)]
      exact .inr rfl
  refine h.put_quiet happly (by simp) ?_ ?_ ?_ <;> rcases hblocks with heq | heq <;> rw [heq]
  · exact (h.content k).refl
  · exact (h.content k).refl.congr rfl rfl
  · exact h.current k
  · intro e he
    rcases List.mem_append.mp he with he | he
    · exact h.current k e he
    · obtain ⟨s, -, rfl⟩ := List.mem_map.mp he
      rfl
  · exact .refl _
  · exact .refl _

theorem complete (h : Exact cfg w) (hbook : Bookkeeping (w.scheds k)) {s : Slot nFile nBlock}
    {res : ℤ} (hres : ∀ cb, (s, cb) ∈ (w.scheds k).held → res = cb.nbytes)
    (hst : (w.view k).apply cfg (.complete s res) = some st') : Exact cfg (w.put k st') := by
  have hc : (w.view k).ioComplete s res = some st' := hst
  refine h.put_quiet hst (by simp)
    ((h.content k).ioComplete hbook (h.separate k) (h.current k) hres hc) ?_ ?_
  · obtain ⟨cb, hheld, -, heq⟩ := State.ioComplete_cases hc
    have hn := (List.nodup_append.mp hbook.nodup).2.1
    rw [heq]
    intro e he
    replace he : e ∈ (w.scheds k).held.eraseP fun e => e.1 = s := he
    have hne : e.1 ≠ s := by
      intro hes
      refine hn.not_mem_erase (a := s) ?_
      rw [← Ledger.map_fst_eraseP]
      exact List.mem_map.mpr ⟨e, he, hes⟩
    simpa [hne, Fleet.view] using h.current k e (List.mem_of_mem_eraseP he)
  · rw [ioComplete_finishQueue hc]
    exact .refl _

theorem environment (h : Exact cfg w) {files : Fd → ByteFile}
    (hfiles : ∀ fd, w.Live fd → files fd = w.shared.files fd) :
    Exact cfg (w.put k ⟨w.scheds k, { w.shared with files }⟩) := by
  have hput : w.put k ⟨w.scheds k, { w.shared with files }⟩ =
      ⟨w.scheds, { w.shared with files }⟩ := by simp [Fleet.put]
  rw [hput]
  refine ⟨fun k' => ⟨(h.content k').own, (h.content k').idle, fun f hf => ?_⟩, h.current, h.owner,
    h.apart, fun e he => ⟨?_, (h.queue e he).2⟩⟩
  · exact ((h.content k').job f hf).frame (hfiles _ (.inl ⟨k', f, hf, .inl rfl⟩))
      (hfiles _ (.inl ⟨k', f, hf, .inr rfl⟩)) fun _ _ _ => rfl
  · have hdelivered := (h.queue e he).1
    rw [Delivered]
    dsimp only
    rw [hfiles _ (.inr ⟨e, he, .inl rfl⟩), hfiles _ (.inr ⟨e, he, .inr rfl⟩)]
    exact hdelivered

theorem finish (h : Exact cfg w) {i : ℕ} (hst : (w.view k).apply cfg (.finish i) = some st') :
    Exact cfg (w.put k st') := by
  have happly := hst
  simp only [State.apply, Option.ite_none_right_eq_some, Option.some.injEq] at hst
  obtain ⟨-, rfl⟩ := hst
  refine h.put_quiet happly (by simp) ?_ (h.current k) (List.eraseIdx_sublist ..)
  obtain ⟨⟨h₁, h₂, h₃⟩, ⟨h₄, h₅, h₆⟩⟩ := (h.content k).refl
  exact ⟨⟨h₁, h₂, fun f hf => (h₃ f hf).frame rfl rfl fun _ _ _ => rfl⟩, ⟨h₄, h₅, h₆⟩⟩

theorem step (h : Exact cfg w) (hbook : ∀ k, Bookkeeping (w.scheds k))
    {a : Fin n × Op nFile nBlock} {w' : Fleet n nFile nBlock} (ha : w.Faithful a)
    (hnext : (system cfg n nFile nBlock).next w a = some w') : Exact cfg w' := by
  obtain ⟨st', hst, rfl⟩ := Option.map_eq_some_iff.mp hnext
  obtain ⟨k, op⟩ := a
  cases op with
  | updateSlot s => exact h.updateSlot (hbook k) hst
  | updateFile f malloc => exact h.updateFile (hbook k) hst
  | accept f newJob => exact h.accept (hbook k) ha hst
  | submit submitted => exact h.submit ha hst
  | complete s res => exact h.complete (hbook k) ha hst
  | environment files =>
    obtain rfl := Option.some.inj hst
    exact h.environment ha
  | finish i => exact h.finish hst

theorem initial (hw : (system cfg n nFile nBlock).init w) : Exact cfg w := by
  obtain ⟨hscheds, -, -, hqueue⟩ := hw
  have hjob : ∀ k f, w.job k f = {} := fun k f => by rw [Fleet.job, hscheds]
  have hdata : ∀ k s, (w.scheds k).data s = none := fun k s => by rw [hscheds]; rfl
  refine ⟨fun k => ⟨.of_none (hdata k), fun s _ => hdata k s, fun f hf => ?_⟩, fun k => ?_, ?_, ?_, ?_⟩
  · have hidle : (w.job k f).active = true := hf
    simp [hjob] at hidle
  · rw [hscheds]
    exact fun e he => by simp at he
  · intro k k' s s' p hp
    simp [hdata] at hp
  · intro k f k' f' hf
    simp [hjob] at hf
  · intro e he
    simp [hqueue] at he

end Exact

/-- The steps of a faithful run take their jobs from the domain of the bookkeeping. -/
theorem Fleet.Faithful.feeds {w : Fleet n nFile nBlock} {a : Fin n × Op nFile nBlock}
    (h : w.Faithful a) : a.2.Feeds Accepts := by
  obtain ⟨k, op⟩ := a
  cases op <;> first | exact h.accepts | trivial

theorem exact_of_reach {cfg : Config} {w : Fleet n nFile nBlock}
    (h : (system cfg n nFile nBlock).Reach Fleet.Faithful w) : Exact cfg w :=
  h.invariant_with (J := fun w => ∀ k, Bookkeeping (w.scheds k))
    (fun _ hw => bookkeeping_of_reach (hw.mono fun _ _ ha => ha.feeds))
    (fun _ hw => .initial hw) fun _ _ _ hexact hbook ha hnext => hexact.step hbook ha hnext

/-- In every faithful run, a job on the finish queue has no errors, and truncating its
destination to the size of the source makes the two files equal. -/
theorem block_copy_exact {cfg : Config} {w : Fleet n nFile nBlock}
    (h : (system cfg n nFile nBlock).Reach Fleet.Faithful w) {job : FileCopyJob} {g : JobHistory}
    (hjob : (job, g) ∈ w.shared.finishQueue) :
    job.nErrors = 0 ∧
      (w.shared.files job.dstFd).ftruncate job.stx.stx_size = w.shared.files job.srcFd :=
  ((exact_of_reach h).queue _ hjob).1

def exactFiles (fd : Fd) : ByteFile :=
  if fd = 3 then .ofList (List.replicate 5000 7) else ByteFile.empty.ftruncate 8192

def exactRun : List (Fin 1 × Op 1 2) :=
  [(0, .updateFile 0 (some (1, fun _ => 9))), (0, .updateFile 0 none),
    (0, .updateFile 0 (some (2, fun _ => 9))), (0, .submit 1), (0, .submit 1),
    (0, .complete (0, 1) 904), (0, .complete (0, 0) 4096), (0, .updateSlot (0, 0)),
    (0, .updateSlot (0, 1)), (0, .submit 2), (0, .complete (0, 1) 4096),
    (0, .complete (0, 0) 4096), (0, .updateSlot (0, 0)), (0, .updateSlot (0, 1)),
    (0, .updateSlot (0, 0)), (0, .updateSlot (0, 1)), (0, .updateFile 0 none)]

def faithfulCheck (w : Fleet 1 1 2) (a : Fin 1 × Op 1 2) : Bool :=
  match a.2 with
  | .accept .. | .environment _ => false
  | .submit submitted => 0 ≤ submitted
  | .complete s res => (w.scheds a.1).held.all fun e => e.1 ≠ s || res = e.2.nbytes
  | _ => true

theorem faithfulCheck_sound (w : Fleet 1 1 2) (a : Fin 1 × Op 1 2)
    (h : faithfulCheck w a = true) : w.Faithful a := by
  obtain ⟨k, op⟩ := a
  cases op with
  | updateSlot s => trivial
  | updateFile f malloc => trivial
  | accept f newJob => simp [faithfulCheck] at h
  | submit submitted =>
    have hpos : decide (0 ≤ submitted) = true := h
    have hle : 0 ≤ submitted := of_decide_eq_true hpos
    exact hle
  | complete s res =>
    intro cb hcb
    have hall := List.all_eq_true.mp h _ hcb
    simpa using hall
  | environment files => simp [faithfulCheck] at h
  | finish i => trivial

def exactStart : Fleet 1 1 2 :=
  let w : Fleet 1 1 2 := .start exactFiles
  w.put 0 ((w.view 0).acceptJob 0 sampleJob)

def exactFleet : Fleet 1 1 2 :=
  ((system sampleConfig 1 1 2).exec faithfulCheck exactStart exactRun).getD exactStart

theorem exactFleet_reach : (system sampleConfig 1 1 2).Reach Fleet.Faithful exactFleet := by
  have hfresh : (Fleet.start exactFiles : Fleet 1 1 2).Fresh sampleJob := by
    refine ⟨⟨by decide, by decide, by decide⟩, by decide, by decide, fun fd _ hlive => ?_, ?_, ?_⟩
    · rcases hlive with ⟨k, f, hactive, -⟩ | ⟨e, he, -⟩
      · simp [Fleet.job, Fleet.start] at hactive
      · simp [Fleet.start] at he
    · exact List.length_replicate ..
    · rfl
  have hstart : (system sampleConfig 1 1 2).Reach Fleet.Faithful exactStart :=
    (TransitionSystem.Reach.init (Fleet.start_init exactFiles)).step
      (a := (0, .accept 0 sampleJob)) hfresh rfl
  exact hstart.run (.of_exec faithfulCheck
    (fun a (_ : a ∈ exactRun) w => faithfulCheck_sound w a) rfl)

def exactResult : FileCopyJob :=
  { sampleJob with active := true, actuallyTransferred := true, nBlockJobsFinished := 2 }

theorem block_copy_exact_sample : exactResult.nErrors = 0 ∧
    (exactFleet.shared.files 4).ftruncate 5000 = exactFleet.shared.files 3 := by
  have hjob : (exactResult, { issued := [0, 1] }) ∈ exactFleet.shared.finishQueue := by
    decide +kernel
  exact block_copy_exact exactFleet_reach hjob

end Copy2.Scheduler
