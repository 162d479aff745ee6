import Copy2.Scheduler.ProvenanceSteps

/-! # Stale bytes are never written

Unless a request completes with a result of zero: the callbacks store the negated result,
so an empty completion reads as success. -/
namespace Copy2.Scheduler
open FileJob Lib

variable {nFile nBlock n : ℕ}

/-- The jobs fit, and no result is zero or wraps around to zero. -/
def Op.Regular : Op nFile nBlock → Prop
  | .accept _ newJob => Fits newJob
  | .complete _ res => ¬ (res ≤ 0 ∧ (2 ^ 32 : ℤ) ∣ res)
  | _ => True

theorem Op.Regular.feeds {op : Op nFile nBlock} (h : op.Regular) : op.Feeds Fits := by
  cases op with
  | accept f newJob => exact h
  | _ => trivial

section Runs
variable {cfg : Config} {w w' : Fleet n nFile nBlock} {r : Record n nFile nBlock}
  {a : Fin n × Op nFile nBlock} {k : Fin n} {s : Slot nFile nBlock}

theorem Clean.step (h : Clean w r) (hl : ∀ k, Ledger (w.scheds k)) (ha : a.2.Regular)
    (hnext : (system cfg n nFile nBlock).next w a = some w') : Clean w' (record w a r) := by
  obtain ⟨st, hst, rfl⟩ := Option.map_eq_some_iff.mp hnext
  obtain ⟨k, op⟩ := a
  dsimp only at hst ha ⊢
  cases op with
  | updateSlot s =>
    simp only [State.apply, Bool.and_eq_true, Option.ite_none_right_eq_some,
      Option.some.injEq] at hst
    obtain ⟨⟨-, huse⟩, rfl⟩ := hst
    exact h.updateSlot (hl k) huse
  | updateFile f malloc =>
    simp only [State.apply, Option.ite_none_right_eq_some, Option.some.injEq] at hst
    obtain ⟨hactive, rfl⟩ := hst
    exact h.completeOrSchedule (hl k) hactive malloc
  | accept f newJob =>
    simp only [State.apply, Option.ite_none_left_eq_some, Bool.not_eq_true,
      Option.some.injEq] at hst
    obtain ⟨hactive, rfl⟩ := hst
    exact h.acceptJob (hl k) hactive newJob
  | submit submitted =>
    obtain rfl := Option.some.inj hst
    exact h.submit (hl k) submitted
  | complete s res => exact h.ioComplete (hl k) ha hst
  | environment files =>
    obtain rfl := Option.some.inj hst
    exact h.put_quiet rfl (fun t => id) (h.current k) (fun t _ => rfl) rfl rfl
  | finish i =>
    simp only [State.apply, Option.ite_none_right_eq_some, Option.some.injEq] at hst
    obtain ⟨-, rfl⟩ := hst
    exact h.put_quiet rfl (fun t => id) (h.current k) (fun t _ => rfl) rfl rfl

/-- Both invariants hold in every state that regular steps reach. -/
theorem clean_of_reach
    (h : (observed cfg n nFile nBlock).Reach (fun _ a => a.2.Regular) (w, r)) :
    (∀ k, Ledger (w.scheds k)) ∧ Clean w r := by
  have hledger : ∀ x : Fleet n nFile nBlock × Record n nFile nBlock,
      (observed cfg n nFile nBlock).Reach (fun _ a => a.2.Regular) x →
        ∀ k, Ledger (x.1.scheds k) := by
    intro x hx
    have hreach : (system cfg n nFile nBlock).Reach (fun _ a => a.2.Regular) x.1 :=
      TransitionSystem.Reach.of_observe (T := system cfg n nFile nBlock)
        (C := fun _ a => a.2.Regular) hx
    exact ledger_of_reach (fun _ _ ha => Op.Regular.feeds ha) hreach
  refine ⟨hledger _ h, ?_⟩
  refine h.invariant_with (I := fun x => Clean x.1 x.2) hledger ?_ ?_
  · rintro ⟨w, r⟩ ⟨hw, rfl⟩
    exact .initial hw.1
  · rintro ⟨w, r⟩ a ⟨w', r'⟩ hclean hl ha hnext
    obtain ⟨hnext, rfl⟩ := TransitionSystem.observe_next hnext
    exact hclean.step hl ha hnext

/-- A block goes from its read to its write or to its end, or from its write to its
readback or to its end. -/
def MovesOn (b b' : BlockCopyJob nFile) : Prop :=
  b.inUse = true ∧ b'.inUse = true ∧
    (b.type = .read ∧ (b'.type = .write ∨ b'.type = .finish) ∨
      b.type = .write ∧ (b'.type = .readDst ∨ b'.type = .finish))

def ComparesHash (w : Fleet n nFile nBlock) (a : Fin n × Op nFile nBlock) (k : Fin n)
    (s : Slot nFile nBlock) : Prop :=
  let b := (w.scheds k).blockCopyJobs s
  a = (k, .updateSlot s) ∧ b.inUse = true ∧ b.type = .readDst ∧ b.status = 0

/-- Handing over the batch leaves every slot alone that stays in use. -/
theorem submit_slot {st : State nFile nBlock} (submitted : ℤ)
    (huse : ((st.schedIOSubmitBatch submitted).2.sched.blockCopyJobs s).inUse = true) :
    (st.schedIOSubmitBatch submitted).2.sched.blockCopyJobs s = st.sched.blockCopyJobs s := by
  have hfail : ∀ (st : State nFile nBlock) t, ((st.failRequest t).sched.blockCopyJobs s).inUse = true →
      (st.failRequest t).sched.blockCopyJobs s = st.sched.blockCopyJobs s := by
    intro st t hs
    rw [State.failRequest] at hs ⊢
    cases hp : (st.sched.blockCopyJobs t).parent with
    | none => rfl
    | some f =>
      simp only [hp, State.clear_eq] at hs ⊢
      have hne : s ≠ t := by
        rintro rfl
        simp at hs
      simp [hne]
  have hfold : ∀ (l : List (Slot nFile nBlock)) (st : State nFile nBlock),
      ((l.foldl State.failRequest st).sched.blockCopyJobs s).inUse = true →
      (l.foldl State.failRequest st).sched.blockCopyJobs s = st.sched.blockCopyJobs s := by
    intro l
    induction l with
    | nil => exact fun st _ => rfl
    | cons t l ih =>
      intro st hs
      have hrest := ih (st.failRequest t) hs
      rw [List.foldl_cons] at hs
      rw [hrest] at hs
      exact hrest.trans (hfail st t hs)
  rw [State.schedIOSubmitBatch] at huse ⊢
  dsimp only at huse ⊢
  split at huse
  · rename_i hnil
    rw [if_pos hnil]
  · rename_i hcons
    rw [if_neg hcons]
    split at huse
    · rename_i hneg
      rw [if_pos hneg]
      exact hfold _ st huse
    · rename_i hpos
      rw [if_neg hpos]

/-- A slot in use changes its type only when its scheduler finds its status zero. -/
theorem type_of_next (hl : ∀ k, Ledger (w.scheds k))
    (hnext : (system cfg n nFile nBlock).next w a = some w')
    (huse : ((w.scheds k).blockCopyJobs s).inUse = true)
    (huse' : ((w'.scheds k).blockCopyJobs s).inUse = true) :
    ((w'.scheds k).blockCopyJobs s).type = ((w.scheds k).blockCopyJobs s).type ∨
      ((w.scheds k).blockCopyJobs s).status = 0 := by
  obtain ⟨st, hst, rfl⟩ := Option.map_eq_some_iff.mp hnext
  by_cases hk : k = a.1
  · subst hk
    simp only [Fleet.put, Function.update_self] at huse' ⊢
    cases hop : a.2 with
    | updateSlot t =>
      simp only [hop, State.apply, Bool.and_eq_true, Option.ite_none_right_eq_some,
        Option.some.injEq] at hst
      obtain ⟨-, rfl⟩ := hst
      by_cases hts : s = t
      · subst hts
        rw [State.schedulerUpdateBlockCopyJob] at huse' ⊢
        by_cases hstatus : ((w.view a.1).sched.blockCopyJobs s).status = 0
        · exact .inr hstatus
        · rw [if_neg hstatus] at huse' ⊢
          split at huse'
          · simp [State.requestFailed, State.clear_eq] at huse'
          · rename_i hbusy
            rw [if_neg hbusy]
            exact .inl rfl
      · exact .inl (by rw [(updateSlot_others cfg).2 s hts]; rfl)
    | updateFile f malloc =>
      simp only [hop, State.apply, Option.ite_none_right_eq_some, Option.some.injEq] at hst
      obtain ⟨hactive, rfl⟩ := hst
      refine .inl ?_
      by_cases hdone : ((w.view a.1).sched.fileCopyJobs f).blockCount ≤
          ((w.view a.1).sched.fileCopyJobs f).nBlockJobsFinished
      · rw [State.completeOrSchedule_done malloc hdone ((hl a.1).free_of_complete hactive hdone)]
        rfl
      · rcases State.completeOrSchedule_cases malloc hdone with heq | ⟨j, hfree, heq⟩
        · rw [heq]
          rfl
        · have hne : s ≠ (f, j) := by
            rintro rfl
            simp [Fleet.view, huse] at hfree
          rw [heq, (schedule_others (f := f) (s := (f, j)) ⟨rfl, fun _ _ => rfl⟩ malloc false).2 s hne]
          rfl
    | accept f newJob =>
      simp only [hop, State.apply, Option.ite_none_left_eq_some, Option.some.injEq] at hst
      obtain ⟨-, rfl⟩ := hst
      exact .inl rfl
    | submit submitted =>
      rw [hop] at hst
      obtain rfl := Option.some.inj hst
      exact .inl (by rw [submit_slot submitted huse']; rfl)
    | complete t res =>
      rw [hop] at hst
      obtain ⟨cb, -, -, hsched⟩ := State.ioComplete_cases hst
      rw [hsched]
      by_cases hts : s = t
      · subst hts
        exact .inl (by simp [Fleet.view])
      · exact .inl (by simp [Fleet.view, hts])
    | environment files =>
      rw [hop] at hst
      obtain rfl := Option.some.inj hst
      exact .inl rfl
    | finish i =>
      simp only [hop, State.apply, Option.ite_none_right_eq_some, Option.some.injEq] at hst
      obtain ⟨-, rfl⟩ := hst
      exact .inl rfl
  · simp [Fleet.put, hk]

/-- A slot whose status is zero, before its end, has a request that completed in full. -/
theorem Origin.fullyCompleted {sh : SharedState} {job : FileCopyJob} {b : BlockCopyJob nFile}
    {rec : SlotRecord} {waits : Prop} (h : Origin sh job b rec waits) (hstatus : b.status = 0)
    (htype : b.type ≠ .finish) : FullyCompleted b rec := by
  cases h with
  | reading _ hs => simp [hstatus, einprogress] at hs
  | haveRead _ _ hfull => exact hfull
  | writing _ hs => simp [hstatus, einprogress] at hs
  | haveWritten _ _ hfull => exact hfull
  | readingDst _ hs => simp [hstatus, einprogress] at hs
  | haveReadDst _ _ hfull => exact hfull
  | finished ht => exact absurd ht htype
  | failed hs => exact absurd hstatus hs

/-- A write that the kernel holds writes what a completed read of the block has brought. -/
theorem Origin.sourced {sh : SharedState} {job : FileCopyJob} {b : BlockCopyJob nFile}
    {rec : SlotRecord} {waits : Prop} (h : Origin sh job b rec waits) (hwaits : waits)
    (hbusy : b.status = einprogress) (hop : b.cb.opcode = .pwrite) :
    b.cb = slotWrite job.dstFd b ∧ Sourced sh job b rec := by
  cases h with
  | reading _ _ hcb => simp [hcb, slotRead] at hop
  | haveRead _ hs => simp [hbusy, einprogress] at hs
  | writing _ _ hcb hsource => exact ⟨hcb, hsource⟩
  | haveWritten _ hs => simp [hbusy, einprogress] at hs
  | readingDst _ _ hcb => simp [hcb, slotRead] at hop
  | haveReadDst _ hs => simp [hbusy, einprogress] at hs
  | finished _ hs => simp [hbusy, einprogress] at hs
  | failed _ hidle => exact absurd hwaits hidle

theorem MovesOn.type_ne {b b' : BlockCopyJob nFile} (h : MovesOn b b') :
    b'.type ≠ b.type ∧ b.type ≠ .finish := by
  rcases h.2.2 with ⟨ht, ht' | ht'⟩ | ⟨ht, ht' | ht'⟩ <;> simp [ht, ht']

/-- In every run without empty completions, whatever the other results: before every step
a block moves on, or its hash is compared, only after its request has completed with the
byte count it asked for; and the bytes of the block that a step writes are those that a
completed read of that range of the source has brought. -/
theorem written_bytes_were_read
    (h : (observed cfg n nFile nBlock).Reach (fun _ a => a.2.Regular) (w, r))
    (hnext : (system cfg n nFile nBlock).next w a = some w') (k : Fin n)
    (s : Slot nFile nBlock) :
    let b := (w.scheds k).blockCopyJobs s
    let job := w.job k s.1
    (MovesOn b ((w'.scheds k).blockCopyJobs s) ∨ ComparesHash w a k s →
      FullyCompleted b (r (k, s))) ∧
    ∀ res cb, a = (k, .complete s res) → (s, cb) ∈ (w.scheds k).held → cb.opcode = .pwrite →
      cb.fd = job.dstFd ∧ cb.offset = b.offset ∧
      ∃ bytes, (r (k, s)).source = some (slotRead job.srcFd b, bytes) ∧
        ∀ i < b.nbytes, i < res.toNat →
          (w'.shared.files cb.fd).byte (b.offset + i) = bytes i := by
  intro b job
  obtain ⟨hl, hclean⟩ := clean_of_reach h
  refine ⟨fun hmove => ?_, fun res cb ha hheld hop => ?_⟩
  · rcases hmove with hmove | ⟨-, huse, htype, hstatus⟩
    · obtain ⟨hchange, hfinish⟩ := hmove.type_ne
      have hstatus := (type_of_next hl hnext hmove.1 hmove.2.1).resolve_left hchange
      exact (hclean.slot k s hmove.1).origin.fullyCompleted hstatus hfinish
    · exact (hclean.slot k s huse).origin.fullyCompleted hstatus (by rw [htype]; decide)
  · obtain rfl : cb = b.cb := hclean.current k _ hheld
    have hmem : s ∈ (w.scheds k).pending :=
      List.mem_append_right _ (List.mem_map.mpr ⟨_, hheld, rfl⟩)
    obtain ⟨huse, hbusy⟩ := hl k |>.pending s hmem
    have hslot := hclean.slot k s huse
    obtain ⟨hcb, bytes, hsource, hload⟩ := hslot.origin.sourced hmem hbusy hop
    subst ha
    obtain ⟨st, hst, rfl⟩ := Option.map_eq_some_iff.mp hnext
    obtain ⟨cb', hheld', hsh, -⟩ := State.ioComplete_cases hst
    obtain rfl : cb' = b.cb := hclean.current k _ hheld'
    refine ⟨by rw [hcb]; rfl, by rw [hcb]; rfl, bytes, hsource, fun i hi hires => ?_⟩
    have hlt : b.nbytes < 2 ^ 63 := hslot.nbytes_lt
    have hlen : b.nbytes ≤ alignUp b.nbytes directIoAlign := le_alignUp (by omega)
    change (st.shared.files b.cb.fd).byte (b.offset + i) = bytes i
    rw [hsh, State.transfer, hop, hcb]
    simp only [slotWrite, Function.update_self]
    refine (ByteFile.pwrite_byte_inside _ (Nat.le_add_right b.offset i)
      (Nat.add_lt_add_left (lt_min hires (hi.trans_le hlen)) b.offset)).trans ?_
    rw [Nat.add_sub_cancel_left]
    exact hload i hi

end Runs

/-- Two blocks: the first one is all sevens, the second one all eights. -/
def staleSource : ByteFile where
  size := 8192
  byte i := if i < 4096 then 7 else if i < 8192 then 8 else 0
  byte_eq_zero i hi := by
    rw [if_neg (by omega), if_neg (by omega)]

def staleJob : FileCopyJob :=
  { srcFd := 3, dstFd := 4, blockSize := 4096, stx := { stx_size := 8192 } }

theorem staleJob_fits : Fits staleJob := ⟨by decide, .inl (by decide)⟩

def firstBlockRun : List (Fin 1 × Op 1 1) :=
  [(0, .accept 0 staleJob), (0, .updateFile 0 (some (1, fun _ => 0))), (0, .submit 1),
    (0, .complete (0, 0) 4096), (0, .updateSlot (0, 0)), (0, .submit 1)]

def staleRun : List (Fin 1 × Op 1 1) :=
  firstBlockRun ++ [(0, .complete (0, 0) 4096), (0, .updateSlot (0, 0)), (0, .updateSlot (0, 0)),
    (0, .submit 1), (0, .complete (0, 0) 0)]

def staleStart : Fleet 1 1 1 × Record 1 1 1 :=
  (.start fun fd => if fd = 3 then staleSource else .empty, fun _ => {})

def stalePlay (run : List (Fin 1 × Op 1 1)) : Fleet 1 1 1 × Record 1 1 1 :=
  ((observed sampleConfig 1 1 1).exec (fun _ _ => true) staleStart run).getD staleStart

theorem staleStart_init : (observed sampleConfig 1 1 1).init staleStart :=
  ⟨Fleet.start_init _, rfl⟩

theorem firstBlock_reach :
    (observed sampleConfig 1 1 1).Reach (fun _ a => a.2.Regular) (stalePlay firstBlockRun) := by
  refine (TransitionSystem.Reach.init staleStart_init).run
    (.of_exec (fun _ _ => true) (fun a (ha : a ∈ firstBlockRun) _ _ => ?_) rfl)
  fin_cases ha <;> first | exact staleJob_fits | simp [Op.Regular]

/-- The first block is written with the bytes that were read. -/
theorem written_bytes_were_read_sample :
    let x := stalePlay firstBlockRun
    let y := stalePlay (firstBlockRun ++ [(0, .complete (0, 0) 4096)])
    let b := (x.1.scheds 0).blockCopyJobs (0, 0)
    ∃ bytes, (x.2 (0, (0, 0))).source = some (slotRead 3 b, bytes) ∧
      ∀ i < b.nbytes, i < (4096 : ℤ).toNat →
        (y.1.shared.files b.cb.fd).byte (b.offset + i) = bytes i :=
  ((written_bytes_were_read firstBlock_reach (a := (0, .complete (0, 0) 4096)) rfl 0 (0, 0)).2
    4096 _ rfl (List.mem_singleton.mpr rfl) rfl).2.2

def staleEnd : List (Fin 1 × Op 1 1) :=
  staleRun ++ [(0, .updateSlot (0, 0)), (0, .submit 1), (0, .complete (0, 0) 4096)]

theorem stale_reach {run : List (Fin 1 × Op 1 1)} (h : ∀ a ∈ run, a.2.Feeds Fits)
    (hplay : (observed sampleConfig 1 1 1).exec (fun _ _ => true) staleStart run =
      some (stalePlay run)) :
    (observed sampleConfig 1 1 1).Reach (fun _ a => a.2.Feeds Fits) (stalePlay run) :=
  (TransitionSystem.Reach.init staleStart_init).run
    (.of_exec (fun _ _ => true) (fun a ha _ _ => h a ha) hplay)

/-- After the empty read the slot moves on, and its write puts the first block where the
second one belongs. -/
theorem stale_bytes_written :
    let x := stalePlay staleRun
    let y := stalePlay (staleRun ++ [(0, .updateSlot (0, 0))])
    (observed sampleConfig 1 1 1).Reach (fun _ a => a.2.Feeds Fits) x ∧
    (system sampleConfig 1 1 1).next x.1 (0, .updateSlot (0, 0)) = some y.1 ∧
    MovesOn ((x.1.scheds 0).blockCopyJobs (0, 0)) ((y.1.scheds 0).blockCopyJobs (0, 0)) ∧
    ¬ FullyCompleted ((x.1.scheds 0).blockCopyJobs (0, 0)) (x.2 (0, (0, 0))) ∧
    (observed sampleConfig 1 1 1).Reach (fun _ a => a.2.Feeds Fits) (stalePlay staleEnd) ∧
    ((stalePlay staleEnd).1.shared.files 3).byte 4096 = 8 ∧
    ((stalePlay staleEnd).1.shared.files 4).byte 4096 = 7 := by
  refine ⟨stale_reach (fun a ha => ?_) rfl, rfl, ⟨by decide +kernel, by decide +kernel,
    .inl ⟨by decide +kernel, .inl (by decide +kernel)⟩⟩, fun hfull => ?_,
    stale_reach (fun a ha => ?_) rfl, by decide +kernel, by decide +kernel⟩
  · fin_cases ha <;> first | exact staleJob_fits | trivial
  · have hres := congrArg (Option.map Prod.snd) hfull
    exact absurd (Option.some.inj hres) (by decide +kernel)
  · fin_cases ha <;> first | exact staleJob_fits | trivial

end Copy2.Scheduler
