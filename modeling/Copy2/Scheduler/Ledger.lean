import Copy2.Scheduler.Frame
import Copy2.Lib.Count

/-! # The ledger of a scheduler

The invariant ties the two counters of a file job to its slots in use, and the requests
that wait or are held by the kernel to slots in use. Seven code paths move these values;
each is one of four moves on a slot: it is touched, its request is deferred, it is
released, or it is issued. -/
namespace Copy2.Scheduler
open FileJob Lib

variable {nFile nBlock : ℕ}

/-- The block numbers of a job fit into an `int`, or the first one that does not names an
offset past the end of the file. -/
structure Fits (job : FileCopyJob) : Prop where
  blockSize_lt : job.blockSize < 2 ^ 64
  wrap : job.blockCount < 2 ^ 31 ∨ job.stx.stx_size ≤ mulInt job.blockSize (toInt (2 ^ 31 : ℕ))

/-- Only the size of the blocks and of the file matter. -/
theorem Fits.congr {job job' : FileCopyJob} (h : Fits job) (hbs : job'.blockSize = job.blockSize)
    (hstx : job'.stx = job.stx) : Fits job' := by
  refine ⟨hbs ▸ h.blockSize_lt, ?_⟩
  rw [FileCopyJob.blockCount, hbs, hstx]
  exact h.wrap

namespace CopyScheduler

def inUse (d : CopyScheduler nFile nBlock) (f : Fin nFile) (j : Fin nBlock) : Bool :=
  (d.blockCopyJobs (f, j)).inUse

def total (d : CopyScheduler nFile nBlock) (f : Fin nFile) : ℕ :=
  (d.fileCopyJobs f).nBlockJobsFinished + (d.fileCopyJobs f).nBlockJobsScheduled

@[simp] theorem inUse_setFile {d : CopyScheduler nFile nBlock} {f : Fin nFile}
    {job : FileCopyJob} : (d.setFile f job).inUse = d.inUse := rfl

@[simp] theorem inUse_setHistory {d : CopyScheduler nFile nBlock} {f : Fin nFile}
    {h : JobHistory} : (d.setHistory f h).inUse = d.inUse := rfl

theorem total_issue (d : CopyScheduler nFile nBlock) (s : Slot nFile nBlock)
    (b : BlockCopyJob nFile) (f : Fin nFile) :
    (d.issue s.1 s b).total f = if f = s.1 then d.total f + 1 else d.total f := by
  by_cases hf : f = s.1
  · subst hf
    simp [total, issue]
    omega
  · simp [total, issue, hf]

end CopyScheduler

structure Ledger (d : CopyScheduler nFile nBlock) : Prop where
  fits : ∀ f, (d.fileCopyJobs f).active = true → Fits (d.fileCopyJobs f)
  scheduled : ∀ f, (d.fileCopyJobs f).nBlockJobsScheduled = count (d.inUse f)
  total_le : ∀ f, (d.fileCopyJobs f).active = true →
    d.total f ≤ (d.fileCopyJobs f).blockCount ∧ d.total f ≤ 2 ^ 31
  nodup : d.pending.Nodup
  pending : ∀ s ∈ d.pending, (d.blockCopyJobs s).inUse = true ∧
    (d.blockCopyJobs s).status = einprogress
  owner : ∀ s, (d.blockCopyJobs s).inUse = true →
    (d.blockCopyJobs s).parent = some s.1 ∧ (d.fileCopyJobs s.1).active = true
  asserts : d.assertsHold = true

namespace Ledger
variable {d : CopyScheduler nFile nBlock} {s : Slot nFile nBlock} {b : BlockCopyJob nFile}

theorem initial : Ledger ({} : CopyScheduler nFile nBlock) where
  fits f h := by simp at h
  scheduled f := (count_eq_zero.mpr fun j => rfl).symm
  total_le f h := by simp at h
  nodup := List.nodup_nil
  pending s hs := by simp [CopyScheduler.pending] at hs
  owner s h := by simp at h
  asserts := rfl

theorem notMem_pending_of_free (h : Ledger d) (hs : (d.blockCopyJobs s).inUse = false) :
    s ∉ d.pending := fun hm => by simpa [hs] using (h.pending s hm).1

theorem notMem_pending_of_status (h : Ledger d)
    (hs : (d.blockCopyJobs s).status ≠ einprogress) : s ∉ d.pending :=
  fun hm => hs (h.pending s hm).2

/-- The slots in use of a file after one slot has been replaced. -/
theorem inUse_setBlock (f : Fin nFile) : (d.setBlock s b).inUse f =
    if f = s.1 then Function.update (d.inUse f) s.2 b.inUse else d.inUse f := by
  funext j
  obtain ⟨g, i⟩ := s
  by_cases hf : f = g
  · subst hf
    by_cases hj : j = i <;> simp [CopyScheduler.inUse, hj]
  · simp [CopyScheduler.inUse, hf]

/-- A slot outside the pending requests may be touched as long as it stays in use or free. -/
theorem touch (h : Ledger d) (hs : s ∉ d.pending)
    (huse : b.inUse = (d.blockCopyJobs s).inUse)
    (hparent : b.inUse = true → b.parent = some s.1) : Ledger (d.setBlock s b) where
  fits := h.fits
  scheduled f := by
    rw [inUse_setBlock]
    split
    · rename_i hf
      have hself : Function.update (d.inUse f) s.2 b.inUse = d.inUse f := by
        rw [huse, hf]
        exact Function.update_eq_self ..
      rw [hself]
      exact h.scheduled f
    · exact h.scheduled f
  total_le := h.total_le
  nodup := h.nodup
  pending t ht := by
    have hne : t ≠ s := fun he => hs (he ▸ ht)
    simpa [hne] using h.pending t ht
  owner t ht := by
    by_cases hne : t = s
    · subst hne
      simp only [CopyScheduler.setBlock_blockCopyJobs, Function.update_self] at ht ⊢
      exact ⟨hparent ht, (h.owner t (huse ▸ ht)).2⟩
    · simp only [CopyScheduler.setBlock_blockCopyJobs, Function.update_of_ne hne] at ht ⊢
      exact h.owner t ht
  asserts := h.asserts

/-- A slot in use whose request is prepared may be added to the batch. The batch has
room for it, since it holds every slot at most once. -/
theorem defer (h : Ledger d) (hs : s ∉ d.pending)
    (huse : (d.blockCopyJobs s).inUse = true)
    (hstatus : (d.blockCopyJobs s).status = einprogress) :
    Ledger (d.schedIOSubmitDeferred s) where
  fits := h.fits
  scheduled := h.scheduled
  total_le := h.total_le
  nodup := by
    have hp : (d.schedIOSubmitDeferred s).pending.Perm (s :: d.pending) := by
      simp only [CopyScheduler.pending, CopyScheduler.deferred_cbBatch,
        CopyScheduler.deferred_held, List.append_assoc, List.singleton_append]
      exact List.perm_middle
    exact hp.nodup_iff.mpr (List.nodup_cons.mpr ⟨hs, h.nodup⟩)
  pending t ht := by
    simp only [CopyScheduler.pending, CopyScheduler.deferred_cbBatch, CopyScheduler.deferred_held,
      List.mem_append, List.mem_singleton] at ht
    rcases ht with (ht | rfl) | ht
    · exact h.pending t (List.mem_append_left _ ht)
    · exact ⟨huse, hstatus⟩
    · exact h.pending t (List.mem_append_right _ ht)
  owner := h.owner
  asserts := by
    have hn : (s :: d.cbBatch).Nodup := List.nodup_cons.mpr
      ⟨fun hm => hs (List.mem_append_left _ hm), (List.nodup_append.mp h.nodup).1⟩
    have hlen := hn.length_le_card
    rw [List.length_cons, Fintype.card_prod, Fintype.card_fin, Fintype.card_fin] at hlen
    rw [CopyScheduler.deferred_assertsHold, h.asserts, Bool.true_and, decide_eq_true_eq]
    omega

/-- A slot that gives its block up leaves the sum of the counters alone. -/
theorem total_setFile_release (h : Ledger d) (huse : (d.blockCopyJobs s).inUse = true)
    {job : FileCopyJob} {e : ℕ}
    (hjob : job = { d.fileCopyJobs s.1 with
      nBlockJobsScheduled := (d.fileCopyJobs s.1).nBlockJobsScheduled - 1
      nBlockJobsFinished := (d.fileCopyJobs s.1).nBlockJobsFinished + 1
      nErrors := e }) (f : Fin nFile) : (d.setFile s.1 job).total f = d.total f := by
  have hpos := count_pos (p := d.inUse s.1) (i := s.2) huse
  have hsched := h.scheduled s.1
  by_cases hf : f = s.1
  · subst hf
    simp [CopyScheduler.total, hjob]
    omega
  · simp [CopyScheduler.total, hf]

/-- A slot in use that leaves the pending requests gives its block up as finished. -/
theorem release (h : Ledger d) (hs : s ∉ d.pending)
    (huse : (d.blockCopyJobs s).inUse = true) (hb : b.inUse = false) {job : FileCopyJob}
    {g : JobHistory} {e : ℕ}
    (hjob : job = { d.fileCopyJobs s.1 with
      nBlockJobsScheduled := (d.fileCopyJobs s.1).nBlockJobsScheduled - 1
      nBlockJobsFinished := (d.fileCopyJobs s.1).nBlockJobsFinished + 1
      nErrors := e }) :
    Ledger (((d.setFile s.1 job).setHistory s.1 g).setBlock s b) := by
  have hcount := count_update_false (p := d.inUse s.1) (i := s.2) huse
  have hsched := h.scheduled s.1
  have htotal := h.total_setFile_release huse hjob
  constructor
  · intro f hf
    by_cases hfs : f = s.1
    · subst hfs
      refine (h.fits s.1 (h.owner s huse).2).congr ?_ ?_ <;> simp [hjob]
    · simpa [hfs] using h.fits f (by simpa [hfs] using hf)
  · intro f
    rw [inUse_setBlock]
    by_cases hf : f = s.1
    · subst hf
      simp [hjob, hb]
      omega
    · simpa [hf] using h.scheduled f
  · intro f hf
    have heq : (((d.setFile s.1 job).setHistory s.1 g).setBlock s b).total f = d.total f := htotal f
    rw [heq]
    by_cases hfs : f = s.1
    · subst hfs
      simpa [hjob, FileCopyJob.blockCount] using h.total_le s.1 (h.owner s huse).2
    · simpa [hfs] using h.total_le f (by simpa [hfs] using hf)
  · exact h.nodup
  · intro t ht
    have hne : t ≠ s := fun he => hs (he ▸ ht)
    simpa [hne] using h.pending t ht
  · intro t ht
    by_cases hne : t = s
    · subst hne
      simp [hb] at ht
    · have ho := h.owner t (by simpa [hne] using ht)
      refine ⟨by simpa [hne] using ho.1, ?_⟩
      by_cases hf : t.1 = s.1
      · simpa [hf, hjob] using (h.owner s huse).2
      · simpa [hf] using ho.2
  · exact h.asserts

/-- A free slot of a file with a block left takes that block and defers its read. -/
theorem issue (h : Ledger d) (hfree : (d.blockCopyJobs s).inUse = false)
    (hactive : (d.fileCopyJobs s.1).active = true)
    (hlt : d.total s.1 < (d.fileCopyJobs s.1).blockCount ∧ d.total s.1 < 2 ^ 31)
    (hparent : b.parent = some s.1) (hstatus : b.status = einprogress) :
    Ledger (d.issue s.1 s b) := by
  have hs := h.notMem_pending_of_free hfree
  have hcount := count_update_true (p := d.inUse s.1) (i := s.2) hfree
  have huse : ∀ f, (d.issue s.1 s b).inUse f =
      if f = s.1 then Function.update (d.inUse f) s.2 true else d.inUse f := fun f =>
    inUse_setBlock (d := d) (s := s) (b := { b with
      inUse := true
      cb := { opcode := .pread, fd := (d.fileCopyJobs s.1).srcFd, buf := b.data,
              nbytes := b.nbytes, offset := b.offset } }) f
  have hn : (s :: d.pending).Nodup := List.nodup_cons.mpr ⟨hs, h.nodup⟩
  have hp : (d.issue s.1 s b).pending.Perm (s :: d.pending) := by
    simp only [CopyScheduler.pending, CopyScheduler.issue, CopyScheduler.setHistory_cbBatch,
      CopyScheduler.setFile_cbBatch, CopyScheduler.deferred_cbBatch,
      CopyScheduler.setBlock_cbBatch, CopyScheduler.setHistory_held, CopyScheduler.setFile_held,
      CopyScheduler.deferred_held, CopyScheduler.setBlock_held, List.append_assoc,
      List.singleton_append]
    exact List.perm_middle
  constructor
  · intro f hf
    by_cases hfs : f = s.1
    · subst hfs
      refine (h.fits s.1 hactive).congr ?_ ?_ <;> simp [CopyScheduler.issue]
    · simpa [CopyScheduler.issue, hfs] using
        h.fits f (by simpa [CopyScheduler.issue, hfs] using hf)
  · intro f
    rw [huse]
    have hsched := h.scheduled f
    by_cases hf : f = s.1
    · subst hf
      simp [CopyScheduler.issue]
      omega
    · simpa [CopyScheduler.issue, hf] using hsched
  · intro f hf
    rw [CopyScheduler.total_issue]
    by_cases hfs : f = s.1
    · subst hfs
      simpa [CopyScheduler.issue, FileCopyJob.blockCount] using hlt
    · simpa [CopyScheduler.issue, hfs] using
        h.total_le f (by simpa [CopyScheduler.issue, hfs] using hf)
  · exact hp.nodup_iff.mpr hn
  · intro t ht
    rcases List.mem_cons.mp (hp.mem_iff.mp ht) with rfl | ht
    · simp [CopyScheduler.issue, hstatus]
    · have hne : t ≠ s := fun he => hs (he ▸ ht)
      simpa [CopyScheduler.issue, hne] using h.pending t ht
  · intro t ht
    by_cases hne : t = s
    · subst hne
      simpa [CopyScheduler.issue, hparent] using hactive
    · have ho := h.owner t (by simpa [CopyScheduler.issue, hne] using ht)
      refine ⟨by simpa [CopyScheduler.issue, hne] using ho.1, ?_⟩
      by_cases hf : t.1 = s.1
      · simpa [CopyScheduler.issue, hf] using hactive
      · simpa [CopyScheduler.issue, hf] using ho.2
  · have hlen := (hn.sublist (List.Sublist.cons_cons s (List.sublist_append_left _ _))).length_le_card
    rw [List.length_cons, Fintype.card_prod, Fintype.card_fin, Fintype.card_fin] at hlen
    have hroom : d.cbBatch.length < nFile * nBlock := by omega
    simp [CopyScheduler.issue, h.asserts, hroom]

end Ledger
end Copy2.Scheduler
