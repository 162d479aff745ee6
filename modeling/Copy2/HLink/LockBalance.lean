import Copy2.HLink.Program

/-! # The locks of the link table

Which calls give back all the locks they have taken. A call may leave a record locked that
is in no table any more, but no other one, and never the state lock. -/
namespace Copy2.HLink.Program
open FileJob Lib Os

namespace World

/-- No record that this thread has locked is in the forward table. -/
def ForwardClear (w : World) : Prop :=
  ∀ r, w.infoLocked r = true → ∀ k, w.tables.forward k ≠ some r

def RevClear (w : World) : Prop := ∀ q, w.revLocked q = true → ∀ k, w.tables.rev k ≠ some q

/-- The state lock has been given back as often as taken, and no record in a table is locked. -/
structure LocksGivenBack (w : World) : Prop where
  state : w.acquired = w.released
  info : w.ForwardClear
  rev : w.RevClear

theorem forwardClear_of_unlocked {w : World} (h : ∀ r, w.infoLocked r = false) :
    w.ForwardClear := fun r hr => by simp [h r] at hr

theorem revClear_of_unlocked {w : World} (h : ∀ q, w.revLocked q = false) :
    w.RevClear := fun q hq => by simp [h q] at hq

end World

/-- A call that returns has given its locks back exactly if `b` holds. -/
def GivesBack {α : Type} (out : Option α) (b : Prop) (w : World) : Prop :=
  out.isSome = true → (w.LocksGivenBack ↔ b)

/-- The link to the root does not fail; and when the entry of a record that has been counted down
is removed, or is gone already, the record is in its table under no other key. -/
def RegistersWell (a : Args) (w : World) : Sys.Event → Prop
  | ⟨.linkat .., .error _⟩ => False
  | ⟨.deleteForward k, _⟩ => ∀ r, w.infoLocked r = true → ∀ j ≠ k, w.tables.forward j ≠ some r
  | ⟨.readRev _, _⟩ => ∀ q, w.revLocked q = true → ∀ j ≠ a.destInode, w.tables.rev j ≠ some q
  | _ => True

section Register
variable {a : Args} {w : World} {b : Prop} {out : LinkOutcome} {r q : Ref} {turns : ℕ}

abbrev Registers (a : Args) (p : Prog Sys (Option LinkOutcome)) (b : Prop) (w : World) : Prop :=
  p.Judged World.step World.ok (RegistersWell a) GivesBack b w

theorem unlockAndReturn_registers (hheld : w.acquired = w.released + 1)
    (hb : (w.ForwardClear ∧ w.RevClear) ↔ b) : Registers a (unlockAndReturn out) b w := by
  refine Prog.Judged.pass fun _ _ => ⟨trivial, fun _ => ?_⟩
  rw [← hb]
  exact ⟨fun h => ⟨h.info, h.rev⟩, fun h => ⟨hheld, h.1, h.2⟩⟩

/-- The entry of the destination inode goes; the record that was counted down is locked. -/
theorem retire_registers (hheld : w.acquired = w.released + 1)
    (hlocked : ∀ j, w.revLocked j = decide (j = q)) (hb : w.ForwardClear ↔ b) :
    Registers a (countDown.retire a out) b w := by
  have hrev : (∀ j, w.revLocked j = true → ∀ k ≠ a.destInode, w.tables.rev k ≠ some j) ↔
      ∀ k ≠ a.destInode, w.tables.rev k ≠ some q := by
    constructor
    · exact fun h => h q (by simp [hlocked])
    · intro h j hj
      obtain rfl : j = q := by simpa [hlocked] using hj
      exact h
  intro current hcurrent
  cases current with
  | some x =>
    refine Prog.Judged.pass fun _ _ => ⟨trivial, ?_⟩
    refine Prog.Judged.pass fun _ _ => ⟨trivial, ?_⟩
    refine unlockAndReturn_registers hheld ?_
    rw [← hb]
    refine and_congr Iff.rfl (Iff.trans ?_ hrev.symm)
    constructor
    · intro h k hk
      have hclear := h q (by simp [World.step, World.setRev, hlocked]) k
      simpa [World.step, World.setRev, hk] using hclear
    · intro h j hj k
      obtain rfl : j = q := by simpa [World.step, World.setRev, hlocked] using hj
      by_cases hk : k = a.destInode
      · simp [World.step, World.setRev, hk]
      · simpa [World.step, World.setRev, hk] using h k hk
  | none =>
    have hnone : w.tables.rev a.destInode = none := hcurrent.symm
    refine unlockAndReturn_registers hheld ?_
    rw [← hb]
    refine and_congr Iff.rfl (Iff.trans ?_ hrev.symm)
    constructor
    · exact fun h k hk => h q (by simp [World.step, hlocked]) k
    · intro h j hj k
      obtain rfl : j = q := by simpa [World.step, hlocked] using hj
      by_cases hk : k = a.destInode
      · simp [World.step, hk, hnone]
      · exact h k hk

theorem countDown_registers {haveWrlock : Bool} (hheld : w.acquired = w.released + 1)
    (hrev : ∀ j, w.revLocked j = false) (hb : w.ForwardClear ↔ b)
    (hinfo : haveWrlock = false → ∀ j, w.infoLocked j = false) :
    Registers a (countDown a out haveWrlock q) b w := by
  have hlocked : ∀ j, (w.lockRev q true).revLocked j = decide (j = q) := by
    intro j
    by_cases hj : j = q
    · simp [World.lockRev, hj]
    · simp [World.lockRev, hj, hrev]
  have hunlocked : ∀ j, ((w.lockRev q true).lockRev q false).revLocked j = false := by
    intro j
    by_cases hj : j = q
    · simp [World.lockRev, hj]
    · simp [World.lockRev, hj, hrev]
  refine Prog.Judged.pass fun _ _ => ⟨trivial, ?_⟩
  refine Prog.Judged.pass fun (nlinkRC : ℕ) _ => ⟨trivial, ?_⟩
  change Registers a (ite _ _ _) b (w.lockRev q true)
  split
  · cases haveWrlock with
    | true => exact retire_registers hheld hlocked hb
    | false =>
      have hclear := hb.mp (World.forwardClear_of_unlocked (hinfo rfl))
      refine Prog.Judged.pass fun _ _ => ⟨trivial, ?_⟩
      refine Prog.Judged.pass fun _ _ => ⟨trivial, ?_⟩
      refine Prog.Judged.pass fun tables _ => ⟨trivial, ?_⟩
      refine Prog.Judged.pass fun _ _ => ⟨trivial, ?_⟩
      refine retire_registers (q := q) (by simp [World.step, World.acquire, World.lockRev, hheld])
        (fun j => ?_) ⟨fun _ => hclear, fun _ => ?_⟩
      · by_cases hj : j = q
        · simp [World.step, World.acquire, World.lockRev, hj]
        · simp [World.step, World.acquire, World.lockRev, hj, hrev]
      · exact World.forwardClear_of_unlocked (hinfo rfl)
  · refine Prog.Judged.pass fun _ _ => ⟨trivial, ?_⟩
    refine unlockAndReturn_registers hheld ?_
    rw [← hb]
    exact and_iff_left (World.revClear_of_unlocked hunlocked)

theorem rerollWrite_registers {revinfoRef : Option Ref} (hheld : w.acquired = w.released + 1)
    (hrev : ∀ j, w.revLocked j = false) (hb : w.ForwardClear ↔ b) :
    Registers a (rerollWrite a out revinfoRef) b w := by
  cases revinfoRef with
  | some q => exact countDown_registers hheld hrev hb (by simp)
  | none =>
    change Registers a (ite _ _ _) b w
    split
    · refine Prog.Judged.pass fun (q : Ref) _ => ⟨trivial, ?_⟩
      refine Prog.Judged.pass fun _ _ => ⟨trivial, ?_⟩
      refine unlockAndReturn_registers hheld ?_
      rw [← hb]
      refine and_iff_left (World.revClear_of_unlocked fun j => ?_)
      by_cases hj : j = q
      · simp [World.step, World.setRev, World.lockRev, hj]
      · simp [World.step, World.setRev, World.lockRev, hj, hrev]
    · refine unlockAndReturn_registers hheld ?_
      rw [← hb]
      exact and_iff_left (World.revClear_of_unlocked hrev)

/-- Without the write lock, this thread has no record of the forward table locked. -/
theorem rerollDststate_registers {haveWrlock : Bool} {revinfoRef : Option Ref}
    (hheld : w.acquired = w.released + 1) (hrev : ∀ j, w.revLocked j = false)
    (hb : w.ForwardClear ↔ b) (hinfo : haveWrlock = false → ∀ j, w.infoLocked j = false) :
    Registers a (rerollDststate a out haveWrlock revinfoRef) b w := by
  cases haveWrlock with
  | true => exact rerollWrite_registers hheld hrev hb
  | false =>
    have hclear := hb.mp (World.forwardClear_of_unlocked (hinfo rfl))
    cases revinfoRef with
    | some q => exact countDown_registers hheld hrev hb hinfo
    | none =>
      rw [rerollDststate, if_neg (by simp)]
      change Registers a (ite _ _ _) b w
      split
      · refine Prog.Judged.pass fun _ _ => ⟨trivial, ?_⟩
        refine Prog.Judged.pass fun tables _ => ⟨trivial, ?_⟩
        refine Prog.Judged.pass fun q _ => ⟨fun j hj => ?_, ?_⟩
        · simp [World.step, World.acquire, hrev] at hj
        · refine rerollWrite_registers ?_ hrev ⟨fun _ => hclear, fun _ => ?_⟩
          · simp [World.step, World.acquire, hheld]
          · exact World.forwardClear_of_unlocked (hinfo rfl)
      · refine unlockAndReturn_registers hheld ?_
        rw [← hb]
        exact and_iff_left (World.revClear_of_unlocked hrev)

/-- A link has been made, or need not be made; its record, locked, is counted down. -/
theorem counted_registers {revinfoRef : Option Ref} (hheld : w.acquired = w.released + 1)
    (hrev : ∀ j, w.revLocked j = false) (hlocked : ∀ j, w.infoLocked j = decide (j = r))
    (hb : b) : Registers a (relink.counted a r revinfoRef) b w := by
  have hunlocked : ∀ j, (w.lockInfo r false).infoLocked j = false := by
    intro j
    by_cases hj : j = r
    · simp [World.lockInfo, hj]
    · simp [World.lockInfo, hj, hlocked]
  refine Prog.Judged.pass fun (nlinkRC : ℕ) _ => ⟨trivial, ?_⟩
  change Registers a (ite _ _ _) b w
  split
  · refine Prog.Judged.pass fun _ _ => ⟨trivial, ?_⟩
    refine Prog.Judged.pass fun _ _ => ⟨trivial, ?_⟩
    refine Prog.Judged.pass fun tables _ => ⟨trivial, ?_⟩
    refine Prog.Judged.pass fun current _ => ⟨trivial, ?_⟩
    cases current with
    | none =>
      refine rerollDststate_registers ?_ hrev ⟨fun _ => hb, fun _ => ?_⟩ nofun
      · simp [World.step, World.acquire, World.lockInfo, hheld]
      · exact World.forwardClear_of_unlocked hunlocked
    | some x =>
      refine Prog.Judged.pass fun _ _ => ⟨trivial, ?_⟩
      intro _ _
      refine Prog.Judged.pass fun _ _ => ⟨trivial, ?_⟩
      refine rerollDststate_registers ?_ hrev ⟨fun h => ⟨hb, ?_⟩, fun h => ?_⟩ nofun
      · simp [World.step, World.acquire, World.lockInfo, World.setForward, hheld]
      · intro j hj k hk
        have hclear := h j hj k
        simpa [World.step, World.setForward, hk] using hclear
      · intro j hj k
        by_cases hk : k = a.srcInode
        · simp [World.step, World.setForward, hk]
        · simpa [World.step, World.setForward, hk] using h.2 j hj k hk
  · refine Prog.Judged.pass fun _ _ => ⟨trivial, ?_⟩
    exact rerollDststate_registers hheld hrev
      ⟨fun _ => hb, fun _ => World.forwardClear_of_unlocked hunlocked⟩ fun _ => hunlocked

theorem relink_registers {revinfoRef : Option Ref} (hheld : w.acquired = w.released + 1)
    (hrev : ∀ j, w.revLocked j = false) (hinfo : ∀ j, w.infoLocked j = false) (hb : b) :
    Registers a (relink a r revinfoRef) b w := by
  have hlocked : ∀ j, (w.lockInfo r true).infoLocked j = decide (j = r) := by
    intro j
    by_cases hj : j = r
    · simp [World.lockInfo, hj]
    · simp [World.lockInfo, hj, hinfo]
  have hunlocked : ∀ j, ((w.lockInfo r true).lockInfo r false).infoLocked j = false := by
    intro j
    by_cases hj : j = r
    · simp [World.lockInfo, hj]
    · simp [World.lockInfo, hj, hinfo]
  -- a thread whose link fails returns with both locks
  have hlink : ∀ linkRoot, Registers a (relink.link a r revinfoRef linkRoot) b
      (w.lockInfo r true) := by
    intro linkRoot result _
    cases result with
    | error e =>
      intro _
      refine ⟨fun h => ?_, fun h => h.2.elim⟩
      have hstate : w.acquired = w.released := h.state
      omega
    | ok u =>
      change Registers a (relink.counted a r revinfoRef) (b ∧ True) (w.lockInfo r true)
      rw [and_true]
      exact counted_registers hheld hrev hlocked hb
  refine Prog.Judged.pass fun linkRoot _ => ⟨trivial, ?_⟩
  refine Prog.Judged.pass fun _ _ => ⟨trivial, ?_⟩
  refine Prog.Judged.pass fun transferred _ => ⟨trivial, ?_⟩
  cases transferred with
  | true =>
    refine Prog.Judged.pass fun result _ => ⟨trivial, ?_⟩
    cases result with
    | ok u => exact hlink linkRoot
    | error e =>
      change Registers a (ite _ _ _) b (w.lockInfo r true)
      split
      · exact hlink linkRoot
      · exact counted_registers hheld hrev hlocked hb
  | false =>
    refine Prog.Judged.pass fun _ _ => ⟨trivial, ?_⟩
    refine Prog.Judged.pass fun _ _ => ⟨trivial, ?_⟩
    refine Prog.Judged.pass fun _ _ => ⟨trivial, ?_⟩
    refine Prog.Judged.pass fun _ _ => ⟨trivial, ?_⟩
    exact rerollDststate_registers hheld hrev
      ⟨fun _ => hb, fun _ => World.forwardClear_of_unlocked hunlocked⟩ fun _ => hunlocked

theorem becomeRoot_registers {revinfoRef : Option Ref} (hheld : w.acquired = w.released + 1)
    (hrev : ∀ j, w.revLocked j = false) (hinfo : ∀ j, w.infoLocked j = false) (hb : b) :
    Registers a (becomeRoot a revinfoRef) b w := by
  refine Prog.Judged.pass fun (r : Ref) _ => ⟨trivial, ?_⟩
  refine Prog.Judged.pass fun _ _ => ⟨trivial, ?_⟩
  refine Prog.Judged.pass fun _ _ => ⟨trivial, ?_⟩
  have hunlocked : ∀ j, ((w.lockInfo r false).setForward a.srcInode (some r)).infoLocked j =
      false := by
    intro j
    by_cases hj : j = r
    · simp [World.lockInfo, World.setForward, hj]
    · simp [World.lockInfo, World.setForward, hj, hinfo]
  have hend : ∀ out, Registers a (rerollDststate a out true revinfoRef) b
      ((w.lockInfo r false).setForward a.srcInode (some r)) := fun out =>
    rerollDststate_registers hheld hrev
      ⟨fun _ => hb, fun _ => World.forwardClear_of_unlocked hunlocked⟩ nofun
  cases revinfoRef with
  | none => exact hend _
  | some q =>
    change Registers a (ite _ _ _) b _
    split
    · exact Prog.Judged.pass fun srcInode _ => ⟨trivial, hend _⟩
    · exact hend _

theorem found_registers {revinfoRef : Option Ref} (hheld : w.acquired = w.released + 1)
    (hrev : ∀ j, w.revLocked j = false) (hinfo : ∀ j, w.infoLocked j = false) (hb : b) :
    Registers a (found a r revinfoRef) b w := by
  refine Prog.Judged.pass fun (destInode : ℕ) _ => ⟨trivial, ?_⟩
  change Registers a (ite _ _ _) b w
  split
  · exact relink_registers hheld hrev hinfo hb
  · exact rerollDststate_registers hheld hrev
      ⟨fun _ => hb, fun _ => World.forwardClear_of_unlocked hinfo⟩ fun _ => hinfo

theorem missing_registers {reroll : Prog Sys (Option LinkOutcome)} {revinfoRef : Option Ref}
    (hreroll : ∀ w : World, w.acquired = w.released → (∀ j, w.revLocked j = false) →
      (∀ j, w.infoLocked j = false) → Registers a reroll b w)
    (hheld : w.acquired = w.released + 1) (hrev : ∀ j, w.revLocked j = false)
    (hinfo : ∀ j, w.infoLocked j = false) (hb : b) :
    Registers a (missing a reroll revinfoRef) b w := by
  refine Prog.Judged.pass fun _ _ => ⟨trivial, ?_⟩
  refine Prog.Judged.pass fun tables _ => ⟨trivial, ?_⟩
  refine Prog.Judged.pass fun r _ => ⟨trivial, ?_⟩
  cases r with
  | some r =>
    refine Prog.Judged.pass fun _ _ => ⟨trivial, ?_⟩
    exact hreroll _ (by simp [World.step, World.acquire, hheld]) hrev hinfo
  | none => exact becomeRoot_registers (by simp [World.step, World.acquire, hheld]) hrev hinfo hb

/-- At the start of every turn nothing is locked. -/
theorem hlinkStateRegisterLinkRoot_registers (hheld : w.acquired = w.released)
    (hrev : ∀ j, w.revLocked j = false) (hinfo : ∀ j, w.infoLocked j = false) (hb : b) :
    Registers a (hlinkStateRegisterLinkRoot a turns) b w := by
  induction turns generalizing w with
  | zero =>
    intro h
    cases h
  | succ turns ih =>
    have hreadRev : ∀ tables q, RegistersWell a (w.acquire .reading tables)
        ⟨.readRev a.destInode, q⟩ := by
      intro tables q j hj
      simp [World.acquire, hrev] at hj
    have hnow : ∀ tables, (w.acquire .reading tables).acquired =
        (w.acquire .reading tables).released + 1 := by
      intro tables
      simp [World.acquire, hheld]
    have hmissing : ∀ tables revinfoRef, Registers a
        (missing a (hlinkStateRegisterLinkRoot a turns) revinfoRef) b
        (w.acquire .reading tables) := fun tables revinfoRef =>
      missing_registers (fun w hheld hrev hinfo => ih hheld hrev hinfo) (hnow tables) hrev hinfo hb
    have hfound : ∀ tables r revinfoRef, Registers a (found a r revinfoRef) b
        (w.acquire .reading tables) := fun tables r revinfoRef =>
      found_registers (hnow tables) hrev hinfo hb
    refine Prog.Judged.pass fun tables _ => ⟨trivial, ?_⟩
    refine Prog.Judged.pass fun r _ => ⟨trivial, ?_⟩
    cases r with
    | some r =>
      change Registers a (ite _ _ _) b (w.acquire .reading tables)
      split
      · exact Prog.Judged.pass fun q _ => ⟨hreadRev tables q, hfound tables r q⟩
      · exact hfound tables r none
    | none =>
      change Registers a (ite _ _ _) b (w.acquire .reading tables)
      split
      · exact Prog.Judged.pass fun q _ => ⟨hreadRev tables q, hmissing tables q⟩
      · exact hmissing tables none

end Register

/-- When an entry of the reverse table is deleted, the record of the root is in the forward
table no more. -/
def TransfersWell (w : World) : Sys.Event → Prop
  | ⟨.deleteRev _, _⟩ => w.ForwardClear
  | _ => True

section Transfer
variable {w : World} {b : Prop} {r : Ref} {srcInode destInode : ℕ}

abbrev Transfers {α : Type} (Q : α → Prop → World → Prop) (p : Prog Sys α) (b : Prop)
    (w : World) : Prop :=
  p.Judged World.step World.ok TransfersWell Q b w

theorem drain_transfers {Q : ℕ → Prop → World → Prop} (remote : String)
    (entries : List (String × FDRCRef)) (n : ℕ) (h : ∀ n, Q n b w) :
    Transfers Q (drain remote entries n) b w := by
  induction entries generalizing n with
  | nil => exact h n
  | cons e entries ih =>
    refine Prog.Judged.pass fun _ _ => ⟨trivial, ?_⟩
    refine Prog.Judged.pass fun _ _ => ⟨trivial, ?_⟩
    refine Prog.Judged.pass fun _ _ => ⟨trivial, ?_⟩
    refine Prog.Judged.pass fun _ _ => ⟨trivial, ?_⟩
    exact ih (n + 1)

structure BeforeUnlock (b : Prop) (w : World) : Prop where
  held : w.acquired = w.released + 1
  rev : ∀ q, w.revLocked q = false
  decided : w.ForwardClear ↔ b

theorem BeforeUnlock.unlock {n : ℕ} (h : BeforeUnlock b w) :
    Transfers (fun _ b w => w.LocksGivenBack ↔ b)
      (sys .unlock >>= fun _ => (pure n : Prog Sys ℕ)) b w := by
  refine Prog.Judged.pass fun _ _ => ⟨trivial, ?_⟩
  have hrev := World.revClear_of_unlocked h.rev
  rw [← h.decided]
  exact ⟨fun hback => hback.info, fun hclear => ⟨h.held, hclear, hrev⟩⟩

theorem retireRoot_transfers (hheld : w.acquired = w.released + 1)
    (hrev : ∀ q, w.revLocked q = false) (hlocked : ∀ j, w.infoLocked j = decide (j = r)) (hb : b) :
    Transfers (fun _ => BeforeUnlock) (retireRoot srcInode destInode r) b w := by
  have hunlocked : ∀ j, (w.lockInfo r false).infoLocked j = false := by
    intro j
    by_cases hj : j = r
    · simp [World.lockInfo, hj]
    · simp [World.lockInfo, hj, hlocked]
  refine Prog.Judged.pass fun _ _ => ⟨trivial, ?_⟩
  refine Prog.Judged.pass fun _ _ => ⟨trivial, ?_⟩
  refine Prog.Judged.pass fun tables _ => ⟨trivial, ?_⟩
  refine Prog.Judged.pass fun current _ => ⟨trivial, ?_⟩
  have hnow : ∀ locked, ((({ w.lockInfo r false with
      released := w.released + 1, held := none } : World).acquire .writing tables).lockInfo r
        locked).acquired = w.released + 1 + 1 := by
    intro locked
    simp [World.acquire, World.lockInfo, hheld]
  cases current with
  | some x =>
    refine Prog.Judged.pass fun _ _ => ⟨trivial, fun _ _ => ?_⟩
    refine Prog.Judged.pass fun _ _ => ⟨trivial, ?_⟩
    exact ⟨hnow true, hrev, ⟨fun h => ⟨hb, h⟩, fun h => h.2⟩⟩
  | none =>
    refine Prog.Judged.pass fun _ _ => ⟨trivial, hnow false, hrev, fun _ => hb, fun _ => ?_⟩
    refine World.forwardClear_of_unlocked fun j => ?_
    by_cases hj : j = r
    · simp [World.step, World.lockInfo, hj]
    · simpa [World.step, World.acquire, World.lockInfo, hj] using hunlocked j

theorem hlinkStateHandleTransfer_transfers {remote : String} (hheld : w.acquired = w.released)
    (hrev : ∀ q, w.revLocked q = false) (hinfo : ∀ j, w.infoLocked j = false) (hb : b) :
    Transfers (fun _ b w => w.LocksGivenBack ↔ b)
      (hlinkStateHandleTransfer remote srcInode destInode) b w := by
  refine Prog.Judged.pass fun tables _ => ⟨trivial, ?_⟩
  refine Prog.Judged.pass fun r _ => ⟨trivial, ?_⟩
  have hnow : (w.acquire .reading tables).acquired = (w.acquire .reading tables).released + 1 := by
    simp [World.acquire, hheld]
  cases r with
  | none =>
    exact BeforeUnlock.unlock
      ⟨hnow, hrev, fun _ => hb, fun _ => World.forwardClear_of_unlocked hinfo⟩
  | some r =>
    have hlocked : ∀ j, ((w.acquire .reading tables).lockInfo r true).infoLocked j =
        decide (j = r) := by
      intro j
      by_cases hj : j = r
      · simp [World.lockInfo, hj]
      · simp [World.lockInfo, World.acquire, hj, hinfo]
    refine Prog.Judged.pass fun _ _ => ⟨trivial, ?_⟩
    refine Prog.Judged.pass fun _ _ => ⟨trivial, ?_⟩
    refine Prog.Judged.pass fun entries _ => ⟨trivial, ?_⟩
    refine (drain_transfers (Q := fun _ b' w' => b' = b ∧
      w' = (w.acquire .reading tables).lockInfo r true) remote entries 0
      fun _ => ⟨rfl, rfl⟩).bind ?_
    rintro n _ _ ⟨rfl, rfl⟩
    refine Prog.Judged.pass fun (nlinkRC : ℕ) _ => ⟨trivial, ?_⟩
    change Transfers _ (ite _ _ _) _ ((w.acquire .reading tables).lockInfo r true)
    split
    · exact (retireRoot_transfers (w := (w.acquire .reading tables).lockInfo r true) hnow hrev
        hlocked hb).bind fun _ _ _ h => h.unlock
    · refine Prog.Judged.pass fun _ _ => ⟨trivial, ?_⟩
      refine BeforeUnlock.unlock ⟨hnow, hrev, fun _ => hb, fun _ => ?_⟩
      refine World.forwardClear_of_unlocked fun j => ?_
      by_cases hj : j = r
      · simp [World.step, World.lockInfo, hj]
      · simpa [World.step, World.lockInfo, hj] using hlocked j

end Transfer

/-- The trace of a call, which starts with no lock, is one that other threads allow. -/
def Allowed (l : List Sys.Event) : Prop := Protocol.Consistent World.step World.ok {} l

def after (l : List Sys.Event) : World := l.foldl World.step {}

/-- Whatever the tables hold and whatever fails, a call that returns has given back the state
lock, and left no record of a table locked, exactly if no link of a registration has failed
and no record that was counted down to zero stayed in its table under another key than the
one that was removed; a transfer removes no entry of its own record. -/
theorem locks_given_back_iff (a : Args) (turns : ℕ) (remote : String) (srcInode destInode : ℕ) :
    ((hlinkStateRegisterLinkRoot a turns).Every fun out l => out.isSome = true →
      Allowed l → ((after l).LocksGivenBack ↔
        Protocol.Consistent World.step (RegistersWell a) {} l)) ∧
    ((hlinkStateHandleTransfer remote srcInode destInode).Every fun _ l =>
      Allowed l → ((after l).LocksGivenBack ↔
        Protocol.Consistent World.step TransfersWell {} l)) := by
  constructor
  · refine (hlinkStateRegisterLinkRoot_registers (w := {}) rfl (fun _ => rfl) (fun _ => rfl)
      trivial).every.mono fun out l h hout hl => ?_
    exact h hl hout
  · exact (hlinkStateHandleTransfer_transfers (w := {}) rfl (fun _ => rfl) (fun _ => rfl)
      trivial).every

/-- The inodes 1 and 2 of the source are in the forward table. -/
def sampleTables : Tables where
  forward k := if k = 1 then some 10 else if k = 2 then some 20 else none

/-- Another name of inode 1, the last one, which is not on the destination yet. -/
def sampleArgs : Args := ⟨"other", 1, 0, false, 2, 0, true, 4⟩

def linkRun : Option LinkOutcome × List Sys.Event :=
  (hlinkStateRegisterLinkRoot sampleArgs 1).run
    (fun _ => undisturbed sampleTables true 2 (.ok ())) []

def countRun : ℕ × List Sys.Event :=
  (hlinkStateHandleTransfer "root" 1 2).run (fun _ => undisturbed sampleTables true 2 (.ok ())) []

theorem locks_given_back_sample :
    (after linkRun.2).LocksGivenBack ∧ (after countRun.2).LocksGivenBack := by
  obtain ⟨hregister, htransfer⟩ := locks_given_back_iff sampleArgs 1 "root" 1 2
  refine ⟨(hregister.run_nil rfl ?_).mpr ?_, (htransfer.run_nil ?_).mpr ?_⟩
  · exact ⟨trivial, rfl, trivial, trivial, trivial, trivial, trivial, trivial, trivial, trivial,
      trivial, trivial⟩
  · exact ⟨trivial, trivial, trivial, trivial, trivial, trivial, trivial, trivial, trivial, trivial,
      trivial, trivial⟩
  · exact ⟨trivial, rfl, trivial, trivial, trivial, trivial, trivial, trivial, trivial⟩
  · exact ⟨trivial, trivial, trivial, trivial, trivial, trivial, trivial, trivial, trivial⟩

def registerRun : Option LinkOutcome × List Sys.Event :=
  (hlinkStateRegisterLinkRoot sampleArgs 1).run
    (fun _ => undisturbed sampleTables true 1 (.error 5)) []

def transferRun : ℕ × List Sys.Event :=
  (hlinkStateHandleTransfer "root" 1 2).run (fun _ => undisturbed sampleTables true 1 (.ok ())) []

/-- When the link fails, both locks stay; and after a transfer under the destination inode 2, the
record of the source inode 1 stays locked. -/
theorem locks_kept :
    ((registerRun.1.isSome = true ∧ Allowed registerRun.2) ∧
      ¬ (after registerRun.2).LocksGivenBack) ∧
    Allowed transferRun.2 ∧ ¬ (after transferRun.2).LocksGivenBack := by
  refine ⟨⟨⟨rfl, ?_⟩, fun h => ?_⟩, ?_, fun h => ?_⟩
  · exact ⟨trivial, rfl, trivial, trivial, trivial, trivial, trivial, trivial, trivial⟩
  · exact absurd h.state (by decide)
  · exact ⟨trivial, rfl, trivial, trivial, trivial, trivial, trivial, trivial, trivial, rfl, trivial,
      trivial, trivial, trivial, trivial⟩
  · exact h.info 10 rfl 1 rfl

end Copy2.HLink.Program
