import Copy2.HLink.Program

/-! # Which entries a call of the link table uses

A registration is to use its own two entries only, as they are when it uses them; the
handling of a transfer is to leave every entry alone but that of its source inode. -/
namespace Copy2.HLink.Program
open FileJob Lib Os

structure Watched where
  world : World := {}
  source : Option Ref := none
  seen : Option Ref := none
  counted : Bool := false
  removedInfo : Option Ref := none
  removedRev : Option Ref := none

namespace Watched
variable (x : Watched)

def count (nlinkRC : ℕ) : Watched := { x with counted := x.counted || nlinkRC == 0 }

def step (e : Sys.Event) : Watched :=
  let y := { x with world := x.world.step e }
  match e with
  | ⟨.readForward _, r⟩ => { y with source := r }
  | ⟨.readRev _, q⟩ => { y with seen := q }
  | ⟨.decInfo _, nlinkRC⟩ => y.count nlinkRC
  | ⟨.deleteForward k, _⟩ => { y with removedInfo := x.world.tables.forward k }
  | ⟨.deleteRev k, _⟩ => { y with removedRev := x.world.tables.rev k }
  | _ => y

def ok (e : Sys.Event) : Prop := x.world.ok e

/-- Own keys only; tables change under the write lock; a count is taken from the record that the
table has under the key, and so are the records that are freed; and no entry of the reverse
table is written over. -/
def OwnEntries (a : Args) : Sys.Event → Prop
  | ⟨.readForward k, _⟩ => k = a.srcInode ∧ x.world.held.isSome = true
  | ⟨.readRev k, _⟩ => k = a.destInode ∧ x.world.held.isSome = true
  | ⟨.writeForward k _, _⟩ => k = a.srcInode ∧ x.world.tables.forward k = none ∧
      x.world.held = some .writing
  | ⟨.writeRev k _, _⟩ => k = a.destInode ∧ x.world.tables.rev k = none ∧
      x.world.held = some .writing
  | ⟨.deleteForward k, _⟩ => k = a.srcInode ∧ x.world.held = some .writing
  | ⟨.deleteRev k, _⟩ => k = a.destInode ∧ x.world.held = some .writing
  | ⟨.decInfo r, _⟩ => x.world.tables.forward a.srcInode = some r
  | ⟨.decRev q, _⟩ => x.world.tables.rev a.destInode = some q
  | ⟨.freeInfo r, _⟩ => x.removedInfo = some r
  | ⟨.freeRev q, _⟩ => x.removedRev = some q
  | _ => True

/-- The entry of the destination inode, if it is going to be used, is the one that was seen. -/
def SameRev (a : Args) (tables : Tables) : Prop :=
  a.destExists = true → (x.seen.isSome = true ∨ 1 < a.destNLinksExpected) →
    tables.rev a.destInode = x.seen

/-- When the lock is promoted: for a new root, or after the last link of a root, the entry of the
destination inode has not changed; to look for it again, the two inode numbers are the same;
and once it has been counted down to zero, anything may have happened. -/
def PromotesWell (a : Args) : Sys.Event → Prop
  | ⟨.wrlock, tables⟩ =>
    if x.source = none then tables.forward a.srcInode = none → x.SameRev a tables
    else if x.counted then x.SameRev a tables
    else x.seen = none → a.srcInode = a.destInode
  | _ => True

section Promotes
variable {x : Watched} {a : Args} {tables : Tables}

theorem promotesWell_root (h : x.source = none) : x.PromotesWell a ⟨.wrlock, tables⟩ ↔
    (tables.forward a.srcInode = none → x.SameRev a tables) := by
  change ite _ _ _ ↔ _
  rw [if_pos h]

theorem promotesWell_counted (h : x.source ≠ none) (hc : x.counted = true) :
    x.PromotesWell a ⟨.wrlock, tables⟩ ↔ x.SameRev a tables := by
  change ite _ _ _ ↔ _
  rw [if_neg h, if_pos hc]

theorem promotesWell_rev (h : x.source ≠ none) (hc : x.counted = false) :
    x.PromotesWell a ⟨.wrlock, tables⟩ ↔ (x.seen = none → a.srcInode = a.destInode) := by
  change ite _ _ _ ↔ _
  rw [if_neg h, hc, if_neg (by simp)]

end Promotes

end Watched

section Register
variable {a : Args} {x : Watched} {b v : Prop} {out : LinkOutcome} {r q : Ref} {turns : ℕ}

abbrev Uses (a : Args) (p : Prog Sys (Option LinkOutcome)) (b : Prop) (x : Watched) (v : Prop) :
    Prop :=
  p.Judged (Prog.watch Watched.step fun x e => x.OwnEntries a e) (fun y e => y.1.ok e)
    (fun y e => y.1.PromotesWell a e) (fun _ b y => y.2 ↔ b) b (x, v)

/-- A call that is no promotion, and uses its own entries only. -/
theorem Uses.own {c : Call} {next : c.Answer → Prog Sys (Option LinkOutcome)}
    (h : ∀ r, x.ok ⟨c, r⟩ → x.PromotesWell a ⟨c, r⟩ ∧ x.OwnEntries a ⟨c, r⟩ ∧
      Uses a (next r) b (x.step ⟨c, r⟩) v) : Uses a (.call c next) b x v :=
  Prog.Judged.watched Watched.ok (fun x e => x.PromotesWell a e) (fun x e => x.OwnEntries a e) h

/-- Once something has gone wrong on both accounts, nothing changes that. -/
theorem Uses.of_not (p : Prog Sys (Option LinkOutcome)) (hb : ¬ b) (hv : ¬ v) : Uses a p b x v := by
  induction p generalizing b v x with
  | ret out => exact ⟨fun h => absurd h hv, fun h => absurd h hb⟩
  | call c next ih =>
    exact fun r _ => ih r (fun h => hb h.1) fun h => hv h.1

/-- A promotion, under a condition on what the tables are then. -/
theorem Uses.promote {next : Tables → Prog Sys (Option LinkOutcome)} (good : Tables → Prop)
    (hgood : ∀ tables, x.PromotesWell a ⟨.wrlock, tables⟩ ↔ good tables)
    (h : ∀ tables, good tables → Uses a (next tables) b (x.step ⟨.wrlock, tables⟩) v)
    (hnot : ∀ tables, ¬ good tables → ∀ b v, ¬ b →
      Uses a (next tables) b (x.step ⟨.wrlock, tables⟩) v) : Uses a (.call .wrlock next) b x v := by
  intro (tables : Tables) _
  have hw : Prog.watch Watched.step (fun x e => x.OwnEntries a e) (x, v) ⟨.wrlock, tables⟩ =
      (x.step ⟨.wrlock, tables⟩, v) := Prod.ext rfl (propext (and_iff_left trivial))
  rw [hw]
  by_cases hg : good tables
  · rw [and_iff_left ((hgood tables).mpr hg)]
    exact h tables hg
  · exact hnot tables hg _ v fun hall => hg ((hgood tables).mp hall.2)

theorem unlockAndReturn_uses (hv : v ↔ b) : Uses a (unlockAndReturn out) b x v :=
  Uses.own fun _ _ => ⟨trivial, trivial, hv⟩

theorem retire_uses (hheld : x.world.held = some .writing) (hv : v ↔ b) :
    Uses a (countDown.retire a out) b x v := by
  refine Uses.own fun current hcurrent => ⟨trivial, ⟨rfl, by rw [hheld]; rfl⟩, ?_⟩
  cases current with
  | some q =>
    refine Uses.own fun _ _ => ⟨trivial, ⟨rfl, hheld⟩, ?_⟩
    exact Uses.own fun _ _ => ⟨trivial, Eq.symm hcurrent, unlockAndReturn_uses hv⟩
  | none => exact unlockAndReturn_uses hv

/-- Before a promotion in the reverse part: the source inode has its entry, and its last link has
not been counted. -/
structure Unpromoted (x : Watched) (revinfoRef : Option Ref) : Prop where
  held : x.world.held.isSome = true
  source : x.source ≠ none
  counted : x.counted = false
  seen : x.seen = revinfoRef

theorem countDown_uses {haveWrlock : Bool} (hrev : x.world.tables.rev a.destInode = some q)
    (hwrite : haveWrlock = true → x.world.held = some .writing)
    (hread : haveWrlock = false → Unpromoted x (some q)) (hv : v ↔ b) :
    Uses a (countDown a out haveWrlock q) b x v := by
  refine Uses.own fun _ _ => ⟨trivial, trivial, ?_⟩
  refine Uses.own fun (nlinkRC : ℕ) _ => ⟨trivial, hrev, ?_⟩
  change Uses a (ite _ _ _) b _ v
  split
  · cases haveWrlock with
    | true => exact retire_uses (hwrite rfl) hv
    | false =>
      have h := hread rfl
      refine Uses.own fun _ _ => ⟨trivial, trivial, ?_⟩
      refine Uses.own fun _ _ => ⟨trivial, trivial, ?_⟩
      refine Uses.own fun tables _ => ⟨?_, trivial, ?_⟩
      · exact (Watched.promotesWell_rev h.source h.counted).mpr fun hnone =>
          absurd (h.seen.symm.trans hnone) (by simp)
      · exact Uses.own fun _ _ => ⟨trivial, trivial, retire_uses rfl hv⟩
  · exact Uses.own fun _ _ => ⟨trivial, trivial, unlockAndReturn_uses hv⟩

/-- Under the write lock the reverse part uses its entry if one was seen, or makes one. -/
def UsesRev (a : Args) (revinfoRef : Option Ref) : Prop :=
  revinfoRef.isSome = true ∨ (a.destExists = true ∧ 1 < a.destNLinksExpected)

theorem rerollWrite_uses {revinfoRef : Option Ref} (hheld : x.world.held = some .writing)
    (hrev : UsesRev a revinfoRef → x.world.tables.rev a.destInode = revinfoRef) (hv : v ↔ b) :
    Uses a (rerollWrite a out revinfoRef) b x v := by
  cases revinfoRef with
  | some q => exact countDown_uses (hrev (.inl rfl)) (fun _ => hheld) nofun hv
  | none =>
    rw [rerollWrite]
    split
    · rename_i hmake
      have hnone : x.world.tables.rev a.destInode = none := hrev (.inr (by simpa using hmake))
      refine Uses.own fun q _ => ⟨trivial, trivial, ?_⟩
      exact Uses.own fun _ _ => ⟨trivial, ⟨rfl, hnone, hheld⟩, unlockAndReturn_uses hv⟩
    · exact unlockAndReturn_uses hv

/-- An entry that has changed is written over, or its old record counted down. -/
theorem rerollWrite_not {revinfoRef : Option Ref} (huse : UsesRev a revinfoRef)
    (hrev : x.world.tables.rev a.destInode ≠ revinfoRef) (hb : ¬ b) :
    Uses a (rerollWrite a out revinfoRef) b x v := by
  cases revinfoRef with
  | some q =>
    intro _ _ nlinkRC _
    exact Uses.of_not _ (fun h => hb h.1.1) fun h => hrev h.2
  | none =>
    rw [rerollWrite]
    split
    · intro q _ _ _
      exact Uses.of_not _ (fun h => hb h.1.1) fun h => hrev h.2.2.1
    · rename_i hmake
      exact absurd (huse.resolve_left (by simp)) (by simpa using hmake)

/-- What is looked for again is looked for under the source inode. -/
theorem rerollDststate_uses {revinfoRef : Option Ref}
    (hrev : revinfoRef.isSome = true → x.world.tables.rev a.destInode = revinfoRef)
    (h : Unpromoted x revinfoRef) (hv : v ↔ b) :
    Uses a (rerollDststate a out false revinfoRef) b x v := by
  cases revinfoRef with
  | some q => exact countDown_uses (hrev rfl) nofun (fun _ => h) hv
  | none =>
    rw [rerollDststate, if_neg (by simp)]
    split
    · refine Uses.own fun _ _ => ⟨trivial, trivial, ?_⟩
      have hpromotes : ∀ tables, (x.step ⟨.unlock, ()⟩).PromotesWell a ⟨.wrlock, tables⟩ ↔
          a.srcInode = a.destInode := by
        intro tables
        exact (Watched.promotesWell_rev h.source h.counted).trans
          ⟨fun he => he h.seen, fun he _ => he⟩
      by_cases hkey : a.srcInode = a.destInode
      · refine Uses.own fun tables _ => ⟨(hpromotes tables).mpr hkey, trivial, ?_⟩
        refine Uses.own fun q hq => ⟨trivial, ⟨hkey, rfl⟩, rerollWrite_uses rfl (fun _ => ?_) hv⟩
        rw [hkey] at hq
        exact Eq.symm hq
      · intro tables _ q _
        exact Uses.of_not _ (fun hall => hkey ((hpromotes tables).mp hall.1.2))
          fun hall => hkey hall.2.1
    · exact unlockAndReturn_uses hv

structure AsRead (a : Args) (x : Watched) (r : Ref) (revinfoRef : Option Ref) : Prop
    extends Unpromoted x revinfoRef where
  forward : x.world.tables.forward a.srcInode = some r
  rev : revinfoRef.isSome = true → x.world.tables.rev a.destInode = revinfoRef
  unseen : a.destExists = false → revinfoRef = none

theorem Watched.sameRev_iff {revinfoRef : Option Ref} {tables : Tables} (hseen : x.seen = revinfoRef)
    (hunseen : a.destExists = false → revinfoRef = none) :
    x.SameRev a tables ↔ (UsesRev a revinfoRef → tables.rev a.destInode = revinfoRef) := by
  subst hseen
  constructor
  · rintro h (hsome | ⟨hexists, hlinks⟩)
    · refine h ?_ (.inl hsome)
      by_contra hne
      simp [hunseen (by simpa using hne)] at hsome
    · exact h hexists (.inr hlinks)
  · intro h hexists huse
    exact h (huse.imp_right fun hlinks => ⟨hexists, hlinks⟩)

/-- The last link of a root removes its entry, under the write lock. -/
theorem counted_uses {revinfoRef : Option Ref} (h : AsRead a x r revinfoRef) (hv : v ↔ b) :
    Uses a (relink.counted a r revinfoRef) b x v := by
  refine Uses.own fun (nlinkRC : ℕ) _ => ⟨trivial, h.forward, ?_⟩
  change Uses a (ite _ _ _) b (x.step ⟨.decInfo r, nlinkRC⟩) v
  by_cases hzero : nlinkRC = 0
  · rw [if_pos hzero]
    subst hzero
    refine Uses.own fun _ _ => ⟨trivial, trivial, ?_⟩
    refine Uses.own fun _ _ => ⟨trivial, trivial, ?_⟩
    refine Uses.promote (fun tables => UsesRev a revinfoRef → tables.rev a.destInode = revinfoRef)
      (fun tables => ?_) (fun tables hrev => ?_) fun tables hrev b v hb => ?_
    · refine Iff.trans ?_ (Watched.sameRev_iff (x := x) h.seen h.unseen)
      exact Watched.promotesWell_counted (x := ((x.step ⟨.decInfo r, (0 : ℕ)⟩).step
        ⟨.unlockInfo r, ()⟩).step ⟨.unlock, ()⟩) h.source (Bool.or_true _)
    · refine Uses.own fun current hcurrent => ⟨trivial, ⟨rfl, rfl⟩, ?_⟩
      cases current with
      | none => exact rerollWrite_uses rfl hrev hv
      | some q =>
        refine Uses.own fun _ _ => ⟨trivial, trivial, ?_⟩
        refine Uses.own fun _ _ => ⟨trivial, ⟨rfl, rfl⟩, ?_⟩
        refine Uses.own fun _ _ => ⟨trivial, Eq.symm hcurrent, ?_⟩
        exact rerollWrite_uses rfl hrev hv
    · obtain ⟨huse, hne⟩ := Classical.not_imp.mp hrev
      refine Uses.own fun current hcurrent => ⟨trivial, ⟨rfl, rfl⟩, ?_⟩
      cases current with
      | none => exact rerollWrite_not huse hne hb
      | some q =>
        refine Uses.own fun _ _ => ⟨trivial, trivial, ?_⟩
        refine Uses.own fun _ _ => ⟨trivial, ⟨rfl, rfl⟩, ?_⟩
        refine Uses.own fun _ _ => ⟨trivial, Eq.symm hcurrent, ?_⟩
        exact rerollWrite_not huse hne hb
  · rw [if_neg hzero]
    refine Uses.own fun _ _ => ⟨trivial, trivial, ?_⟩
    refine rerollDststate_uses h.rev ⟨h.held, h.source, ?_, h.seen⟩ hv
    simpa [Watched.step, Watched.count, h.counted] using hzero

theorem relink_uses {revinfoRef : Option Ref} (h : AsRead a x r revinfoRef) (hv : v ↔ b) :
    Uses a (relink a r revinfoRef) b x v := by
  have hcounted : ∀ y : Watched, y = x.step ⟨.lockInfo r, ()⟩ →
      Uses a (relink.counted a r revinfoRef) b y v := by
    rintro y rfl
    exact counted_uses ⟨⟨h.held, h.source, h.counted, h.seen⟩, h.forward, h.rev, h.unseen⟩ hv
  have hlink : ∀ linkRoot, Uses a (relink.link a r revinfoRef linkRoot) b
      (x.step ⟨.lockInfo r, ()⟩) v := by
    intro linkRoot
    refine Uses.own fun result _ => ⟨trivial, trivial, ?_⟩
    cases result with
    | error e => exact hv
    | ok u => exact hcounted _ rfl
  refine Uses.own fun linkRoot _ => ⟨trivial, trivial, ?_⟩
  refine Uses.own fun _ _ => ⟨trivial, trivial, ?_⟩
  refine Uses.own fun transferred _ => ⟨trivial, trivial, ?_⟩
  cases transferred with
  | true =>
    refine Uses.own fun result _ => ⟨trivial, trivial, ?_⟩
    cases result with
    | ok u => exact hlink linkRoot
    | error e =>
      change Uses a (ite _ _ _) b (x.step ⟨.lockInfo r, ()⟩) v
      split
      · exact hlink linkRoot
      · exact hcounted _ rfl
  | false =>
    refine Uses.own fun _ _ => ⟨trivial, trivial, ?_⟩
    refine Uses.own fun _ _ => ⟨trivial, trivial, ?_⟩
    refine Uses.own fun _ _ => ⟨trivial, trivial, ?_⟩
    refine Uses.own fun _ _ => ⟨trivial, trivial, ?_⟩
    exact rerollDststate_uses h.rev ⟨h.held, h.source, h.counted, h.seen⟩ hv

/-- The new root is put in its place, where there was nothing; the reverse part follows. -/
theorem becomeRoot_own {revinfoRef : Option Ref} (hheld : x.world.held = some .writing)
    (hnone : x.world.tables.forward a.srcInode = none)
    (h : ∀ y : Watched, y.world.held = some .writing → y.world.tables.rev = x.world.tables.rev →
      ∀ out, Uses a (rerollDststate a out true revinfoRef) b y v) :
    Uses a (becomeRoot a revinfoRef) b x v := by
  refine Uses.own fun r _ => ⟨trivial, trivial, ?_⟩
  refine Uses.own fun _ _ => ⟨trivial, trivial, ?_⟩
  refine Uses.own fun _ _ => ⟨trivial, ⟨rfl, hnone, hheld⟩, ?_⟩
  have hroot := h (((x.step ⟨.newInfo a.remote a.destInode a.srcNLinksExpected, r⟩).step
    ⟨.increfPath a.remote, ()⟩).step ⟨.writeForward a.srcInode r, ()⟩) hheld rfl
  cases revinfoRef with
  | none => exact hroot _
  | some q =>
    change Uses a (ite _ _ _) b _ v
    split
    · exact Uses.own fun srcInode _ => ⟨trivial, trivial, hroot _⟩
    · exact hroot _

theorem missing_uses {reroll : Prog Sys (Option LinkOutcome)} {revinfoRef : Option Ref}
    (hsource : x.source = none) (hseen : x.seen = revinfoRef)
    (hunseen : a.destExists = false → revinfoRef = none) (hcounted : x.counted = false)
    (hreroll : ∀ y : Watched, y.counted = false → (a.destExists = false → y.seen = none) →
      Uses a reroll b y v) (hv : v ↔ b) : Uses a (missing a reroll revinfoRef) b x v := by
  refine Uses.own fun _ _ => ⟨trivial, trivial, ?_⟩
  refine Uses.promote (fun tables => tables.forward a.srcInode = none → UsesRev a revinfoRef →
    tables.rev a.destInode = revinfoRef) (fun tables => ?_) (fun tables hrev => ?_)
    fun tables hrev b v hb => ?_
  · exact (Watched.promotesWell_root (x := x.step ⟨.unlock, ()⟩) hsource).trans
      (imp_congr_right fun _ => Watched.sameRev_iff (x := x) hseen hunseen)
  · refine Uses.own fun current hcurrent => ⟨trivial, ⟨rfl, rfl⟩, ?_⟩
    cases current with
    | some q =>
      refine Uses.own fun _ _ => ⟨trivial, trivial, hreroll _ hcounted fun hno => ?_⟩
      exact hseen.trans (hunseen hno)
    | none =>
      have hnone : tables.forward a.srcInode = none := Eq.symm hcurrent
      refine becomeRoot_own rfl hnone fun y hheld hsame out => rerollWrite_uses hheld ?_ hv
      rw [hsame]
      exact hrev hnone
  · obtain ⟨hnone, hrev⟩ := Classical.not_imp.mp hrev
    obtain ⟨huse, hne⟩ := Classical.not_imp.mp hrev
    refine Uses.own fun current hcurrent => ⟨trivial, ⟨rfl, rfl⟩, ?_⟩
    cases current with
    | some q => exact absurd (hcurrent.trans hnone) (by simp)
    | none =>
      refine becomeRoot_own rfl hnone fun y hheld hsame out => rerollWrite_not huse ?_ hb
      rw [hsame]
      exact hne

theorem found_uses {revinfoRef : Option Ref} (h : AsRead a x r revinfoRef) (hv : v ↔ b) :
    Uses a (found a r revinfoRef) b x v := by
  refine Uses.own fun (destInode : ℕ) _ => ⟨trivial, trivial, ?_⟩
  have hnow : AsRead a (x.step ⟨.destInode r, destInode⟩) r revinfoRef :=
    ⟨⟨h.held, h.source, h.counted, h.seen⟩, h.forward, h.rev, h.unseen⟩
  change Uses a (ite _ _ _) b _ v
  split
  · exact relink_uses hnow hv
  · exact rerollDststate_uses hnow.rev hnow.toUnpromoted hv

theorem hlinkStateRegisterLinkRoot_uses (hcounted : x.counted = false)
    (hseen : a.destExists = false → x.seen = none) (hv : v ↔ b) :
    Uses a (hlinkStateRegisterLinkRoot a turns) b x v := by
  induction turns generalizing x with
  | zero => exact hv
  | succ turns ih =>
    refine Uses.own fun tables _ => ⟨trivial, trivial, ?_⟩
    refine Uses.own fun current hcurrent => ⟨trivial, ⟨rfl, rfl⟩, ?_⟩
    cases current with
    | some r =>
      have hforward : tables.forward a.srcInode = some r := Eq.symm hcurrent
      change Uses a (ite _ _ _) b _ v
      split
      · rename_i hexists
        refine Uses.own fun q hq => ⟨trivial, ⟨rfl, rfl⟩, ?_⟩
        exact found_uses ⟨⟨rfl, by simp [Watched.step], hcounted, rfl⟩, hforward,
          fun _ => Eq.symm hq, fun hno => by simp [hexists] at hno⟩ hv
      · rename_i hexists
        exact found_uses ⟨⟨rfl, by simp [Watched.step], hcounted, hseen (by simpa using hexists)⟩,
          hforward, nofun, fun _ => rfl⟩ hv
    | none =>
      change Uses a (ite _ _ _) b _ v
      split
      · rename_i hexists
        refine Uses.own fun q hq => ⟨trivial, ⟨rfl, rfl⟩, ?_⟩
        exact missing_uses rfl rfl (fun hno => by simp [hexists] at hno) hcounted
          (fun y hcounted hseen => ih hcounted hseen) hv
      · rename_i hexists
        exact missing_uses rfl (hseen (by simpa using hexists)) (fun _ => rfl) hcounted
          (fun y hcounted hseen => ih hcounted hseen) hv

end Register

/-- Whatever the tables hold, and whatever other threads do to them while their lock is given
back, a registration uses its own two entries only, and these as they are, exactly if every
promotion of the lock finds the entry of the destination inode as it was seen, where it is
going to be used, and no entry is looked for again under the number of the source inode,
unless the numbers are the same. -/
theorem own_entries_iff (a : Args) (turns : ℕ) :
    (hlinkStateRegisterLinkRoot a turns).Shows Watched.step Watched.ok
      (fun x e => x.PromotesWell a e) (fun x e => x.OwnEntries a e) {} :=
  .of_judged (hlinkStateRegisterLinkRoot_uses rfl (fun _ => rfl) ⟨fun _ => trivial, fun _ => trivial⟩)

def rootArgs : Args := ⟨"root", 1, 2, true, 2, 2, false, 4⟩

def rootRun : Option LinkOutcome × List Sys.Event :=
  (hlinkStateRegisterLinkRoot rootArgs 1).run (fun _ => undisturbed {} false 2 (.ok ())) []

/-- It becomes the root, and makes an entry in both tables. -/
theorem own_entries_sample :
    (rootRun.2.foldl Watched.step {}).world.tables.forward 1 = some 30 ∧
      (rootRun.2.foldl Watched.step {}).world.tables.rev 2 = some 30 ∧
      Protocol.Consistent Watched.step (fun x e => x.OwnEntries rootArgs e) {} rootRun.2 := by
  refine ⟨rfl, rfl, ((own_entries_iff rootArgs 1).run_nil ?_).mpr ?_⟩
  · exact ⟨trivial, rfl, rfl, trivial, trivial, rfl, nofun, trivial, trivial, nofun, trivial,
      trivial, trivial⟩
  · refine ⟨trivial, trivial, trivial, trivial, ?_, trivial, trivial, trivial, trivial, trivial,
      trivial, trivial, trivial⟩
    exact (Watched.promotesWell_root rfl).mpr fun _ _ _ => rfl

def Tables.SameBut (srcInode : ℕ) (t u : Tables) : Prop :=
  (∀ k, k ≠ srcInode → t.forward k = u.forward k) ∧ t.rev = u.rev

/-- What the handling of a transfer has done so far: whether it has counted its record down to
zero, after which its entry is to go. -/
structure Handled where
  world : World := {}
  retired : Bool := false

namespace Handled
variable (x : Handled)

def step (e : Sys.Event) : Handled :=
  let y := { x with world := x.world.step e }
  match e with
  | ⟨.decInfo _, nlinkRC⟩ => { y with retired := decide (decSize nlinkRC = 0) }
  | _ => y

def ok (e : Sys.Event) : Prop := x.world.ok e

/-- Every other entry stays as it is, and its record is not freed; while the state lock is not
held, the tables belong to others. -/
def TouchesOwn (srcInode : ℕ) : Sys.Event → Prop
  | ⟨.rdlock, _⟩ | ⟨.wrlock, _⟩ => True
  | ⟨.freeInfo r, _⟩ => ∀ k, k ≠ srcInode → x.world.tables.forward k ≠ some r
  | ⟨.freeRev q, _⟩ => ∀ k, x.world.tables.rev k ≠ some q
  | e => (x.step e).world.tables.SameBut srcInode x.world.tables

def Gone (srcInode : ℕ) : Prop := x.retired = true → x.world.tables.forward srcInode = none

/-- When the lock is promoted, the forward table has no entry of either inode. -/
def RetiresWell (srcInode destInode : ℕ) : Sys.Event → Prop
  | ⟨.wrlock, tables⟩ => tables.forward srcInode = none ∧ tables.forward destInode = none
  | _ => True

end Handled

section Transfer
variable {α : Type} {srcInode destInode : ℕ} {x : Handled} {b v : Prop} {r : Ref}

abbrev Touches (srcInode destInode : ℕ) (Q : α → Prop → Handled × Prop → Prop) (p : Prog Sys α)
    (b : Prop) (x : Handled) (v : Prop) : Prop :=
  p.Judged (Prog.watch Handled.step fun x e => x.TouchesOwn srcInode e) (fun y e => y.1.ok e)
    (fun _ e => Handled.RetiresWell srcInode destInode e) Q b (x, v)

theorem Touches.own {Q : α → Prop → Handled × Prop → Prop} {c : Call}
    {next : c.Answer → Prog Sys α}
    (h : ∀ r, x.ok ⟨c, r⟩ → Handled.RetiresWell srcInode destInode ⟨c, r⟩ ∧
      x.TouchesOwn srcInode ⟨c, r⟩ ∧ Touches srcInode destInode Q (next r) b (x.step ⟨c, r⟩) v) :
    Touches srcInode destInode Q (.call c next) b x v :=
  Prog.Judged.watched Handled.ok (fun _ e => Handled.RetiresWell srcInode destInode e)
    (fun x e => x.TouchesOwn srcInode e) h

/-- The call has left the other entries alone, and its own is gone, exactly if the promotion, if
there was one, was good. -/
def LeavesOthers (srcInode : ℕ) (_ : ℕ) (b : Prop) (y : Handled × Prop) : Prop :=
  (y.2 ∧ y.1.Gone srcInode) ↔ b

theorem Tables.SameBut.rfl {t : Tables} : t.SameBut srcInode t := ⟨fun _ _ => .refl _, .refl _⟩

theorem drain_touches {Q : ℕ → Prop → Handled × Prop → Prop} (remote : String)
    (entries : List (String × FDRCRef)) (n : ℕ) (h : ∀ n, Q n b (x, v)) :
    Touches srcInode destInode Q (drain remote entries n) b x v := by
  induction entries generalizing n with
  | nil => exact h n
  | cons e entries ih =>
    refine Touches.own fun _ _ => ⟨trivial, .rfl, ?_⟩
    refine Touches.own fun _ _ => ⟨trivial, .rfl, ?_⟩
    refine Touches.own fun _ _ => ⟨trivial, .rfl, ?_⟩
    refine Touches.own fun _ _ => ⟨trivial, .rfl, ?_⟩
    exact ih (n + 1)

/-- What is removed and freed is another entry, or not the one of this inode. -/
theorem retireRoot_touches (hretired : x.retired = true) (hv : v ↔ b) :
    Touches srcInode destInode (fun _ => LeavesOthers srcInode 0)
      (retireRoot srcInode destInode r) b x v := by
  refine Touches.own fun _ _ => ⟨trivial, .rfl, ?_⟩
  refine Touches.own fun _ _ => ⟨trivial, .rfl, ?_⟩
  intro (tables : Tables) _
  change Touches srcInode destInode _ _
    (b ∧ tables.forward srcInode = none ∧ tables.forward destInode = none) _ (v ∧ True)
  rw [and_true]
  refine Touches.own fun current hcurrent => ⟨trivial, .rfl, ?_⟩
  cases current with
  | none =>
    have hnone : tables.forward destInode = none := Eq.symm hcurrent
    refine Touches.own fun _ _ => ⟨trivial, .rfl, ?_⟩
    change (v ∧ (x.retired = true → tables.forward srcInode = none)) ↔ _
    rw [hv, hnone, and_iff_left rfl]
    exact and_congr_right fun _ => ⟨fun h => h hretired, fun h _ => h⟩
  | some q =>
    have hsome : tables.forward destInode = some q := Eq.symm hcurrent
    refine Touches.own fun _ _ => ⟨trivial, .rfl, ?_⟩
    intro _ _ _ _
    refine ⟨fun ⟨h, hgone⟩ => ?_, fun h => ?_⟩
    · have hsrc : tables.forward srcInode = none := hgone hretired
      have hfree : ∀ k, k ≠ srcInode → tables.forward k ≠ some q := h.2
      refine absurd hsome (hfree destInode fun hsame => ?_)
      rw [hsame, hsrc] at hsome
      cases hsome
    · exact absurd (hsome.symm.trans h.1.1.2.2) (by simp)

theorem hlinkStateHandleTransfer_touches {remote : String} (hretired : x.retired = false)
    (hv : v ↔ b) : Touches srcInode destInode (LeavesOthers srcInode)
      (hlinkStateHandleTransfer remote srcInode destInode) b x v := by
  have hgone : ∀ y : Handled, y.retired = false → ((v ∧ y.Gone srcInode) ↔ b) := by
    intro y hy
    rw [← hv]
    exact and_iff_left fun h => absurd (hy.symm.trans h) (by decide)
  refine Touches.own fun tables _ => ⟨trivial, trivial, ?_⟩
  refine Touches.own fun r _ => ⟨trivial, .rfl, ?_⟩
  cases r with
  | none => exact Touches.own fun _ _ => ⟨trivial, .rfl, hgone _ hretired⟩
  | some r =>
    refine Touches.own fun _ _ => ⟨trivial, .rfl, ?_⟩
    refine Touches.own fun _ _ => ⟨trivial, .rfl, ?_⟩
    refine Touches.own fun entries _ => ⟨trivial, .rfl, ?_⟩
    refine (drain_touches (Q := fun _ b' y => b' = b ∧ y.2 = v ∧ y.1.retired = false) remote
      entries 0 fun _ => ⟨rfl, rfl, by exact hretired⟩).bind ?_
    rintro n _ ⟨y, _⟩ ⟨rfl, rfl, hy⟩
    refine Touches.own fun (nlinkRC : ℕ) _ => ⟨trivial, .rfl, ?_⟩
    change Touches srcInode destInode _ (ite _ _ _) _ (y.step ⟨.decInfo r, nlinkRC⟩) _
    by_cases hzero : decSize nlinkRC = 0
    · rw [if_pos hzero]
      refine (retireRoot_touches (decide_eq_true hzero) hv).bind fun _ _ z hz => ?_
      exact Touches.own fun _ _ => ⟨trivial, .rfl, hz⟩
    · rw [if_neg hzero]
      refine Touches.own fun _ _ => ⟨trivial, .rfl, ?_⟩
      exact Touches.own fun _ _ => ⟨trivial, .rfl, hgone _ (decide_eq_false hzero)⟩

end Transfer

/-- Whatever the tables hold, for any two inode numbers: the handling of a transfer leaves all
other entries and their records alone, and its own entry, once retired, is gone, exactly if at
the promotion of the lock, where there is one, neither number has an entry. -/
theorem touches_own_iff (remote : String) (srcInode destInode : ℕ) :
    (hlinkStateHandleTransfer remote srcInode destInode).Every fun _ l =>
      Protocol.Consistent Handled.step Handled.ok {} l →
        ((Protocol.Consistent Handled.step (fun x e => x.TouchesOwn srcInode e) {} l ∧
            (l.foldl Handled.step {}).Gone srcInode) ↔
          Protocol.Consistent Handled.step (fun _ e => Handled.RetiresWell srcInode destInode e)
            {} l) := by
  refine (hlinkStateHandleTransfer_touches (x := {}) (v := True) rfl Iff.rfl).every.mono
    fun n l h hl => ?_
  have hv := h ((Prog.consistent_watch (R := Handled.ok) l ({}, True)).mpr hl)
  rwa [Prog.consistent_watch (R := fun _ e => Handled.RetiresWell srcInode destInode e),
    LeavesOthers, Prog.foldl_watch, true_and] at hv

/-- Inode 1 has an entry at first; when the lock is promoted, another thread has removed it. -/
def removedMeanwhile : (c : Call) → c.Answer
  | .wrlock => ({} : Tables)
  | c => undisturbed { forward := fun k => if k = 1 then some 10 else none } true 1 (.ok ()) c

def removedRun : ℕ × List Sys.Event :=
  (hlinkStateHandleTransfer "root" 1 2).run (fun _ => removedMeanwhile) []

/-- The record has been counted down to zero, and no entry of either inode is left. -/
theorem touches_own_sample : (removedRun.2.foldl Handled.step {}).retired = true ∧
    Protocol.Consistent Handled.step (fun x e => x.TouchesOwn 1 e) {} removedRun.2 ∧
      (removedRun.2.foldl Handled.step {}).Gone 1 := by
  refine ⟨rfl, ((touches_own_iff "root" 1 2).run_nil ?_).mpr ?_⟩
  · exact ⟨trivial, rfl, trivial, trivial, trivial, trivial, trivial, trivial, trivial, rfl, trivial,
      trivial, trivial⟩
  · exact ⟨trivial, trivial, trivial, trivial, trivial, trivial, trivial, trivial, ⟨rfl, rfl⟩,
      trivial, trivial, trivial, trivial⟩

/-- Both inodes have an entry, and the record of the first is at its last link. -/
def retiringTables : Tables where
  forward k := if k = 1 then some 10 else if k = 2 then some 20 else none

def retiringRun : ℕ × List Sys.Event :=
  (hlinkStateHandleTransfer "root" 1 2).run (fun _ => undisturbed retiringTables true 1 (.ok ())) []

/-- A transfer of the source inode 1 to the destination inode 2 frees the record of the source
inode 2, and leaves its own entry. -/
theorem other_record_freed :
    Protocol.Consistent Handled.step Handled.ok {} retiringRun.2 ∧
      ¬ (Protocol.Consistent Handled.step (fun x e => x.TouchesOwn 1 e) {} retiringRun.2 ∧
        (retiringRun.2.foldl Handled.step {}).Gone 1) := by
  refine ⟨?_, fun h => ?_⟩
  · exact ⟨trivial, rfl, trivial, trivial, trivial, trivial, trivial, trivial, trivial, rfl, trivial,
      trivial, trivial, trivial, trivial⟩
  · exact absurd (h.2 rfl) (by decide)

/-- The source inode 1 waits for its root; the destination inode 1 has an entry, 2 has none. -/
def waitingTables : Tables where
  forward k := if k = 1 then some 10 else none
  rev k := if k = 1 then some 40 else none

/-- Another name of the source inode 1, whose root is not transferred; it is one of two of inode 2
on the destination. -/
def waitingArgs : Args := ⟨"other", 1, 2, true, 2, 2, true, 4⟩

def waitingRun : Option LinkOutcome × List Sys.Event :=
  (hlinkStateRegisterLinkRoot waitingArgs 1).run
    (fun _ => undisturbed waitingTables false 2 (.ok ())) []

/-- Its link is counted down in the record of the destination inode 1. -/
theorem other_entry_counted_down :
    waitingTables.rev 1 = some 40 ∧ waitingRun.2[15]? = some ⟨.decRev 40, (2 : ℕ)⟩ ∧
      Protocol.Consistent Watched.step Watched.ok {} waitingRun.2 ∧
      ¬ Protocol.Consistent Watched.step (fun x e => x.OwnEntries waitingArgs e) {}
        waitingRun.2 := by
  refine ⟨rfl, rfl, ?_, fun h => ?_⟩
  · exact ⟨trivial, rfl, rfl, trivial, trivial, trivial, trivial, trivial, trivial, trivial,
      trivial, trivial, trivial, rfl, trivial, trivial, trivial, trivial, trivial⟩
  · have hcut : Protocol.Consistent Watched.step (fun x e => x.OwnEntries waitingArgs e) {}
        (waitingRun.2.take 13 ++ waitingRun.2.drop 13) := h
    exact absurd hcut.append.2.1.1 (by decide)

end Copy2.HLink.Program
