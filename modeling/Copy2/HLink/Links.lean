import Copy2.HLink.Sound

/-! # Are groups of links kept?

When all has been done, the names of a source inode share a destination inode, provided
that no name has been compared with a root that was still to be replaced. -/
namespace Copy2.HLink
open FileJob Lib Os

variable {Name : Type} [Fintype Name] [DecidableEq Name]

/-- Regular files that are one file in the source are one file in the destination. -/
def LinksKept (T : SourceTree Name) (s : State Name) : Prop :=
  ∀ a b, a ≠ b → T.ino a = T.ino b → isReg (T.stx a).stx_mode = true →
    isReg (T.stx b).stx_mode = true → ∃ y, (s.name a).dst = some y ∧ (s.name b).dst = some y

theorem links_kept (T : SourceTree Name) {s : State Name}
    (h : T.system.Reach (fun s op => Faultless op ∧ KeepsRoot T s op) s) (hend : s.Ended) :
    LinksKept T s := by
  intro a b hab hino ha _
  exact (Sound.reach h).one_inode hend hab hino (by simp [SourceTree.copied, ha])

def keepsRoot (T : SourceTree Name) (s : State Name) : Op Name → Bool
  | .run n _ =>
    let l := (s.name n).loc
    (s.name n).pc != .compare || match s.info l.hinfoRef with
      | none => true
      | some h => !l.destExists || l.destStx.stx_ino != h.destInode || h.transferred ||
        (s.name h.remote).loc.destExists && !T.replaces h.remote (s.name h.remote)
  | .fail .. => false
  | _ => true

theorem keepsRoot_sound {T : SourceTree Name} {s : State Name} {op : Op Name}
    (h : keepsRoot T s op = true) : Faultless op ∧ KeepsRoot T s op := by
  cases op with
  | run n y =>
    refine ⟨trivial, fun hpc x hx hd heq => ?_⟩
    simpa [keepsRoot, hpc, hx, hd, heq] using h
  | fail n fate => cases h
  | reuseInfo r x => exact ⟨trivial, trivial⟩
  | reuseRevinfo q x => exact ⟨trivial, trivial⟩

/-- Names 0 and 1 are one file of the source, name 2 is another. -/
def sampleTree : SourceTree (Fin 3) where
  stx n := { stx_mode := 0o100644, stx_nlink := if n = 2 then 1 else 2
             stx_ino := if n = 2 then 2 else 1 }
  dstStx _ := {}
  others _ := 0
  same_inode := by decide
  names_le_nlink := by decide

def emptyStart : State (Fin 3) := { name := fun _ => { dst := none } }

def emptyRun : List (Op (Fin 3)) :=
  List.replicate 3 (.run 0 0) ++ .run 0 11 :: List.replicate 3 (.run 0 0) ++
    List.replicate 6 (.run 1 0) ++ .run 2 0 :: .run 2 12 :: [.run 2 0]

theorem links_kept_sample : ∃ s, sampleTree.system.Reach
    (fun s op => Faultless op ∧ KeepsRoot sampleTree s op) s ∧ s.Ended ∧
      LinksKept sampleTree s := by
  obtain ⟨s, hs⟩ := Option.isSome_iff_exists.mp (show (sampleTree.system.exec
    (keepsRoot sampleTree) emptyStart emptyRun).isSome = true by decide +kernel)
  have hdone : ((sampleTree.system.exec (keepsRoot sampleTree) emptyStart emptyRun).map
      fun s => List.ofFn fun n => (s.name n).pc) = some [.done, .done, .done] := by decide +kernel
  have hreach : sampleTree.system.Reach
      (fun s op => Faultless op ∧ KeepsRoot sampleTree s op) s :=
    ⟨emptyStart, ⟨fun _ => none, rfl⟩,
      .of_exec _ (fun _ _ _ h => keepsRoot_sound h) hs⟩
  have hend : s.Ended := by
    rw [hs] at hdone
    simp only [Option.map_some, Option.some.injEq, List.ofFn_succ, List.ofFn_zero,
      List.cons.injEq] at hdone
    intro n
    fin_cases n
    · exact hdone.1
    · exact hdone.2.1
    · exact hdone.2.2.1
  exact ⟨s, hreach, hend, links_kept sampleTree hreach hend⟩

/-- All three names are one up-to-date file of the destination. -/
def sharedStart : State (Fin 3) := { name := fun _ => { dst := some 10 } }

/-- Name 2 claims the shared inode, so the root 0 is to be replaced; name 1 finds the old
inode of the root recorded, and is left alone; then the root is replaced. -/
def sharedRun : List (Op (Fin 3)) :=
  List.replicate 5 (.run 2 0) ++ List.replicate 3 (.run 0 0) ++ .run 0 11 ::
    List.replicate 5 (.run 1 0) ++ List.replicate 3 (.run 0 0)

def faultless (_ : State (Fin 3)) : Op (Fin 3) → Bool
  | .fail .. => false
  | _ => true

theorem sharedRun_end : ∃ s, sampleTree.system.Reach (fun _ op => Faultless op) s ∧ s.Ended ∧
    (s.name 0).dst = some 11 ∧ (s.name 1).dst = some 10 ∧ (s.name 2).dst = some 10 := by
  obtain ⟨s, hs⟩ := Option.isSome_iff_exists.mp (show (sampleTree.system.exec
    faultless sharedStart sharedRun).isSome = true by decide +kernel)
  have hdone : ((sampleTree.system.exec faultless sharedStart sharedRun).map
      fun s => List.ofFn fun n => ((s.name n).pc, (s.name n).dst)) =
      some [(.done, some 11), (.done, some 10), (.done, some 10)] := by decide +kernel
  rw [hs] at hdone
  simp only [Option.map_some, Option.some.injEq, List.ofFn_succ, List.ofFn_zero,
    List.cons.injEq, Prod.mk.injEq] at hdone
  obtain ⟨⟨h0, h0'⟩, ⟨h1, h1'⟩, ⟨h2, h2'⟩, -⟩ := hdone
  refine ⟨s, ⟨sharedStart, ⟨fun _ => some 10, rfl⟩, .of_exec _ (fun op _ _ h => ?_) hs⟩,
    fun n => ?_, h0', h1', h2'⟩
  · cases op with
    | fail => cases h
    | _ => trivial
  · fin_cases n
    · exact h0
    · exact h1
    · exact h2

theorem shared_root_split : ¬ ∀ s, sampleTree.system.Reach (fun _ op => Faultless op) s →
    s.Ended → LinksKept sampleTree s := by
  intro h
  obtain ⟨s, hs, hend, h0, h1, -⟩ := sharedRun_end
  obtain ⟨y, hy, hy'⟩ := h s hs hend 0 1 (by decide) (by decide) (by decide) (by decide)
  rw [h0] at hy
  rw [h1] at hy'
  cases hy
  cases hy'

end Copy2.HLink
