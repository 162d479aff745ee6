import Copy2.HLink.OneRoot

/-! # The tables of all inodes

As long as no root finds something under its destination inode, no record is freed, and a
step touches the entry and the record of its own inode only. -/
namespace Copy2.HLink
open FileJob Lib Os

set_option linter.unusedSectionVars false

variable {Name : Type} [Fintype Name] [DecidableEq Name]
variable {T : SourceTree Name} {s t : State Name} {n : Name} {v : NameState} {i : ℕ}

/-- The entries of all inodes are in order, and no two share a record. -/
structure Tables (T : SourceTree Name) (s : State Name) : Prop where
  single : ∀ i, Single T i s
  bound : ∀ i r, s.fwd i = some r → r < s.nextRef
  injective : ∀ i j r, s.fwd i = some r → s.fwd j = some r → i = j

inductive TableStep (T : SourceTree Name) (s t : State Name) (n : Name) : Prop
  | same (hfwd : t.fwd = s.fwd) (hnext : s.nextRef ≤ t.nextRef)
      (hinfo : ∀ r, s.fwd (T.ino n) ≠ some r → t.info r = s.info r)
  | rooted (hfwd : t.fwd = Function.update s.fwd (T.ino n) (some s.nextRef))
      (hnext : s.nextRef < t.nextRef) (hinfo : ∀ r < s.nextRef, t.info r = s.info r)

theorem Moved.table (h : Moved s t n v) : TableStep T s t n :=
  .same h.fwd h.nextRef fun r _ => by rw [h.info]

theorem relink_nextRef {fate : SourceTree.Fate} (h : SourceTree.relink s n fate = some t) :
    t.nextRef = s.nextRef := by
  obtain ⟨x, -, h⟩ := Option.bind_eq_some_iff.mp h
  obtain ⟨-, h⟩ := Option.ite_none_left_eq_some.mp h
  split at h
  · cases fate with
    | linked =>
      obtain ⟨y, -, h⟩ := Option.bind_eq_some_iff.mp h
      obtain rfl := Option.some.inj h
      rfl
    | kept =>
      obtain rfl := Option.some.inj h
      rfl
    | gone =>
      obtain rfl := Option.some.inj h
      rfl
  · obtain rfl := Option.some.inj h
    rfl

theorem drain_nextRef {fate : Name → SourceTree.Fate} (h : SourceTree.drain s n fate = some t) :
    t.nextRef = s.nextRef := by
  obtain ⟨x, -, h⟩ := Option.bind_eq_some_iff.mp h
  obtain ⟨y, -, h⟩ := Option.bind_eq_some_iff.mp h
  obtain ⟨-, h⟩ := Option.ite_none_left_eq_some.mp h
  obtain rfl := Option.some.inj h
  rfl

/-- The root of an inode looks under its destination inode, and finds nothing there. -/
def Misses (s : State Name) (n : Name) : Prop :=
  (s.name n).pc = .handleRetire → s.fwd (s.name n).loc.finishIno = none

/-- The thread is inside the critical section of a record. -/
def Pc.atRecord : Pc → Bool
  | relink | drain => true
  | _ => false

theorem Tables.own (hw : Tables T s) (hp : (s.name n).pc.atRecord = true) :
    s.fwd (T.ino n) = some (s.name n).loc.hinfoRef := by
  have hpc : (s.name n).pc = .relink ∨ (s.name n).pc = .drain := by
    revert hp
    cases (s.name n).pc <;> simp [Pc.atRecord]
  refine (hw.single _).sees ?_ ?_
  · rcases hpc with h | h <;> rw [h] <;> rfl
  · have := ((hw.single (T.ino n)).name n rfl).asked
    rcases hpc with h | h <;> simpa [h] using this

theorem Tables.recordStep {x : Option (HLinkInfo Name)} (hw : Tables T s)
    (hp : (s.name n).pc.atRecord = true) (hfwd : t.fwd = s.fwd) (hnext : t.nextRef = s.nextRef)
    (hinfo : t.info = Function.update s.info (s.name n).loc.hinfoRef x) : TableStep T s t n := by
  refine .same hfwd hnext.ge fun r hne => ?_
  rw [hinfo, Function.update_of_ne]
  rintro rfl
  exact hne (hw.own hp)

theorem Tables.table {y : ℕ} (hw : Tables T s) (hmiss : Misses s n)
    (h : T.step s n y = some t) : TableStep T s t n := by
  rw [SourceTree.step] at h
  split at h <;> rename_i hpc
  · obtain rfl := Option.some.inj h
    obtain ⟨v, hmv, -⟩ := start_moved (T := T) (s := s) (n := n)
    exact hmv.table
  · obtain rfl := Option.some.inj h
    obtain ⟨v, hmv⟩ := register_moved (T := T) (s := s) (n := n)
    exact hmv.table
  · rcases promote_cases h with ⟨-, hmv⟩ | ⟨-, mismatch, -, hr⟩
    · exact hmv.table
    · refine .rooted hr.fwd hr.nextRef fun r hlt => ?_
      rw [hr.info, Function.update_of_ne hlt.ne]
  · obtain ⟨x, -, hmv | ⟨-, -, hmv⟩⟩ := compare_moved h
    · exact hmv.table
    · exact hmv.table
  · obtain ⟨x, x', v, -, -, -, hfwd, -, hinfo, -⟩ := relink_fate h
    exact hw.recordStep (by rw [hpc]; rfl) hfwd (relink_nextRef h) hinfo
  · exact absurd hpc (hw.single _).not_retire
  · obtain ⟨p, hmv, -⟩ := reverse_moved h
    exact hmv.table
  · exact (revPromote_moved h).table
  · exact (revRetire_moved h).table
  · obtain ⟨v, hmv, -⟩ := transfer_moved h
    exact hmv.table
  · obtain ⟨y, v, -, hmv, -⟩ := publish_moved h
    exact hmv.table
  · obtain rfl := Option.some.inj h
    obtain ⟨v, hmv⟩ := handle_moved (T := T) (s := s) (n := n)
    exact hmv.table
  · obtain ⟨x, x', v, -, -, -, hfwd, -, hinfo, -⟩ := drain_fate (T := T) h
    exact hw.recordStep (by rw [hpc]; rfl) hfwd (drain_nextRef h) hinfo
  · rw [SourceTree.handleRetire, hmiss hpc] at h
    obtain ⟨-, h⟩ := Option.ite_none_left_eq_some.mp h
    obtain rfl := Option.some.inj h
    exact .same rfl le_rfl fun _ _ => rfl
  · cases h
  · cases h

theorem Tables.entryKept {j : ℕ} (hw : Tables T s) (h : TableStep T s t n) (hj : T.ino n ≠ j) :
    EntryKept j s t := by
  cases h with
  | same hfwd _ hinfo =>
    refine ⟨by rw [hfwd], fun r x hr hx => ?_⟩
    rw [hinfo r fun hn => hj (hw.injective _ _ r hn hr), hx]
  | rooted hfwd _ hinfo =>
    refine ⟨by rw [hfwd, Function.update_of_ne (Ne.symm hj)], fun r x hr hx => ?_⟩
    rw [hinfo r (hw.bound _ _ hr), hx]

theorem Tables.tableFails {fate : Name → SourceTree.Fate} (hw : Tables T s)
    (h : T.stepFails s n fate = some t) : TableStep T s t n := by
  rw [SourceTree.stepFails] at h
  split at h <;> rename_i hpc
  · obtain ⟨x, x', v, -, -, -, hfwd, -, hinfo, -⟩ := relink_fate h
    exact hw.recordStep (by rw [hpc]; rfl) hfwd (relink_nextRef h) hinfo
  · obtain ⟨-, h⟩ := Option.ite_none_right_eq_some.mp h
    obtain rfl := Option.some.inj h
    exact ((Quiet.refl s).goto n _).table
  · obtain ⟨v, hmv, -⟩ := publishFails_moved h
    exact hmv.table
  · obtain ⟨x, x', v, -, -, -, hfwd, -, hinfo, -⟩ := drain_fate (T := T) h
    exact hw.recordStep (by rw [hpc]; rfl) hfwd (drain_nextRef h) hinfo
  · cases h

theorem Tables.after (hw : Tables T s) (htable : TableStep T s t n)
    (hown : Single T (T.ino n) t) (hth : ∀ m, m ≠ n → SameThread (s.name m) (t.name m)) :
    Tables T t := by
  refine ⟨fun i => ?_, ?_, ?_⟩
  · by_cases hi : T.ino n = i
    · exact hi ▸ hown
    · exact (hw.single i).frame (hw.entryKept htable hi) fun m hm =>
        hth m fun he => hi (he ▸ hm)
  · intro i r hr
    cases htable with
    | same hfwd hnext _ =>
      rw [hfwd] at hr
      exact (hw.bound i r hr).trans_le hnext
    | rooted hfwd hnext _ =>
      rw [hfwd] at hr
      by_cases hi : i = T.ino n
      · rw [hi, Function.update_self] at hr
        exact Option.some.inj hr ▸ hnext
      · rw [Function.update_of_ne hi] at hr
        exact (hw.bound i r hr).trans hnext
  · intro i j r hi hj
    cases htable with
    | same hfwd _ _ =>
      rw [hfwd] at hi hj
      exact hw.injective i j r hi hj
    | rooted hfwd _ _ =>
      rw [hfwd] at hi hj
      by_cases hin : i = T.ino n
      · by_cases hjn : j = T.ino n
        · rw [hin, hjn]
        · rw [hin, Function.update_self] at hi
          rw [Function.update_of_ne hjn] at hj
          exact absurd (hw.bound j r hj) (by rw [Option.some.inj hi]; exact lt_irrefl r)
      · by_cases hjn : j = T.ino n
        · rw [hjn, Function.update_self] at hj
          rw [Function.update_of_ne hin] at hi
          exact absurd (hw.bound i r hi) (by rw [Option.some.inj hj]; exact lt_irrefl r)
        · rw [Function.update_of_ne hin] at hi
          rw [Function.update_of_ne hjn] at hj
          exact hw.injective i j r hi hj

theorem Tables.reuse {op : Op Name} (hw : Tables T s) (halone : ∀ i, LeavesAlone T i s op)
    (hfwd : t.fwd = s.fwd) (hnext : t.nextRef = s.nextRef) (h : T.next s op = some t) :
    Tables T t where
  single i := (hw.single i).next (halone i) h
  bound i r hr := by
    rw [hfwd] at hr
    rw [hnext]
    exact hw.bound i r hr
  injective i j r hi hj := by
    rw [hfwd] at hi hj
    exact hw.injective i j r hi hj

theorem Tables.init {dst : Name → Option ℕ} :
    Tables T ({ name := fun n => { dst := dst n } } : State Name) where
  single _ := .init
  bound _ _ hr := by simp at hr
  injective _ _ _ hi := by simp at hi

def AllMiss (s : State Name) : Op Name → Prop
  | .run n _ => Misses s n
  | _ => True

theorem Tables.next {op : Op Name} (hw : Tables T s) (hmiss : AllMiss s op)
    (h : T.next s op = some t) : Tables T t := by
  cases op with
  | run n y =>
    exact hw.after (hw.table hmiss h) ((hw.single _).step h) fun m hm => step_thread h hm
  | fail n fate =>
    exact hw.after (hw.tableFails h) ((hw.single _).stepFails h) fun m hm => stepFails_thread h hm
  | reuseInfo r x =>
    have halone : ∀ i, LeavesAlone T i s (.reuseInfo r x) := fun _ => True.intro
    have hnext := h
    obtain ⟨-, h⟩ := Option.ite_none_right_eq_some.mp h
    obtain rfl := Option.some.inj h
    exact hw.reuse halone rfl rfl hnext
  | reuseRevinfo q x =>
    have halone : ∀ i, LeavesAlone T i s (.reuseRevinfo q x) := fun _ => True.intro
    have hnext := h
    obtain ⟨-, h⟩ := Option.ite_none_right_eq_some.mp h
    obtain rfl := Option.some.inj h
    exact hw.reuse halone rfl rfl hnext

end Copy2.HLink
