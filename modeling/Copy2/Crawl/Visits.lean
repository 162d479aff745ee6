import Copy2.Crawl.World

/-! # Is every entry visited once?

A directory owes a visit to every entry below it, and hands over what its subdirectories
owe to their tasks. Which entries are subdirectories it takes from `readdir`. -/
namespace Copy2.Crawl
open FileJob Lib Os Pool

variable {α : Type} {report : String → Bool} {dev : ℕ × ℕ} {opts : CrawlOpts} {sync : Bool}
variable {w w' : World α} {p : Place α}

instance : Preorder (World α) where
  le w w' := (∀ x p, w.fd x = some p → w'.fd x = some p) ∧
    ∀ r p, w.ref r = some p → w'.ref r = some p
  le_refl _ := ⟨fun _ _ => id, fun _ _ => id⟩
  le_trans _ _ _ h h' := ⟨fun x p hp => h'.1 x p (h.1 x p hp), fun r p hp => h'.2 r p (h.2 r p hp)⟩

theorem openAs_eq {x : Fd} {q : Option (Place α)} (h : w.openAs x q = some w') :
    ∃ p, q = some p ∧ w'.fd x = some p ∧ w ≤ w' := by
  obtain ⟨hx, h⟩ := Option.ite_none_right_eq_some.mp h
  obtain ⟨p, rfl, rfl⟩ := Option.map_eq_some_iff.mp h
  refine ⟨p, rfl, Function.update_self .., fun y q hq => ?_, fun _ _ => id⟩
  have hne : y ≠ x := by
    rintro rfl
    simp [hq] at hx
  exact (Function.update_of_ne hne ..).trans hq

theorem record_eq {r : FDRCRef} {q : Option (Place α)} (h : w.record r q = some w') :
    ∃ p, q = some p ∧ w'.ref r = some p ∧ w ≤ w' := by
  obtain ⟨hx, h⟩ := Option.ite_none_right_eq_some.mp h
  obtain ⟨p, rfl, rfl⟩ := Option.map_eq_some_iff.mp h
  refine ⟨p, rfl, Function.update_self .., fun _ _ => id, fun y q hq => ?_⟩
  have hne : y ≠ r := by
    rintro rfl
    simp [hq] at hx
  exact (Function.update_of_ne hne ..).trans hq

theorem step_grow {e : Sys.Event} (h : w.step report dev e = some w') : w ≤ w' := by
  unfold World.step at h
  split at h
  · exact (openAs_eq h).choose_spec.2.2
  · exact (openAs_eq h).choose_spec.2.2
  · exact (record_eq h).choose_spec.2.2
  · split at h
    · obtain ⟨-, h⟩ := Option.ite_none_right_eq_some.mp h
      exact (Option.some.inj h).le
    · exact (Option.some.inj h).le
    · obtain ⟨-, h⟩ := Option.ite_none_right_eq_some.mp h
      exact (Option.some.inj h).le
    · cases h
  · obtain ⟨q, -, h⟩ := Option.bind_eq_some_iff.mp h
    obtain ⟨-, h⟩ := Option.ite_none_right_eq_some.mp h
    exact (Option.some.inj h).le
  · obtain ⟨-, h⟩ := Option.ite_none_right_eq_some.mp h
    exact (Option.some.inj h).le
  all_goals first | exact (Option.some.inj h).le | cases h

theorem pool_grow {e : Sys.Event} (h : (crawlPool opts sync report dev).step w e = some w') :
    w ≤ w' :=
  step_grow h

def visitOf : Call → Multiset Visit
  | .taskProcessDir path .. => {.dir path}
  | .taskProcessNonDir path .. => {.nonDir path}
  | _ => 0

/-- A task for a directory owes the visits of all below it. -/
def taskOwes (report : String → Bool) (dev : ℕ × ℕ) : Call → World α → Multiset Visit → Prop
  | .taskProcessDir path d src _, w, S => ∃ a es,
      (w.ref src).bind (·.lookup (baseName path)) = some (.source path (.dir a es)) ∧
        es.Legal ∧ d = dev ∧ S = es.visits report path
  | .taskProcessNonDir .., _, S => S = 0
  | _, _, _ => False

def visitAccount (opts : CrawlOpts) (sync : Bool) (report : String → Bool) (dev : ℕ × ℕ) :
    (crawlPool (α := α) opts sync report dev).Account Visit where
  here := visitOf
  owes := taskOwes report dev

def NoTask : Call → Prop
  | .taskProcessDir .. | .taskProcessNonDir .. => False
  | _ => True

theorem NoTask.silent {c : Call} (h : NoTask c) :
    Silent (visitAccount (α := α) opts sync report dev) c := by
  cases c <;> first | exact ⟨rfl, rfl⟩ | exact h.elim

section account
variable {path : String} {a : α} {es : Entries α} {F : Multiset Visit}

abbrev Visits (opts : CrawlOpts) (sync : Bool) (report : String → Bool) (dev : ℕ × ℕ)
    {β : Type} (Q : β → World α → Multiset Visit → Prop) :
    Prog Sys β → World α → Multiset Visit → Prop :=
  Yields (visitAccount opts sync report dev) Q

theorem visits_pass {β : Type} {Q : β → World α → Multiset Visit → Prop} {q : Prog Sys β}
    (hq : q.Ensures NoTask fun _ => True) (hQ : ∀ b w', w ≤ w' → Q b w' F) :
    Visits opts sync report dev Q q w F := by
  refine .of_ensures ?_ (fun _ _ _ h => step_grow h) hQ
  induction q with
  | ret b => trivial
  | call c k ih => exact ⟨hq.1.silent, fun r => ih r (hq.2 r)⟩

structure OpenDir (w : World α) (p : Place α) (dev : ℕ × ℕ) (dir : SourceDir) : Prop where
  fd : w.fd dir.fd = some p
  newSrcFD : w.fd dir.newSrcFD = some p
  dev : dir.dev = dev

theorem dupSource_visits {fd : Fd} {stx : Statx} (hfd : w.fd fd = some p) :
    Visits opts sync report dev
      (fun r w' G => ∃ dir, r = .ok dir ∧ OpenDir w' p dev dir ∧ w ≤ w' ∧ G = F)
      (openSource.dupSource fd stx dev) w F := by
  refine .silent (NoTask.silent trivial) fun w₁ hw r w₂ hs => ?_
  cases r with
  | error e => cases hs
  | ok x =>
    obtain ⟨q, hq, hx, hle⟩ := openAs_eq hs
    rw [hw.1 fd p hfd] at hq
    obtain rfl := Option.some.inj hq
    exact ⟨_, rfl, ⟨hle.1 _ _ (hw.1 _ _ hfd), hx, rfl⟩, hw.trans hle, rfl⟩

theorem openSource_visits {d : Option (ℕ × ℕ)} {src dst : FDRCRef} (hd : d.getD dev = dev)
    (hsrc : (w.ref src).bind (·.lookup (baseName path)) = some (.source path (.dir a es))) :
    Visits opts sync report dev
      (fun r w' G => ∃ dir, r = .ok dir ∧ OpenDir w' (.source path (.dir a es)) dev dir ∧
        w ≤ w' ∧ G = F)
      (openSource path d src dst) w F := by
  have found : ∀ w₁, w ≤ w₁ →
      (w₁.ref src).bind (·.lookup (baseName path)) = some (.source path (.dir a es)) := by
    intro w₁ hw
    obtain ⟨q, hq, hlook⟩ := Option.bind_eq_some_iff.mp hsrc
    rw [hw.2 src q hq]
    exact hlook
  refine .silent (NoTask.silent trivial) fun w₁ hw r w₂ hs => ?_
  cases r with
  | error e => cases hs
  | ok fd =>
    obtain ⟨q, hq, hfd, hle⟩ := openAs_eq hs
    rw [found w₁ hw] at hq
    obtain rfl := Option.some.inj hq
    refine .silent (NoTask.silent trivial) fun w₃ hw₃ r w₄ hs => ?_
    have hw' := hw.trans (hle.trans hw₃)
    simp only [crawlPool, World.step, found w₃ hw'] at hs
    cases r with
    | error e => cases hs
    | ok stx =>
      obtain ⟨hdev, hs⟩ := Option.ite_none_right_eq_some.mp hs
      obtain rfl := Option.some.inj hs
      have hthis : (stx.stx_dev_major, stx.stx_dev_minor) = dev := beq_iff_eq.mp hdev
      have hdup : ∀ w₅, w₃ ≤ w₅ → Visits opts sync report dev
          (fun r w' G => ∃ dir, r = .ok dir ∧ OpenDir w' (.source path (.dir a es)) dev dir ∧
            w ≤ w' ∧ G = F) (openSource.dupSource fd stx dev) w₅ F := by
        intro w₅ hw₅
        refine (dupSource_visits ((hw₃.trans hw₅).1 _ _ hfd)).mono fun r w' G h => ?_
        obtain ⟨dir, hr, hdir, hle', hG⟩ := h
        exact ⟨dir, hr, hdir, hw'.trans (hw₅.trans hle'), hG⟩
      change Visits _ _ _ _ _ (ite _ _ _) _ _
      rw [hthis, if_neg (by simpa using hd)]
      split
      · exact hdup w₃ le_rfl
      · refine .silent (NoTask.silent trivial) fun w₅ hw₅ r w₆ hs => ?_
        cases r with
        | error e =>
          obtain ⟨he, hs⟩ := Option.ite_none_right_eq_some.mp hs
          obtain rfl := Option.some.inj hs
          change Visits _ _ _ _ _ (ite _ _ _) _ _
          rw [if_neg (by simpa using he)]
          exact hdup w₅ hw₅
        | ok u =>
          obtain rfl := Option.some.inj hs
          exact hdup w₅ hw₅

theorem collectExtra_noTask (fd : Fd) (path : String) (entries : List Dirent)
    (toRemove : List String) : (collectExtra fd path entries toRemove).Ensures NoTask fun _ => True := by
  induction entries generalizing toRemove with
  | nil => trivial
  | cons d ds ih =>
    refine And.intro trivial fun r => ?_
    cases r with
    | error e => exact ih _
    | ok u => exact ih _

theorem removeExtra_noTask (paths : List String) :
    (removeExtra paths).Ensures NoTask fun _ => True := by
  induction paths with
  | nil => trivial
  | cons p ps ih => exact And.intro trivial fun _ => ih

/-- Pruning always gets through, and visits nothing. -/
theorem pruneDst_visits {newSrcFD : Fd} {dst : FDRCRef} :
    Visits opts sync report dev (fun ok w' G => ok = true ∧ w ≤ w' ∧ G = F)
      (pruneDst path newSrcFD dst) w F := by
  refine .silent (NoTask.silent trivial) fun w₁ hw r w₂ hs => ?_
  have hw₂ := hw.trans (pool_grow hs)
  cases r with
  | error e => cases hs
  | ok x =>
    refine .silent (NoTask.silent trivial) fun w₃ hw₃ r w₄ hs => ?_
    have hw₄ := hw₂.trans (hw₃.trans (pool_grow hs))
    cases r with
    | error e => cases hs
    | ok u =>
      refine .silent (NoTask.silent trivial) fun w₅ hw₅ entries w₆ hs => ?_
      have hw₆ := hw₄.trans (hw₅.trans (pool_grow hs))
      refine Yields.bind (p := collectExtra newSrcFD path entries [])
        (visits_pass (collectExtra_noTask ..) fun toRemove w₇ hw₇ => ?_)
      refine .silent (NoTask.silent trivial) fun w₈ hw₈ _ w₉ hs => ?_
      have hw₉ := hw₆.trans (hw₇.trans (hw₈.trans (pool_grow hs)))
      refine Yields.bind (p := removeExtra toRemove)
        (visits_pass (removeExtra_noTask _) fun _ w' hw' => ?_)
      exact ⟨rfl, hw₉.trans hw', rfl⟩

/-- What an entry of the stream says is true of the directory, and its task can find it. -/
structure Listed (report : String → Bool) (path : String) (es : Entries α) (d : Dirent) :
    Prop where
  legal : LegalName d.d_name
  found : ∃ t, es.find d.d_name = some t ∧ t.Legal ∧
    d.isDir = (t.isDir && report (child path d.d_name))

def share (report : String → Bool) (path : String) (es : Entries α) (name : String) :
    Multiset Visit :=
  ((es.find name).map fun t => t.visits report (child path name)).getD 0

theorem Listed.share {d : Dirent} (h : Listed report path es d) :
    (d.isDir = true ∧ ∃ a' es', es.find d.d_name = some (.dir a' es') ∧ es'.Legal ∧
      share report path es d.d_name =
        {.dir (child path d.d_name)} + es'.visits report (child path d.d_name)) ∨
    d.isDir = false ∧ share report path es d.d_name = {.nonDir (child path d.d_name)} := by
  obtain ⟨t, hfind, hlegal, hdir⟩ := h.found
  rw [Crawl.share, hfind]
  cases t with
  | leaf b => exact .inr ⟨by simpa [Tree.isDir] using hdir, rfl⟩
  | dir b es' =>
    cases hr : report (child path d.d_name) with
    | true =>
      refine .inl ⟨by simpa [Tree.isDir, hr] using hdir, b, es', rfl, hlegal, ?_⟩
      simp [Tree.visits, hr]
    | false => exact .inr ⟨by simpa [Tree.isDir, hr] using hdir, by simp [Tree.visits, hr]⟩

theorem startTasks_visits {newSrc newDst : FDRCRef} (ds : List Dirent)
    (hsrc : w.ref newSrc = some (.source path (.dir a es)))
    (hds : ∀ d ∈ ds, isDot d.d_name = false → Listed report path es d) :
    Visits opts sync report dev (fun _ w' G => w ≤ w' ∧ G = F)
      (startTasks path dev newSrc newDst ds) w
      (((ds.filter fun d => !isDot d.d_name).map fun d => share report path es d.d_name).sum + F) := by
  induction ds generalizing w with
  | nil => exact ⟨le_rfl, by simp⟩
  | cons d ds ih =>
    have htail := fun d' hd' => hds d' (List.mem_cons_of_mem d hd')
    rw [startTasks]
    cases hdot : isDot d.d_name with
    | true =>
      rw [if_pos rfl, List.filter_cons_of_neg (by simp [hdot])]
      exact ih hsrc htail
    | false =>
      have hlisted := hds d List.mem_cons_self hdot
      rw [if_neg (by simp), List.filter_cons_of_pos (by simp [hdot]), List.map_cons,
        List.sum_cons, add_assoc]
      refine .silent (NoTask.silent trivial) fun w₁ hw r w₂ hs => ?_
      have hw₂ := hw.trans (pool_grow hs)
      refine .silent (NoTask.silent trivial) fun w₃ hw₃ r w₄ hs => ?_
      have hw₄ := hw₂.trans (hw₃.trans (pool_grow hs))
      have hrest : ∀ w₅, w₄ ≤ w₅ → Visits opts sync report dev (fun _ w' G => w ≤ w' ∧ G = F)
          (startTasks path dev newSrc newDst ds) w₅
          (((ds.filter fun d => !isDot d.d_name).map
            fun d => share report path es d.d_name).sum + F) := fun w₅ hw₅ =>
        (ih ((hw₄.trans hw₅).2 _ _ hsrc) htail).mono fun _ w' G h =>
          ⟨hw₄.trans (hw₅.trans h.1), h.2⟩
      change Visits _ _ _ _ _ (ite _ _ _) _ _
      rcases hlisted.share with ⟨hd, a', es', hfind, hlegal, hshare⟩ | ⟨hd, hshare⟩
      · rw [if_pos hd, hshare]
        intro w₅ hw₅ r w₆ hs
        have hw₆ := hw₅.trans (pool_grow hs)
        refine ⟨_, _, rfl, ?_, hrest w₆ hw₆⟩
        refine ⟨a', es', ?_, hlegal, rfl, rfl⟩
        have hdotName : d.d_name ≠ "." := by
          intro he
          simp [he, isDot] at hdot
        rw [(hw₄.trans hw₆).2 _ _ hsrc, Option.bind_some, baseName_child hlisted.legal,
          Place.lookup, if_neg hdotName]
        simp [hfind]
      · rw [if_neg (by simp [hd]), hshare]
        intro w₅ hw₅ r w₆ hs
        exact ⟨0, _, by rw [add_zero]; rfl, rfl, hrest w₆ (hw₅.trans (pool_grow hs))⟩

/-- The entries of the stream are those of the directory. -/
theorem listed_shares {entries : List Dirent} (hl : es.Legal)
    (h : listed report entries (.source path (.dir a es)) = true) :
    (∀ d ∈ entries, isDot d.d_name = false → Listed report path es d) ∧
      ((entries.filter fun d => !isDot d.d_name).map fun d => share report path es d.d_name).sum =
        es.visits report path := by
  have hperm := List.isPerm_iff.mp h
  refine ⟨fun d hd hdot => ?_, ?_⟩
  · have hmem : d ∈ listingOf report path es :=
      hperm.mem_iff.mp (List.mem_filter.mpr ⟨hd, by simp [hdot]⟩)
    obtain ⟨⟨name, t⟩, ht, rfl⟩ := List.mem_map.mp hmem
    obtain ⟨hn, htl⟩ := Entries.legal_of_mem hl ht
    exact ⟨hn, t, Entries.find_of_mem hl ht, htl, rfl⟩
  · rw [(hperm.map fun d => share report path es d.d_name).sum_eq, Entries.visits_eq_sum,
      listingOf, List.map_map]
    refine congrArg List.sum (List.map_congr_left fun x hx => ?_)
    simp [share, Entries.find_of_mem hl hx]

theorem readTasks_visits {dir : SourceDir} {newSrc newDst : FDRCRef} (hl : es.Legal)
    (hdir : OpenDir w (.source path (.dir a es)) dev dir)
    (hsrc : w.ref newSrc = some (.source path (.dir a es))) :
    Visits opts sync report dev Paid (crawlSource.readTasks path dir newSrc newDst) w
      (es.visits report path) := by
  refine .silent (NoTask.silent trivial) fun w₁ hw r w₂ hs => ?_
  have hw₂ := hw.trans (pool_grow hs)
  cases r with
  | error e => cases hs
  | ok u =>
    refine .silent (NoTask.silent trivial) fun w₃ hw₃ entries w₄ hs => ?_
    have hw₄ := hw₂.trans (hw₃.trans (pool_grow hs))
    obtain ⟨q, hq, hs⟩ := Option.bind_eq_some_iff.mp hs
    rw [(hw₂.trans hw₃).1 _ _ hdir.fd] at hq
    obtain rfl := Option.some.inj hq
    obtain ⟨hlisted, -⟩ := Option.ite_none_right_eq_some.mp hs
    obtain ⟨hall, hsum⟩ := listed_shares hl hlisted
    rw [hdir.dev, ← hsum, ← add_zero (List.sum _)]
    refine Yields.bind (p := startTasks path dev newSrc newDst entries)
      ((startTasks_visits entries (hw₄.2 _ _ hsrc) hall).mono ?_)
    rintro _ w' G ⟨-, rfl⟩
    exact .silent (NoTask.silent trivial) fun _ _ _ _ _ => rfl

theorem crawlSource_visits {dir : SourceDir} {dst : FDRCRef} (hl : es.Legal)
    (hdir : OpenDir w (.source path (.dir a es)) dev dir) :
    Visits opts sync report dev Paid (crawlSource path dst dir) w (es.visits report path) := by
  refine .silent (NoTask.silent trivial) fun w₁ hw r w₂ hs => ?_
  have hw₂ := hw.trans (pool_grow hs)
  cases r with
  | error e => cases hs
  | ok newDstFD =>
    refine .silent (NoTask.silent trivial) fun w₃ hw₃ newSrc w₄ hs => ?_
    obtain ⟨q, hq, href, hle⟩ := record_eq hs
    rw [(hw₂.trans hw₃).1 _ _ hdir.newSrcFD] at hq
    obtain rfl := Option.some.inj hq
    have hw₄ := hw₂.trans (hw₃.trans hle)
    refine .silent (NoTask.silent trivial) fun w₅ hw₅ newDst w₆ hs => ?_
    have hw₆ := hw₅.trans (pool_grow hs)
    refine .silent (NoTask.silent trivial) fun w₇ hw₇ _ w₈ hs => ?_
    have hw₈ := hw₆.trans (hw₇.trans (pool_grow hs))
    refine .silent (NoTask.silent trivial) fun w₉ hw₉ _ w₁₀ hs => ?_
    have hw₁₀ := hw₈.trans (hw₉.trans (pool_grow hs))
    have hdir' : OpenDir w₁₀ (.source path (.dir a es)) dev dir :=
      ⟨(hw₄.trans hw₁₀).1 _ _ hdir.fd, (hw₄.trans hw₁₀).1 _ _ hdir.newSrcFD, hdir.dev⟩
    refine Yields.bind (p := crawlSource.readTasks path dir newSrc newDst)
      ((readTasks_visits hl hdir' (hw₁₀.2 _ _ href)).mono ?_)
    rintro ret w' G rfl
    exact .silent (NoTask.silent trivial) fun _ _ _ _ _ =>
      .silent (NoTask.silent trivial) fun _ _ _ _ _ => rfl

/-- A task for a directory accounts for exactly what it owes. -/
theorem processDir_visits {d : Option (ℕ × ℕ)} {src dst : FDRCRef} (hl : es.Legal)
    (hd : d.getD dev = dev)
    (hsrc : (w.ref src).bind (·.lookup (baseName path)) = some (.source path (.dir a es))) :
    Visits opts sync report dev Paid (processDir sync path d src dst >>= fun _ => .ret ()) w
      (es.visits report path) := by
  have body : Visits opts sync report dev Paid (processDirBody sync path d src dst) w
      (es.visits report path) := by
    refine .bind ((openSource_visits hd hsrc).mono ?_)
    rintro r w' G ⟨dir, rfl, hdir, -, rfl⟩
    change Visits _ _ _ _ _ (ite _ _ _) _ _
    split
    · refine .bind (pruneDst_visits.mono ?_)
      rintro ok w₁ G ⟨rfl, hw₁, rfl⟩
      exact crawlSource_visits hl
        ⟨hw₁.1 _ _ hdir.fd, hw₁.1 _ _ hdir.newSrcFD, hdir.dev⟩
    · exact crawlSource_visits hl hdir
  refine .bind (.bind (body.mono ?_))
  rintro ret w' G rfl
  exact .silent (NoTask.silent trivial) fun _ _ _ _ _ =>
    .silent (NoTask.silent trivial) fun _ _ _ _ _ =>
      .silent (NoTask.silent trivial) fun _ _ _ _ _ => rfl

theorem processNonDir_noTask (path : String) (src dst : FDRCRef) :
    (processNonDir opts path src dst).Ensures NoTask fun _ => True :=
  processNonDir_calls.weaken fun c hc => by cases c <;> trivial

theorem visitAccount_sound : (visitAccount (α := α) opts sync report dev).Sound where
  grow _ _ _ h := step_grow h
  spawn c p w S hp howes := by
    cases c with
    | taskProcessDir path d src dst =>
      obtain rfl := Option.some.inj hp
      obtain ⟨a, es, hsrc, hl, rfl, rfl⟩ := howes
      exact processDir_visits hl rfl hsrc
    | taskProcessNonDir path d src dst =>
      obtain rfl := Option.some.inj hp
      obtain rfl : S = 0 := howes
      exact .bind (visits_pass (processNonDir_noTask path src dst) fun _ _ _ => rfl)
    | _ => cases hp

/-- The calls of `processDir` and of `processNonDir` in a run of the crawl: the first one is
made by `main`. -/
def visited (past : List Sys.Event) : Multiset Visit :=
  {.dir "."} + (past.map fun e => visitOf e.1).sum

/-- The root and everything below it is visited once, nothing else is, and '.' and '..' are
not. -/
structure VisitedOnce (es : Entries α) (V : Multiset Visit) : Prop where
  nodup : V.Nodup
  mem : ∀ v, v ∈ V ↔ v = .dir "." ∨ v ∈ es.all "."
  notDot : ∀ v ∈ V, v = .dir "." ∨ isDot (baseName v.path) = false

theorem baseName_dot : baseName "." = "." := by decide +kernel

theorem start_balance (hl : es.Legal) : Balance (visitAccount opts sync report dev)
    (es.visits report ".") (crawlStart sync a es) := by
  have hroot : ((crawlStart sync a es).world.ref 0).bind (·.lookup (baseName ".")) =
      some (.source "." (.dir a es)) := by
    rw [baseName_dot]
    rfl
  exact ⟨es.visits report ".", ⟨es.visits report ".", 0, (add_zero _).symm,
    processDir_visits hl rfl hroot, rfl⟩, zero_add _⟩

variable {C : Config Sys (World α) → ℕ × Sys.Event → Prop} {s : Config Sys (World α)}

theorem visited_eq (hl : es.Legal)
    (h : ((crawlPool opts sync report dev).system (crawlStart sync a es)).Reach C s)
    (hend : s.Ended) : visited s.past = {.dir "."} + es.visits report "." :=
  congrArg ({.dir "."} + ·) ((balance_of_reach visitAccount_sound (start_balance hl) h).ended hend)

/-- The root is not met again below itself. -/
theorem root_notMem : Visit.dir "." ∉ es.visits report "." := fun h => by
  obtain ⟨name, hv⟩ := Entries.under_of_mem es h
  exact hv.ne rfl

theorem visitedOnce_iff (hl : es.Legal) :
    VisitedOnce es ({.dir "."} + es.visits report ".") ↔ es.Reported report "." := by
  rw [← Entries.visits_eq_all_iff]
  constructor
  · intro h
    refine (Multiset.Nodup.ext (es.nodup_visits hl) (es.nodup_visits hl)).mpr fun v => ?_
    have hv := h.mem v
    rw [Multiset.mem_add, Multiset.mem_singleton] at hv
    by_cases hroot : v = .dir "."
    · subst hroot
      exact iff_of_false root_notMem root_notMem
    · exact (or_iff_right hroot).symm.trans (hv.trans (or_iff_right hroot))
  · intro h
    rw [h]
    refine ⟨?_, fun v => by rw [Multiset.mem_add, Multiset.mem_singleton], fun v hv => ?_⟩
    · exact Multiset.nodup_cons.mpr ⟨root_notMem, es.nodup_visits hl⟩
    · exact (Multiset.mem_add.mp hv).imp Multiset.mem_singleton.mp (es.notDot hl)

/-- A crawl that has come to its end has visited everything exactly once if and only if `readdir`
reports the type of every directory below the root: one of unknown type is taken for a file. -/
theorem crawl_visits_once_iff (hl : es.Legal)
    (h : ((crawlPool opts sync report dev).system (crawlStart sync a es)).Reach C s)
    (hend : s.Ended) : VisitedOnce es (visited s.past) ↔ es.Reported report "." := by
  rw [visited_eq hl h hend, visitedOnce_iff hl]

end account

section sample

def sampleTree : Entries Unit := .cons "d" (.dir () (.cons "f" (.leaf ()) .nil)) .nil

theorem sampleTree_legal : sampleTree.Legal :=
  ⟨⟨rfl, by decide⟩, List.not_mem_nil, ⟨⟨rfl, by decide⟩, List.not_mem_nil, trivial, trivial⟩, trivial⟩

def sampleOpts : CrawlOpts := ⟨4096, 4096, fun _ => ".partial"⟩

def dirStx : Statx := { stx_mode := 0o040755, stx_nlink := 2, stx_ino := 7 }

/-- The calls of the task for a directory with the one entry that is listed. -/
def dirEvents (task : ℕ) (path : String) (src dst : FDRCRef) (fd : Fd) (newSrc newDst : FDRCRef)
    (entry : Dirent) (start : Call) (answer : start.Answer) : List (ℕ × Sys.Event) :=
  [(task, ⟨.openat src (baseName path) [.rdonly, .directory, .noatime] 0, .ok fd⟩),
   (task, ⟨.statx src (baseName path), .ok dirStx⟩),
   (task, ⟨.mkdirat dst (baseName path) 0o040755, .error eexist⟩),
   (task, ⟨.dup fd, .ok (fd + 1)⟩),
   (task, ⟨.openat dst (baseName path) [.directory, .noatime] 0, .ok (fd + 2)⟩),
   (task, ⟨.newFDRC (fd + 1) path false {}, newSrc⟩),
   (task, ⟨.newFDRC (fd + 2) path true dirStx, newDst⟩),
   (task, ⟨.addFilesSeen, ()⟩),
   (task, ⟨.addDirs, ()⟩),
   (task, ⟨.fdopendir fd, .ok ()⟩),
   (task, ⟨.readdir fd, [⟨".", true⟩, ⟨"..", true⟩, entry]⟩),
   (task, ⟨.incref newDst, ()⟩),
   (task, ⟨.incref newSrc, ()⟩),
   (task, ⟨start, answer⟩),
   (task, ⟨.closedir fd, ()⟩),
   (task, ⟨.releaseDir newDst, ()⟩),
   (task, ⟨.releaseDir newSrc, ()⟩),
   (task, ⟨.releaseDir dst, ()⟩),
   (task, ⟨.releaseDir src, ()⟩),
   (task, ⟨.releasePath (some path), ()⟩)]

/-- The root is crawled, then the task for "d". -/
def sampleEvents : List (ℕ × Sys.Event) :=
  dirEvents 0 "." 0 1 3 2 3 ⟨"d", false⟩ (.taskProcessNonDir "./d" (0, 0) 2 3) () ++
  [(1, ⟨.statx 2 "d", .ok dirStx⟩),
   (1, ⟨.statx 3 "d", .error enoent⟩),
   (1, ⟨.addFilesSeen, ()⟩),
   (1, ⟨.hlinkStateRegisterLinkRoot "./d" 7 0 false 2 0 true 3, (⟨true, true, false⟩ : LinkOutcome)⟩),
   (1, ⟨.unlinkat 3 "d.partial", .error enoent⟩),
   (1, ⟨.releasePath (some "./d.partial"), ()⟩),
   (1, ⟨.releaseDir 3, ()⟩),
   (1, ⟨.releaseDir 2, ()⟩),
   (1, ⟨.releasePath (some "./d"), ()⟩)]

def fifoStx : Statx := { stx_mode := 0o010644, stx_nlink := 1 }

/-- The root is crawled, then "d", then the task for "f". -/
def reportedEvents : List (ℕ × Sys.Event) :=
  dirEvents 0 "." 0 1 3 2 3 ⟨"d", true⟩ (.taskProcessDir "./d" (0, 0) 2 3) () ++
  dirEvents 1 "./d" 2 3 6 4 5 ⟨"f", false⟩ (.taskProcessNonDir "./d/f" (0, 0) 4 5) () ++
  [(2, ⟨.statx 4 "f", .ok fifoStx⟩),
   (2, ⟨.statx 5 "f", .error enoent⟩),
   (2, ⟨.addFilesSeen, ()⟩),
   (2, ⟨.unlinkat 5 "f.partial", .error enoent⟩),
   (2, ⟨.releasePath (some "./d/f.partial"), ()⟩),
   (2, ⟨.releaseDir 5, ()⟩),
   (2, ⟨.releaseDir 4, ()⟩),
   (2, ⟨.releasePath (some "./d/f"), ()⟩)]

/-- The crawl, when every type is reported, or none. -/
def sampleCrawl (reported : Bool) : TransitionSystem (Config Sys (World Unit)) (ℕ × Sys.Event) :=
  (crawlPool sampleOpts false (fun _ => reported) (0, 0)).system (crawlStart false () sampleTree)

theorem sample_ends : ∃ s, (sampleCrawl false).Reach (fun _ _ => True) s ∧ s.Ended ∧
    Visit.dir "./d" ∉ visited s.past := by
  have hrun : (((sampleCrawl false).exec (fun _ _ => true) (crawlStart false () sampleTree)
      sampleEvents).any fun s => decide (s.Ended ∧ Visit.dir "./d" ∉ visited s.past)) = true := by
    decide +kernel
  obtain ⟨s, hs, hend⟩ := (Option.any_eq_true _ _).mp hrun
  exact ⟨s, ⟨_, rfl, .of_exec _ (fun _ _ _ _ => trivial) hs⟩, of_decide_eq_true hend⟩

/-- The directory "d" is handed to `processNonDir`, and its file is not visited at all. -/
theorem unknown_type_not_visited : ∃ s, (sampleCrawl false).Reach (fun _ _ => True) s ∧ s.Ended ∧
    ¬ VisitedOnce sampleTree (visited s.past) := by
  obtain ⟨s, hs, hend, hnot⟩ := sample_ends
  refine ⟨s, hs, hend, fun h => hnot ((h.mem _).mpr (.inr ?_))⟩
  decide

/-- The type of "d" is reported, and the file in it is visited as well. -/
theorem crawl_visits_once_iff_sample : ∃ s, (sampleCrawl true).Reach (fun _ _ => True) s ∧
    s.Ended ∧ Visit.nonDir "./d/f" ∈ visited s.past ∧ VisitedOnce sampleTree (visited s.past) := by
  have hrun : (((sampleCrawl true).exec (fun _ _ => true) (crawlStart false () sampleTree)
      reportedEvents).any fun s =>
        decide (s.Ended ∧ Visit.nonDir "./d/f" ∈ visited s.past)) = true := by
    decide +kernel
  obtain ⟨s, hs, hend⟩ := (Option.any_eq_true _ _).mp hrun
  obtain ⟨hend, hmem⟩ := of_decide_eq_true hend
  have hreach : (sampleCrawl true).Reach (fun _ _ => True) s :=
    ⟨_, rfl, .of_exec _ (fun _ _ _ _ => trivial) hs⟩
  exact ⟨s, hreach, hend, hmem,
    (crawl_visits_once_iff sampleTree_legal hreach hend).mpr ⟨⟨rfl, trivial, trivial⟩, trivial⟩⟩

end sample

end Copy2.Crawl
