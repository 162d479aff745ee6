import Copy2.Crawl.ProcessDir

/-! # What --sync removes

Every entry of the destination is probed in the source, and every entry whose probe
fails is removed, whatever the failure was and whichever entry it is. -/
namespace Copy2.Crawl
open FileJob Lib Os

def removal : Sys.Event → Option String
  | ⟨.recursiveRemove path, _⟩ => some path
  | _ => none

def probe : Sys.Event → Option (String × Bool)
  | ⟨.faccessat _ name, .ok _⟩ => some (name, true)
  | ⟨.faccessat _ name, .error _⟩ => some (name, false)
  | _ => none

def listing : Sys.Event → Option (List Dirent)
  | ⟨.readdir _, entries⟩ => some entries
  | _ => none

def removals (tr : List Sys.Event) : List String := tr.filterMap removal

def probes (tr : List Sys.Event) : List (String × Bool) := tr.filterMap probe

/-- The entries of the destination directory: with `--sync` it is the first one read. -/
def dstEntries (tr : List Sys.Event) : List Dirent := (tr.filterMap listing).head?.getD []

def Outside : Call → Prop
  | .recursiveRemove _ | .faccessat .. => False
  | _ => True

/-- A call that does not read a directory either. -/
def Quiet : Call → Prop
  | .recursiveRemove _ | .faccessat .. | .readdir _ => False
  | _ => True

theorem removals_append (l l' : List Sys.Event) :
    removals (l ++ l') = removals l ++ removals l' := List.filterMap_append

theorem probes_append (l l' : List Sys.Event) : probes (l ++ l') = probes l ++ probes l' :=
  List.filterMap_append

theorem removals_outside {l : List Sys.Event} (h : ∀ e ∈ l, Outside e.1) : removals l = [] := by
  refine List.filterMap_eq_nil_iff.mpr fun e he => ?_
  obtain ⟨c, r⟩ := e
  have hc : Outside c := h _ he
  cases c <;> first | rfl | exact absurd hc id

theorem probes_outside {l : List Sys.Event} (h : ∀ e ∈ l, Outside e.1) : probes l = [] := by
  refine List.filterMap_eq_nil_iff.mpr fun e he => ?_
  obtain ⟨c, r⟩ := e
  have hc : Outside c := h _ he
  cases c <;> first | rfl | exact absurd hc id

theorem Quiet.outside {c : Call} (h : Quiet c) : Outside c := by
  cases c <;> trivial

theorem listing_quiet {l : List Sys.Event} (h : ∀ e ∈ l, Quiet e.1) : l.filterMap listing = [] := by
  refine List.filterMap_eq_nil_iff.mpr fun e he => ?_
  obtain ⟨c, r⟩ := e
  have hc : Quiet c := h _ he
  cases c <;> first | rfl | exact absurd hc id

def extra (path : String) (outcomes : List (Dirent × Bool)) : List String :=
  (outcomes.filter fun o => !o.2).map fun o => child path o.1.d_name

def named (outcomes : List (Dirent × Bool)) : List (String × Bool) :=
  outcomes.map fun o => (o.1.d_name, o.2)

theorem collectExtra_every (fd : Fd) (path : String) (entries : List Dirent)
    (toRemove : List String) :
    (collectExtra fd path entries toRemove).Every fun paths l =>
      ∃ outcomes, outcomes.map Prod.fst = entries ∧
        paths = (extra path outcomes).reverse ++ toRemove ∧
        removals l = [] ∧ probes l = named outcomes ∧ l.filterMap listing = [] := by
  induction entries generalizing toRemove with
  | nil => exact ⟨[], rfl, rfl, rfl, rfl, rfl⟩
  | cons d ds ih =>
    intro r
    cases r with
    | error e =>
      refine (ih (child path d.d_name :: toRemove)).mono ?_
      rintro paths l ⟨outcomes, hfst, hpaths, hrem, hprobe, hlist⟩
      refine ⟨(d, false) :: outcomes, by simp [hfst], ?_, hrem, ?_, hlist⟩
      · simp [hpaths, extra]
      · simp [probes, probe, named] at hprobe ⊢
        exact hprobe
    | ok r =>
      refine (ih toRemove).mono ?_
      rintro paths l ⟨outcomes, hfst, hpaths, hrem, hprobe, hlist⟩
      refine ⟨(d, true) :: outcomes, by simp [hfst], ?_, hrem, ?_, hlist⟩
      · simp [hpaths, extra]
      · simp [probes, probe, named] at hprobe ⊢
        exact hprobe

theorem removeExtra_every (paths : List String) :
    (removeExtra paths).Every fun _ l =>
      removals l = paths ∧ probes l = [] ∧ l.filterMap listing = [] := by
  induction paths with
  | nil => exact ⟨rfl, rfl, rfl⟩
  | cons p ps ih =>
    refine fun r => ih.mono fun _ l ⟨hrem, hprobe, hlist⟩ => ⟨?_, hprobe, hlist⟩
    simp [removals, removal, ← hrem]

/-- The events show the entries of the destination, each of them probed, and those whose
probe failed removed. -/
def Pruned (path : String) (outcomes : List (Dirent × Bool)) (l : List Sys.Event) : Prop :=
  removals l = (extra path outcomes).reverse ∧ probes l = named outcomes

/-- Pruning either stops before it has read the directory, or probes every entry of it. -/
theorem pruneDst_every (path : String) (fd : Fd) (dstParent : FDRCRef) :
    (pruneDst path fd dstParent).Every fun ok l =>
      (ok = false ∧ ∀ e ∈ l, Quiet e.1) ∨
      ok = true ∧ ∃ outcomes, Pruned path outcomes l ∧
        l.filterMap listing = [outcomes.map Prod.fst] := by
  intro r
  cases r with
  | error e => exact .inl ⟨rfl, by simp [Quiet]⟩
  | ok dstFdDup =>
    intro r
    cases r with
    | error e => exact .inl ⟨rfl, by simp [Quiet]⟩
    | ok u =>
      intro entries
      refine (collectExtra_every fd path entries []).bind ?_
      rintro paths l ⟨outcomes, rfl, rfl, hrem, hprobe, hlist⟩ u
      refine (removeExtra_every _).bind fun _ l' ⟨hrem', hprobe', hlist'⟩ => ?_
      simp only [removals, probes] at hrem hprobe hrem' hprobe'
      refine .inr ⟨rfl, outcomes, ⟨?_, ?_⟩, ?_⟩
      · simp [removals, List.filterMap_cons, removal, hrem, hrem']
      · simp [probes, List.filterMap_cons, probe, hprobe, hprobe']
      · simp [List.filterMap_cons, listing, hlist, hlist']

theorem openSource_quiet (path : String) (dev : Option (ℕ × ℕ)) (srcParent dstParent : FDRCRef) :
    (openSource path dev srcParent dstParent).Ensures Quiet fun _ => True := by
  have dup : ∀ fd stx thisdev,
      (openSource.dupSource fd stx thisdev).Ensures Quiet fun _ => True := fun fd stx thisdev =>
    And.intro trivial fun r => by cases r <;> trivial
  refine And.intro trivial fun r => ?_
  cases r with
  | error e => trivial
  | ok fd =>
    refine And.intro trivial fun r => ?_
    cases r with
    | error e => trivial
    | ok stx =>
      change Prog.Ensures _ _ (ite _ _ _)
      split
      · trivial
      · split
        · exact dup fd stx _
        · refine And.intro trivial fun r => ?_
          cases r with
          | error e =>
            change Prog.Ensures _ _ (ite _ _ _)
            split
            · trivial
            · exact dup fd stx _
          | ok u => exact dup fd stx _

theorem startTasks_outside (path : String) (dev : ℕ × ℕ) (src dst : FDRCRef)
    (entries : List Dirent) :
    (startTasks path dev src dst entries).Ensures Outside fun _ => True := by
  induction entries with
  | nil => trivial
  | cons d ds ih =>
    rw [startTasks]
    split
    · exact ih
    · refine And.intro trivial fun _ => And.intro trivial fun _ => ?_
      change Prog.Ensures _ _ (ite _ _ _)
      split
      · exact And.intro trivial fun _ => ih
      · exact And.intro trivial fun _ => ih

theorem crawlSource_outside (path : String) (dstParent : FDRCRef) (dir : SourceDir) :
    (crawlSource path dstParent dir).Ensures Outside fun _ => True := by
  have tasks : ∀ src dst, (crawlSource.readTasks path dir src dst).Ensures Outside
      fun _ => True := fun src dst => And.intro trivial fun r => by
    cases r with
    | error e => trivial
    | ok u =>
      refine And.intro trivial fun entries => ?_
      exact (startTasks_outside _ _ _ _ entries).bind fun _ _ => And.intro trivial fun _ => trivial
  refine And.intro trivial fun r => ?_
  cases r with
  | error e => trivial
  | ok newDstFD =>
    refine And.intro trivial fun src => And.intro trivial fun dst => ?_
    refine And.intro trivial fun _ => And.intro trivial fun _ => ?_
    exact (tasks src dst).bind fun ret _ => And.intro trivial fun _ => And.intro trivial fun _ =>
      trivial

/-- The events of a whole run: the entries of the destination, each of them probed, and
those whose probe failed removed. -/
theorem processDir_every (path : String) (dev : Option (ℕ × ℕ)) (srcParent dstParent : FDRCRef) :
    (processDir true path dev srcParent dstParent).Every fun _ l =>
      ∃ outcomes, dstEntries l = outcomes.map Prod.fst ∧ Pruned path outcomes l := by
  have quiet : ∀ l : List Sys.Event, (∀ e ∈ l, Quiet e.1) →
      dstEntries l = [] ∧ Pruned path [] l := fun l h =>
    ⟨by rw [dstEntries, listing_quiet h]; rfl, removals_outside fun e he => (h e he).outside,
      probes_outside fun e he => (h e he).outside⟩
  refine Prog.Every.bind (S := fun _ l =>
    ∃ outcomes, dstEntries l = outcomes.map Prod.fst ∧ Pruned path outcomes l) ?_ ?_
  · refine (openSource_quiet path dev srcParent dstParent).every.bind fun r l hl => ?_
    cases r with
    | error ret => exact ⟨[], by simpa using quiet l hl.2⟩
    | ok dir =>
      refine (pruneDst_every path dir.newSrcFD dstParent).bind fun ok l' hl' => ?_
      rcases hl' with ⟨rfl, hq⟩ | ⟨rfl, outcomes, ⟨hrem, hprobe⟩, hlist⟩
      · refine ⟨[], ?_⟩
        simpa using quiet (l ++ l') fun e he =>
          (List.mem_append.mp he).elim (hl.2 e) (hq e)
      · refine (crawlSource_outside path dstParent dir).every.mono fun _ l'' hl'' => ?_
        have hbefore : ∀ e ∈ l, Outside e.1 := fun e he => (hl.2 e he).outside
        refine ⟨outcomes, ?_, ?_, ?_⟩
        · simp [dstEntries, listing_quiet hl.2, hlist]
        · rw [removals_append, removals_append, removals_outside hbefore,
            removals_outside hl''.2, hrem]
          simp
        · rw [probes_append, probes_append, probes_outside hbefore, probes_outside hl''.2,
            hprobe]
          simp
  · rintro ret l ⟨outcomes, hentries, hrem, hprobe⟩ u v w
    refine ⟨outcomes, ?_, ?_, ?_⟩
    · simpa [dstEntries, List.filterMap_cons, listing] using hentries
    · rw [removals_append, hrem]
      exact List.append_nil _
    · rw [probes_append, hprobe]
      exact List.append_nil _

/-- An entry that must stay: the directory itself, its parent, and what the source has. -/
def kept (inSource : String → Bool) (name : String) : Bool := isDot name || inSource name

def extraPaths (inSource : String → Bool) (path : String) (entries : List Dirent) :
    Set String :=
  {p | ∃ d ∈ entries, kept inSource d.d_name = false ∧ p = child path d.d_name}

def Truthful (inSource : String → Bool) (tr : List Sys.Event) : Prop :=
  ∀ o ∈ probes tr, o.2 = kept inSource o.1

/-- Nothing but the extra entries is removed, and all of them when the probes are right. -/
def SyncExact (inSource : String → Bool) (path : String) (tr : List Sys.Event) : Prop :=
  {p | p ∈ removals tr} ⊆ extraPaths inSource path (dstEntries tr) ∧
    (Truthful inSource tr → {p | p ∈ removals tr} = extraPaths inSource path (dstEntries tr))

theorem child_injective (path : String) : Function.Injective (child path) := fun _ _ h =>
  (String.append_right_inj _).mp h

theorem mem_removals {path : String} {outcomes : List (Dirent × Bool)} {l : List Sys.Event}
    (h : Pruned path outcomes l) {p : String} :
    p ∈ removals l ↔ ∃ d, (d, false) ∈ outcomes ∧ p = child path d.d_name := by
  rw [h.1, List.mem_reverse, extra, List.mem_map]
  constructor
  · rintro ⟨⟨d, ok⟩, hmem, rfl⟩
    obtain ⟨hmem, hok⟩ := List.mem_filter.mp hmem
    simp only [Bool.not_eq_true'] at hok
    exact ⟨d, hok ▸ hmem, rfl⟩
  · rintro ⟨d, hmem, rfl⟩
    exact ⟨(d, false), List.mem_filter.mpr ⟨hmem, rfl⟩, rfl⟩

theorem mem_probes {path : String} {outcomes : List (Dirent × Bool)} {l : List Sys.Event}
    (h : Pruned path outcomes l) {o : String × Bool} :
    o ∈ probes l ↔ ∃ d, (d, o.2) ∈ outcomes ∧ o.1 = d.d_name := by
  rw [h.2, named, List.mem_map]
  constructor
  · rintro ⟨⟨d, b⟩, hmem, rfl⟩
    exact ⟨d, hmem, rfl⟩
  · rintro ⟨d, hmem, heq⟩
    exact ⟨(d, o.2), hmem, Prod.ext heq.symm rfl⟩

/-- In every run of `processDir`, whatever the calls answer: exactly the extra entries are
removed if and only if no probe of an entry that must stay fails. -/
theorem syncExact_iff (env : Sys.Environment) (inSource : String → Bool) (path : String)
    (dev : Option (ℕ × ℕ)) (srcParent dstParent : FDRCRef) :
    let tr := ((processDir true path dev srcParent dstParent).run env []).2
    SyncExact inSource path tr ↔ ∀ name, kept inSource name = true → (name, false) ∉ probes tr := by
  intro tr
  obtain ⟨outcomes, hentries, hpruned⟩ : ∃ outcomes, dstEntries tr = outcomes.map Prod.fst ∧
    Pruned path outcomes tr := (processDir_every path dev srcParent dstParent).run_nil
  constructor
  · rintro ⟨hsub, -⟩ name hkept hprobe
    obtain ⟨d, hd, rfl⟩ := (mem_probes hpruned).mp hprobe
    obtain ⟨d', -, hd', heq⟩ := hsub ((mem_removals hpruned).mpr ⟨d, hd, rfl⟩)
    rw [← child_injective path heq, hkept] at hd'
    cases hd'
  · intro hprobes
    have hsub : {p | p ∈ removals tr} ⊆ extraPaths inSource path (dstEntries tr) := by
      intro p hp
      obtain ⟨d, hd, rfl⟩ := (mem_removals hpruned).mp hp
      have hd' : d ∈ dstEntries tr := hentries ▸ List.mem_map_of_mem hd
      refine ⟨d, hd', Bool.eq_false_iff.mpr fun hkept => ?_, rfl⟩
      exact hprobes d.d_name hkept ((mem_probes hpruned).mpr ⟨d, hd, rfl⟩)
    refine ⟨hsub, fun htrue => hsub.antisymm ?_⟩
    rintro p ⟨d, hd, hd', rfl⟩
    rw [hentries] at hd
    obtain ⟨⟨d, ok⟩, hmem, rfl⟩ := List.mem_map.mp hd
    have hok := htrue (d.d_name, ok) ((mem_probes hpruned).mpr ⟨d, hmem, rfl⟩)
    rw [hd'] at hok
    exact (mem_removals hpruned).mpr ⟨d, hok ▸ hmem, rfl⟩

/-- Every call works, but the destination has its two dot entries and the probe of the
second one fails with `EACCES`. -/
def deniedParent : Sys.Environment := fun h c =>
  match c with
  | .readdir _ => if h.any (fun e => (listing e).isSome) then [] else [⟨".", true⟩, ⟨"..", true⟩]
  | .faccessat _ name => if name == ".." then .error 13 else .ok ()
  | c => c.succeed {}

/-- The parent of the destination directory is removed. -/
theorem parent_removed :
    ¬ ∀ (env : Sys.Environment) (inSource : String → Bool) (path : String)
      (dev : Option (ℕ × ℕ)) (srcParent dstParent : FDRCRef),
      SyncExact inSource path ((processDir true path dev srcParent dstParent).run env []).2 := by
  intro h
  have hp : "a/.." ∈ removals ((processDir true "a" none 1 2).run deniedParent []).2 := by
    decide +kernel
  obtain ⟨d, hd, hd', heq⟩ := (h deniedParent (fun _ => false) "a" none 1 2).1 hp
  have hname : d.d_name = ".." := child_injective "a" heq.symm
  rw [hname] at hd'
  revert hd'
  decide

end Copy2.Crawl
