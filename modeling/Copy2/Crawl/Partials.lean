import Copy2.Crawl.World

/-! # The names of temporary files

The copy of an entry is made under the entry's own name, followed by sixteen hexadecimal
digits of a hash of its path and a fixed ending. Whether such a name can be the name of an
entry of the source is a matter of one directory at a time. -/
namespace Copy2.Crawl
open FileJob Lib Os

variable {α : Type}

def hexDigit (d : ℕ) : Char := if d < 10 then Char.ofNat (48 + d) else Char.ofNat (55 + d)

def hex16 (h : UInt64) : List Char :=
  (List.range 16).map fun i => hexDigit (h.toNat / 16 ^ (15 - i) % 16)

def suffixBuf (hash : String → UInt64) (remote : String) : String :=
  String.ofList (hex16 (hash remote) ++ ".partial".toList)

def partialPath (hash : String → UInt64) (remote : String) : String :=
  remote ++ suffixBuf hash remote

def hashedOpts (hash : String → UInt64) (minBlockSize maxBlockSize : ℕ) : CrawlOpts :=
  ⟨minBlockSize, maxBlockSize, suffixBuf hash⟩

section Suffix
variable {hash : String → UInt64} {p q : String}

theorem toList_suffixBuf :
    (suffixBuf hash p).toList = hex16 (hash p) ++ ".partial".toList := by
  rw [suffixBuf, String.toList_ofList]

theorem length_suffixBuf : (suffixBuf hash p).toList.length = 24 := by
  rw [toList_suffixBuf]
  simp [hex16]

theorem slash_notMem_suffixBuf : '/' ∉ (suffixBuf hash p).toList := by
  have hdigit : ∀ d < 16, hexDigit d ≠ '/' := by decide
  rw [toList_suffixBuf, List.mem_append, hex16, List.mem_map]
  rintro (⟨i, -, hi⟩ | h)
  · exact hdigit _ (Nat.mod_lt _ (by norm_num)) hi
  · simp at h

theorem toList_partialPath :
    (partialPath hash p).toList = p.toList ++ (suffixBuf hash p).toList := by
  simp [partialPath]

/-- Two paths never have the same temporary name, whatever the hash. -/
theorem partialPath_injective (h : partialPath hash p = partialPath hash q) : p = q := by
  have hlist := congrArg String.toList h
  rw [toList_partialPath, toList_partialPath] at hlist
  have hlen : (suffixBuf hash p).toList.length = (suffixBuf hash q).toList.length := by
    rw [length_suffixBuf, length_suffixBuf]
  exact String.toList_inj.mp (List.append_inj_left' hlist hlen)

/-- The temporary name of an entry is a name in the directory of the entry. -/
theorem partialPath_child {name : String} : partialPath hash (child p name) =
    child p (name ++ suffixBuf hash (child p name)) := by
  rw [← String.toList_inj]
  simp [partialPath, toList_child]

theorem legal_partialPath {name : String} (h : LegalName name) :
    LegalName (name ++ suffixBuf hash p) where
  notDot := by
    have hlen : (name ++ suffixBuf hash p).toList.length = name.toList.length + 24 := by
      rw [String.toList_append, List.length_append, length_suffixBuf]
    by_contra hdot
    have hcases : name ++ suffixBuf hash p = "." ∨ name ++ suffixBuf hash p = ".." := by
      simpa [isDot, or_iff_not_imp_left] using hdot
    rcases hcases with he | he <;> rw [he] at hlen <;> simp at hlen
  noSlash := by
    rw [String.toList_append, List.mem_append]
    rintro (hs | hs)
    · exact h.noSlash hs
    · exact slash_notMem_suffixBuf hs

theorem Under.partialPath (h : Under p q) (hne : q ≠ p) : Under p (partialPath hash q) := by
  obtain ⟨s, hq, hs⟩ := h
  have hcons : s ≠ [] := by
    rintro rfl
    exact hne (String.toList_inj.mp (by simpa using hq))
  refine ⟨s ++ (suffixBuf hash q).toList, ?_, .inr ?_⟩
  · rw [toList_partialPath, hq, List.append_assoc]
  · rw [List.head?_append_of_ne_nil _ hcons]
    exact hs.resolve_left hcons

theorem partialPath_ne (h : Under p q) : partialPath hash q ≠ p := by
  rintro rfl
  obtain ⟨s, hq, -⟩ := h
  have hlen := congrArg List.length hq
  rw [toList_partialPath, List.length_append, List.length_append, length_suffixBuf] at hlen
  omega

end Suffix

mutual
/-- In no directory that is crawled, an entry has the temporary name of another one that is
taken for no directory. -/
def Tree.NoLookalike (hash : String → UInt64) (report : String → Bool) (path : String) :
    Tree α → Prop
  | .leaf _ => True
  | .dir _ es => report path = true → es.NoLookalike hash report path es.names

def Entries.NoLookalike (hash : String → UInt64) (report : String → Bool) (path : String)
    (siblings : List String) : Entries α → Prop
  | .nil => True
  | .cons name t es =>
    ((t.isDir && report (child path name)) = false →
      name ++ suffixBuf hash (child path name) ∉ siblings) ∧
    t.NoLookalike hash report (child path name) ∧ es.NoLookalike hash report path siblings
end

def Spared (hash : String → UInt64) (F G : Multiset Visit) : Prop :=
  ∀ v ∈ F, v.isDir = false → ∀ u ∈ G, partialPath hash v.path ≠ u.path

theorem Entries.noLookalike_iff {hash : String → UInt64} {report : String → Bool} {path : String}
    {siblings : List String} {es : Entries α} : es.NoLookalike hash report path siblings ↔
      ∀ name t, (name, t) ∈ es.toList →
        ((t.isDir && report (child path name)) = false →
          name ++ suffixBuf hash (child path name) ∉ siblings) ∧
        t.NoLookalike hash report (child path name) := by
  induction es using listInduction with
  | nil => simp [NoLookalike, toList]
  | cons n u es ih =>
    rw [NoLookalike, ih]
    constructor
    · rintro ⟨hn, hu, hes⟩ name t hmem
      rcases List.mem_cons.mp hmem with he | hmem
      · obtain ⟨rfl, rfl⟩ := Prod.mk.inj he
        exact ⟨hn, hu⟩
      · exact hes name t hmem
    · intro h
      exact ⟨(h n u List.mem_cons_self).1, (h n u List.mem_cons_self).2,
        fun name t hmem => h name t (List.mem_cons_of_mem _ hmem)⟩

def Tree.visit (report : String → Bool) (path : String) (t : Tree α) : Visit :=
  if t.isDir && report path then .dir path else .nonDir path

def Tree.inner (report : String → Bool) (path : String) : Tree α → Multiset Visit
  | .leaf _ => 0
  | .dir _ es => if report path then es.visits report path else 0

section Below
variable {hash : String → UInt64} {report : String → Bool} {path : String}

theorem Tree.visits_eq (t : Tree α) :
    t.visits report path = {t.visit report path} + t.inner report path := by
  cases t with
  | leaf a => simp [visits, visit, inner, isDir]
  | dir a es =>
    rw [visits, visit, inner, isDir]
    split <;> simp_all

theorem Tree.visit_path (t : Tree α) : (t.visit report path).path = path := by
  rw [visit]
  split <;> rfl

theorem Tree.visit_isDir (t : Tree α) :
    (t.visit report path).isDir = (t.isDir && report path) := by
  rw [visit]
  split <;> simp_all [Visit.isDir]

theorem Tree.under_of_mem_inner {t : Tree α} {v : Visit} (h : v ∈ t.inner report path) :
    Under path v.path ∧ v.path ≠ path := by
  cases t with
  | leaf a => simp [inner] at h
  | dir a es =>
    rw [inner] at h
    split at h
    · obtain ⟨name, hv⟩ := Entries.under_of_mem es h
      exact ⟨hv.of_child, hv.ne⟩
    · simp at h

/-- A temporary name lies in the directory of its entry: it has to be compared with the
names there, and below with the names below. -/
theorem Entries.spared_iff_forall {es : Entries α} (hl : es.Legal) :
    Spared hash (es.visits report path) (es.all path) ↔ ∀ name t, (name, t) ∈ es.toList →
      ((t.isDir && report (child path name)) = false →
        name ++ suffixBuf hash (child path name) ∉ es.names) ∧
      Spared hash (t.inner report (child path name))
        (t.inner (fun _ => true) (child path name)) := by
  constructor
  · intro h name t hmem
    refine ⟨fun hdir hname => ?_, fun v hv hvdir u hu => ?_⟩
    · obtain ⟨⟨name', t'⟩, hmem', rfl⟩ := List.mem_map.mp hname
      refine h (t.visit report (child path name)) ?_ ?_
        (t'.visit (fun _ => true) (child path (name ++ suffixBuf hash (child path name)))) ?_ ?_
      · exact mem_visits.mpr ⟨name, t, hmem, by rw [t.visits_eq]; simp⟩
      · rw [t.visit_isDir, hdir]
      · exact mem_visits.mpr ⟨_, t', hmem', by rw [t'.visits_eq]; simp⟩
      · rw [t.visit_path, t'.visit_path, partialPath_child]
    · refine h v (mem_visits.mpr ⟨name, t, hmem, ?_⟩) hvdir u (mem_visits.mpr ⟨name, t, hmem, ?_⟩)
      · rw [t.visits_eq]
        exact Multiset.mem_add.mpr (.inr hv)
      · rw [t.visits_eq]
        exact Multiset.mem_add.mpr (.inr hu)
  · intro h v hv hvdir u hu
    obtain ⟨name, t, hmem, hv⟩ := mem_visits.mp hv
    obtain ⟨name', t', hmem', hu⟩ := mem_visits.mp hu
    obtain ⟨hn, ht⟩ := legal_of_mem hl hmem
    have hn' := (legal_of_mem hl hmem').1
    have hunder := Tree.under_of_mem t' hu
    rw [t.visits_eq, Multiset.mem_add, Multiset.mem_singleton] at hv
    rcases hv with rfl | hv
    · rw [t.visit_isDir] at hvdir
      rw [t.visit_path, partialPath_child]
      intro he
      rw [← he] at hunder
      have hname := hunder.name_eq hn' (legal_partialPath hn) (Under.refl _)
      exact (h name t hmem).1 hvdir (List.mem_map.mpr ⟨_, hmem', hname⟩)
    · obtain ⟨hbelow, hne⟩ := Tree.under_of_mem_inner hv
      intro he
      rw [← he] at hunder
      obtain rfl := hunder.name_eq hn' hn (hbelow.partialPath hne)
      obtain rfl : t' = t := Option.some.inj
        ((find_of_mem hl hmem').symm.trans (find_of_mem hl hmem))
      rw [t'.visits_eq, Multiset.mem_add, Multiset.mem_singleton] at hu
      rcases hu with rfl | hu
      · rw [t'.visit_path] at he
        exact partialPath_ne hbelow he
      · exact (h name' t' hmem).2 v hv hvdir u hu he

end Below

mutual
theorem Tree.spared_iff {hash : String → UInt64} {report : String → Bool} {path : String} :
    (t : Tree α) → t.Legal → (Spared hash (t.inner report path) (t.inner (fun _ => true) path) ↔
      t.NoLookalike hash report path)
  | .leaf _, _ => by simp [Tree.inner, Tree.NoLookalike, Spared]
  | .dir _ es, hl => by
    rw [Tree.inner, Tree.inner, Tree.NoLookalike, if_pos rfl]
    cases hr : report path with
    | false => simp [Spared]
    | true =>
      have hes : Spared hash (es.visits report path) (es.all path) ↔ _ := es.spared_iff_forall hl
      rw [if_pos rfl, Entries.noLookalike_iff]
      refine hes.trans ⟨fun h _ name t hmem => ?_, fun h name t hmem => ?_⟩
      · exact ⟨(h name t hmem).1, (Entries.spared_iff_mem es hl hmem).mp (h name t hmem).2⟩
      · exact ⟨(h rfl name t hmem).1, (Entries.spared_iff_mem es hl hmem).mpr (h rfl name t hmem).2⟩

theorem Entries.spared_iff_mem {hash : String → UInt64} {report : String → Bool} {path : String} :
    (es : Entries α) → es.Legal → ∀ {name t}, (name, t) ∈ es.toList →
      (Spared hash (t.inner report path) (t.inner (fun _ => true) path) ↔
        t.NoLookalike hash report path)
  | .nil, _, _, _, h => by cases h
  | .cons n u es, ⟨_, _, hu, hes⟩, name, t, h => by
    rcases List.mem_cons.mp h with he | h
    · obtain ⟨rfl, rfl⟩ := Prod.mk.inj he
      exact Tree.spared_iff t hu
    · exact Entries.spared_iff_mem es hes h
end

/-- The name that a call makes or removes in a destination directory. -/
def madeOrRemoved : Call → Option String
  | .unlinkat _ name | .symlinkat _ _ name => some name
  | .openat _ name flags _ => if .creat ∈ flags then some name else none
  | _ => none

/-- Different visits use different temporary paths, and none of them is the path of an entry;
so what a visit makes and removes in the directory of its entry is no entry. -/
structure PartialsApart (hash : String → UInt64) (F G : Multiset Visit) : Prop where
  distinct : ∀ v ∈ F, v.isDir = false → ∀ u ∈ F, u.isDir = false →
    v ≠ u → partialPath hash v.path ≠ partialPath hash u.path
  spared : Spared hash F G
  untouched : ∀ v ∈ F, v.isDir = false → ∀ dir name, v.path = child dir name → LegalName name →
    ∀ minBlockSize maxBlockSize src dst,
      (processNonDir (hashedOpts hash minBlockSize maxBlockSize) v.path src dst).Ensures
        (fun c => ∀ n ∈ madeOrRemoved c, ∀ u ∈ G, child dir n ≠ u.path) fun _ => True

theorem madeOrRemoved_partialPath {path tmp n : String} {dst : FDRCRef} {c : Call}
    (h : NonDirCall path tmp dst c) (hn : n ∈ madeOrRemoved c) : n = baseName tmp := by
  cases c with
  | unlinkat dir name =>
    obtain rfl := Option.some.inj hn
    exact h.2
  | symlinkat target dir name =>
    obtain rfl := Option.some.inj hn
    exact h.2
  | openat dir name flags mode =>
    obtain ⟨hflags, hn⟩ := Option.ite_none_right_eq_some.mp hn
    obtain rfl := Option.some.inj hn
    exact (h hflags).2
  | _ => cases hn

theorem untouched_of_spared {hash : String → UInt64} {F G : Multiset Visit}
    (h : Spared hash F G) {v : Visit} (hv : v ∈ F) (hdir : v.isDir = false) {dir name : String}
    (hpath : v.path = child dir name) (hn : LegalName name) (minBlockSize maxBlockSize : ℕ)
    (src dst : FDRCRef) :
    (processNonDir (hashedOpts hash minBlockSize maxBlockSize) v.path src dst).Ensures
      (fun c => ∀ n ∈ madeOrRemoved c, ∀ u ∈ G, child dir n ≠ u.path) fun _ => True := by
  refine processNonDir_calls.weaken fun c hc n hmem u hu => ?_
  have htmp : partialPath hash v.path = child dir (name ++ suffixBuf hash v.path) := by
    rw [hpath]
    exact partialPath_child
  have hbase : baseName (partialPath hash v.path) = name ++ suffixBuf hash v.path := by
    rw [htmp]
    exact baseName_child (legal_partialPath hn)
  rw [madeOrRemoved_partialPath hc hmem]
  change child dir (baseName (partialPath hash v.path)) ≠ u.path
  rw [hbase, ← htmp]
  exact h v hv hdir u hu

/-- Whatever the hash and the source tree, the temporary files stay apart from each other
and from the entries exactly if no directory that is crawled has an entry that looks like the
temporary file of another one. -/
theorem partials_apart {hash : String → UInt64} {report : String → Bool} {es : Entries α}
    (hl : es.Legal) : PartialsApart hash (es.visits report ".") (es.all ".") ↔
      es.NoLookalike hash report "." es.names := by
  have hspared : Spared hash (es.visits report ".") (es.all ".") ↔
      es.NoLookalike hash report "." es.names := by
    rw [es.spared_iff_forall hl, Entries.noLookalike_iff]
    refine forall₃_congr fun name t hmem => and_congr_right fun _ => ?_
    exact t.spared_iff (Entries.legal_of_mem hl hmem).2
  rw [← hspared]
  refine ⟨fun h => h.spared, fun h => ⟨fun v hv hvdir u hu hudir hne he => ?_, h,
    fun v hv hdir dir name hpath hn => untouched_of_spared h hv hdir hpath hn⟩⟩
  refine hne ?_
  have hpath := partialPath_injective he
  cases v with
  | dir path => cases hvdir
  | nonDir path =>
    cases u with
    | dir path => cases hudir
    | nonDir path' => exact congrArg Visit.nonDir hpath

/-- A file, and a file that an interrupted copy of it has left in the source. -/
def lookalikeTree : Entries Unit :=
  .cons "a" (.leaf ()) (.cons "a0000000000000000.partial" (.leaf ()) .nil)

def plainTree : Entries Unit :=
  .cons "a" (.leaf ()) (.cons "b" (.leaf ())
    (.cons "d" (.dir () (.cons "a" (.leaf ()) (.cons "b" (.leaf ()) .nil))) .nil))

theorem plainTree_legal : plainTree.Legal :=
  ⟨⟨by decide, by decide⟩, by decide, trivial, ⟨by decide, by decide⟩, by decide, trivial,
    ⟨by decide, by decide⟩, by decide,
    ⟨⟨by decide, by decide⟩, by decide, trivial, ⟨by decide, by decide⟩, by decide, trivial, trivial⟩,
    trivial⟩

theorem partials_apart_sample :
    PartialsApart (fun _ => 0) (plainTree.visits (fun _ => true) ".") (plainTree.all ".") :=
  (partials_apart plainTree_legal).mpr
    ⟨fun _ => by decide, trivial, fun _ => by decide, trivial, fun _ => by decide,
      fun _ => ⟨fun _ => by decide, trivial, fun _ => by decide, trivial, trivial⟩, trivial⟩

/-- The temporary file of the one is the other. -/
theorem partials_collide : lookalikeTree.Legal ∧ ¬ PartialsApart (fun _ => 0)
    (lookalikeTree.visits (fun _ => true) ".") (lookalikeTree.all ".") := by
  refine ⟨⟨⟨by decide, by decide⟩, by decide, trivial, ⟨by decide, by decide⟩, by decide, trivial,
    trivial⟩, fun h => ?_⟩
  refine h.spared (.nonDir "./a") ?_ rfl (.nonDir "./a0000000000000000.partial") ?_ ?_
  · decide
  · decide
  · decide

end Copy2.Crawl
