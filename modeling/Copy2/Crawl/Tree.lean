import Copy2.Crawl.ProcessDir
import Mathlib.Algebra.BigOperators.Group.Multiset.Basic

/-! # Source trees

A finite tree of directories and other entries, and the visits that it asks for: one for
every entry, under the path that spells where it is. -/
namespace Copy2.Crawl
open FileJob Lib Os

variable {α : Type}

mutual
inductive Tree (α : Type)
  | leaf (a : α)
  | dir (a : α) (es : Entries α)

inductive Entries (α : Type)
  | nil
  | cons (name : String) (t : Tree α) (es : Entries α)
end

def Tree.isDir : Tree α → Bool
  | .leaf _ => false
  | .dir .. => true

namespace Entries

def toList : Entries α → List (String × Tree α)
  | nil => []
  | cons name t es => (name, t) :: es.toList

def names (es : Entries α) : List String := es.toList.map Prod.fst

def find (name : String) : Entries α → Option (Tree α)
  | nil => none
  | cons n t es => if n = name then some t else es.find name

end Entries

structure LegalName (name : String) : Prop where
  notDot : isDot name = false
  noSlash : '/' ∉ name.toList

mutual
/-- Entries have legal names, and those of one directory have different ones. -/
def Tree.Legal : Tree α → Prop
  | .leaf _ => True
  | .dir _ es => es.Legal

def Entries.Legal : Entries α → Prop
  | .nil => True
  | .cons name t es => LegalName name ∧ name ∉ es.names ∧ t.Legal ∧ es.Legal
end

/-- A call of `processDir` or of `processNonDir`. -/
inductive Visit
  | dir (path : String)
  | nonDir (path : String)
deriving DecidableEq, Repr

def Visit.path : Visit → String
  | dir path | nonDir path => path

mutual
/-- The visits of an entry and of all below it, when `readdir` reports the type of those
directories only of which `report` says so. -/
def Tree.visits (report : String → Bool) (path : String) : Tree α → Multiset Visit
  | .leaf _ => {.nonDir path}
  | .dir _ es => if report path then {.dir path} + es.visits report path else {.nonDir path}

def Entries.visits (report : String → Bool) (path : String) : Entries α → Multiset Visit
  | .nil => 0
  | .cons name t es => t.visits report (child path name) + es.visits report path
end

mutual
def Tree.Reported (report : String → Bool) (path : String) : Tree α → Prop
  | .leaf _ => True
  | .dir _ es => report path = true ∧ es.Reported report path

def Entries.Reported (report : String → Bool) (path : String) : Entries α → Prop
  | .nil => True
  | .cons name t es => t.Reported report (child path name) ∧ es.Reported report path
end

/-- One visit for every entry of the directory and for all below. -/
def Entries.all (path : String) (es : Entries α) : Multiset Visit := es.visits (fun _ => true) path

namespace Entries

theorem listInduction {motive : Entries α → Prop} (nil : motive .nil)
    (cons : ∀ name t es, motive es → motive (.cons name t es)) : ∀ es, motive es
  | .nil => nil
  | .cons name t es => cons name t es (listInduction nil cons es)

theorem find_of_mem {name : String} {t : Tree α} {es : Entries α} (hl : es.Legal)
    (h : (name, t) ∈ es.toList) : es.find name = some t := by
  induction es using listInduction with
  | nil => cases h
  | cons n u es ih =>
    obtain ⟨-, hnew, -, hes⟩ := hl
    rw [find]
    rcases List.mem_cons.mp h with he | h
    · obtain ⟨rfl, rfl⟩ := Prod.mk.inj he
      rw [if_pos rfl]
    · rw [if_neg, ih hes h]
      rintro rfl
      exact hnew (List.mem_map.mpr ⟨_, h, rfl⟩)

theorem legal_of_mem {name : String} {t : Tree α} {es : Entries α} (hl : es.Legal)
    (h : (name, t) ∈ es.toList) : LegalName name ∧ t.Legal := by
  induction es using listInduction with
  | nil => cases h
  | cons n u es ih =>
    obtain ⟨hn, -, hu, hes⟩ := hl
    rcases List.mem_cons.mp h with he | h
    · obtain ⟨rfl, rfl⟩ := Prod.mk.inj he
      exact ⟨hn, hu⟩
    · exact ih hes h

theorem visits_eq_sum (report : String → Bool) (path : String) (es : Entries α) :
    es.visits report path =
      (es.toList.map fun x => x.2.visits report (child path x.1)).sum := by
  induction es using listInduction with
  | nil => rfl
  | cons n t es ih => rw [visits, ih]; rfl

theorem mem_visits {report : String → Bool} {path : String} {es : Entries α} {v : Visit} :
    v ∈ es.visits report path ↔
      ∃ name t, (name, t) ∈ es.toList ∧ v ∈ t.visits report (child path name) := by
  induction es using listInduction with
  | nil => simp [visits, toList]
  | cons n t es ih =>
    rw [visits, Multiset.mem_add, ih]
    constructor
    · rintro (h | ⟨name, u, hu, h⟩)
      · exact ⟨n, t, List.mem_cons_self, h⟩
      · exact ⟨name, u, List.mem_cons_of_mem _ hu, h⟩
    · rintro ⟨name, u, hu, h⟩
      rcases List.mem_cons.mp hu with he | hu
      · obtain ⟨rfl, rfl⟩ := Prod.mk.inj he
        exact .inl h
      · exact .inr ⟨name, u, hu, h⟩

end Entries

theorem toList_child (path name : String) :
    (child path name).toList = path.toList ++ '/' :: name.toList := by
  simp [child]

/-- The path is `p`, or leads on from there. -/
def Under (p q : String) : Prop :=
  ∃ s : List Char, q.toList = p.toList ++ s ∧ (s = [] ∨ s.head? = some '/')

theorem Under.refl (p : String) : Under p p := ⟨[], by simp, .inl rfl⟩

theorem Under.of_child {p name q : String} (h : Under (child p name) q) : Under p q := by
  obtain ⟨s, hq, -⟩ := h
  exact ⟨'/' :: (name.toList ++ s), by simp [hq, toList_child], .inr rfl⟩

theorem Under.ne {p name q : String} (h : Under (child p name) q) : q ≠ p := by
  rintro rfl
  obtain ⟨s, hq, -⟩ := h
  have := congrArg List.length hq
  simp [toList_child] at this

theorem takeWhile_name {name s : List Char} (hname : '/' ∉ name)
    (hs : s = [] ∨ s.head? = some '/') : (name ++ s).takeWhile (· ≠ '/') = name := by
  have hall : ∀ c ∈ name, decide (c ≠ '/') = true := fun c hc => by
    simpa using fun he : c = '/' => hname (he ▸ hc)
  rw [List.takeWhile_append_of_pos hall]
  cases s with
  | nil => simp
  | cons c s =>
    obtain rfl : c = '/' := by simpa using hs
    simp

/-- No path leads through two entries of one directory. -/
theorem Under.name_eq {p name name' q : String} (hn : LegalName name) (hn' : LegalName name')
    (h : Under (child p name) q) (h' : Under (child p name') q) : name = name' := by
  obtain ⟨s, hq, hs⟩ := h
  obtain ⟨s', hq', hs'⟩ := h'
  rw [hq, toList_child, toList_child, List.append_assoc, List.append_assoc,
    List.append_cancel_left_eq, List.cons_append, List.cons_append, List.cons.injEq] at hq'
  have := congrArg (List.takeWhile (· ≠ '/')) hq'.2
  rw [takeWhile_name hn.noSlash hs, takeWhile_name hn'.noSlash hs'] at this
  exact String.toList_inj.mp this

theorem baseName_child {path name : String} (h : LegalName name) :
    baseName (child path name) = name := by
  have hrev : (child path name).toList.reverse = name.toList.reverse ++ '/' :: path.toList.reverse := by
    simp [toList_child]
  rw [← String.toList_inj, baseName, String.toList_ofList, hrev,
    takeWhile_name (by simpa using h.noSlash) (.inr rfl), List.reverse_reverse]

mutual
theorem Tree.under_of_mem {report : String → Bool} {path : String} {v : Visit} :
    (t : Tree α) → v ∈ t.visits report path → Under path v.path
  | .leaf _, h => by
    rw [Tree.visits, Multiset.mem_singleton] at h
    exact h ▸ Under.refl path
  | .dir _ es, h => by
    rw [Tree.visits] at h
    split at h
    · rcases Multiset.mem_add.mp h with h | h
      · rw [Multiset.mem_singleton] at h
        exact h ▸ Under.refl path
      · obtain ⟨name, hv⟩ := Entries.under_of_mem es h
        exact hv.of_child
    · rw [Multiset.mem_singleton] at h
      exact h ▸ Under.refl path

theorem Entries.under_of_mem {report : String → Bool} {path : String} {v : Visit} :
    (es : Entries α) → v ∈ es.visits report path → ∃ name, Under (child path name) v.path
  | .nil, h => by simp [Entries.visits] at h
  | .cons name t es, h => by
    rw [Entries.visits] at h
    rcases Multiset.mem_add.mp h with h | h
    · exact ⟨name, Tree.under_of_mem t h⟩
    · exact Entries.under_of_mem es h
end

mutual
/-- Different entries are visited under different paths. -/
theorem Tree.nodup_visits {report : String → Bool} {path : String} :
    (t : Tree α) → t.Legal → (t.visits report path).Nodup
  | .leaf _, _ => Multiset.nodup_singleton _
  | .dir _ es, hl => by
    rw [Tree.visits]
    split
    · rw [Multiset.singleton_add, Multiset.nodup_cons]
      refine ⟨fun h => ?_, Entries.nodup_visits es hl⟩
      obtain ⟨name, hv⟩ := Entries.under_of_mem es h
      exact hv.ne rfl
    · exact Multiset.nodup_singleton _

theorem Entries.nodup_visits {report : String → Bool} {path : String} :
    (es : Entries α) → es.Legal → (es.visits report path).Nodup
  | .nil, _ => Multiset.nodup_zero
  | .cons name t es, ⟨hn, hnew, ht, hes⟩ => by
    rw [Entries.visits, Multiset.nodup_add]
    refine ⟨Tree.nodup_visits t ht, Entries.nodup_visits es hes,
      Multiset.disjoint_left.mpr fun hv hv' => ?_⟩
    obtain ⟨name', u, hu, hv'⟩ := Entries.mem_visits.mp hv'
    have heq := (Tree.under_of_mem t hv).name_eq hn (Entries.legal_of_mem hes hu).1
      (Tree.under_of_mem u hv')
    exact hnew (List.mem_map.mpr ⟨_, hu, heq.symm⟩)
end

mutual
theorem Tree.notDot {report : String → Bool} {path : String} {v : Visit} : (t : Tree α) →
    t.Legal → isDot (baseName path) = false → v ∈ t.visits report path →
      isDot (baseName v.path) = false
  | .leaf _, _, hp, h => by
    rw [Tree.visits, Multiset.mem_singleton] at h
    exact h ▸ hp
  | .dir _ es, hl, hp, h => by
    rw [Tree.visits] at h
    split at h
    · rcases Multiset.mem_add.mp h with h | h
      · rw [Multiset.mem_singleton] at h
        exact h ▸ hp
      · exact Entries.notDot es hl h
    · rw [Multiset.mem_singleton] at h
      exact h ▸ hp

/-- '.' and '..' are not visited. -/
theorem Entries.notDot {report : String → Bool} {path : String} {v : Visit} : (es : Entries α) →
    es.Legal → v ∈ es.visits report path → isDot (baseName v.path) = false
  | .nil, _, h => by simp [Entries.visits] at h
  | .cons name t es, ⟨hn, _, ht, hes⟩, h => by
    rw [Entries.visits] at h
    rcases Multiset.mem_add.mp h with h | h
    · exact Tree.notDot t ht ((baseName_child hn).symm ▸ hn.notDot) h
    · exact Entries.notDot es hes h
end

def Visit.isDir : Visit → Bool
  | dir _ => true
  | nonDir _ => false

def dirs (F : Multiset Visit) : ℕ := F.countP fun v => v.isDir = true

theorem dirs_add (F G : Multiset Visit) : dirs (F + G) = dirs F + dirs G :=
  Multiset.countP_add _ F G

theorem dirs_dir (path : String) : dirs {.dir path} = 1 := rfl

theorem dirs_nonDir (path : String) : dirs {.nonDir path} = 0 := rfl

mutual
theorem Tree.visits_of_reported {report : String → Bool} {path : String} :
    (t : Tree α) → t.Reported report path →
      t.visits report path = t.visits (fun _ => true) path
  | .leaf _, _ => rfl
  | .dir _ es, ⟨hr, hes⟩ => by
    rw [Tree.visits, Tree.visits, if_pos hr, if_pos rfl, Entries.visits_of_reported es hes,
      Entries.all]

theorem Entries.visits_of_reported {report : String → Bool} {path : String} :
    (es : Entries α) → es.Reported report path → es.visits report path = es.all path
  | .nil, _ => rfl
  | .cons name t es, ⟨ht, hes⟩ => by
    rw [Entries.all, Entries.visits, Entries.visits, Tree.visits_of_reported t ht,
      Entries.visits_of_reported es hes, Entries.all]
end

mutual
theorem Tree.dirs_le {report : String → Bool} {path : String} : (t : Tree α) →
    dirs (t.visits report path) ≤ dirs (t.visits (fun _ => true) path)
  | .leaf _ => le_rfl
  | .dir _ es => by
    rw [Tree.visits, Tree.visits, if_pos rfl]
    split
    · rw [dirs_add, dirs_add]
      exact Nat.add_le_add_left (Entries.dirs_le es) _
    · rw [dirs_nonDir]
      exact Nat.zero_le _

theorem Entries.dirs_le {report : String → Bool} {path : String} : (es : Entries α) →
    dirs (es.visits report path) ≤ dirs (es.all path)
  | .nil => le_rfl
  | .cons name t es => by
    rw [Entries.all, Entries.visits, Entries.visits, dirs_add, dirs_add]
    exact Nat.add_le_add (Tree.dirs_le t) (Entries.dirs_le es)
end

mutual
/-- A directory whose type is not reported is not visited as one. -/
theorem Tree.reported_of_dirs {report : String → Bool} {path : String} : (t : Tree α) →
    dirs (t.visits (fun _ => true) path) ≤ dirs (t.visits report path) →
      t.Reported report path
  | .leaf _, _ => trivial
  | .dir _ es, h => by
    rw [Tree.visits, Tree.visits, if_pos rfl] at h
    cases hr : report path with
    | true =>
      rw [hr, if_pos rfl, dirs_add, dirs_add] at h
      exact ⟨hr, Entries.reported_of_dirs es (Nat.le_of_add_le_add_left h)⟩
    | false =>
      rw [hr, if_neg (by simp), dirs_add, dirs_dir, dirs_nonDir] at h
      omega

theorem Entries.reported_of_dirs {report : String → Bool} {path : String} : (es : Entries α) →
    dirs (es.all path) ≤ dirs (es.visits report path) → es.Reported report path
  | .nil, _ => trivial
  | .cons name t es, h => by
    rw [Entries.all, Entries.visits, Entries.visits, dirs_add, dirs_add] at h
    have ht : dirs (t.visits report (child path name)) ≤
      dirs (t.visits (fun _ => true) (child path name)) := Tree.dirs_le t
    have hes : dirs (es.visits report path) ≤ dirs (es.all path) := Entries.dirs_le es
    rw [Entries.all] at hes
    exact ⟨Tree.reported_of_dirs t (by omega), Entries.reported_of_dirs es
      (by rw [Entries.all]; omega)⟩
end

theorem Entries.visits_eq_all_iff {report : String → Bool} {path : String} {es : Entries α} :
    es.visits report path = es.all path ↔ es.Reported report path :=
  ⟨fun h => es.reported_of_dirs (by rw [h]), es.visits_of_reported⟩

end Copy2.Crawl
