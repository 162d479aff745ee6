import Copy2.Lib.ReadThrough

/-! # The two link tables on disk and in memory

Each table has a cache in memory in front of its pages in the environment; the two share
the environment and its one write transaction. Pairs reach the pages when a cache is
flushed, which commits at once; a deletion changes the pages and is committed by the next
flush. All calls are made under the state lock, so they come one after the other. -/
namespace Copy2.HLink.Cache
open Lib

inductive Table
  | forwardTable
  | revTable
deriving DecidableEq, Repr

abbrev Pages (υ : Type) := Table → UInt64 → Option υ

/-- The handles of transactions that are not read-only: all of them are the one write
transaction of the environment. -/
inductive MDBTxn
  | me_txn0
deriving DecidableEq, Repr

/-- The last committed state, and the pages as the write transaction has them. -/
structure MDBEnv (υ : Type) where
  committed : Pages υ := fun _ _ => none
  me_txn0 : Pages υ := fun _ _ => none

namespace MDBEnv
variable {υ : Type} (env : MDBEnv υ)

def view : MDBTxn → Pages υ
  | .me_txn0 => env.me_txn0

/-- Without `MDB_RDONLY` the write transaction is used again, and loaded anew. -/
def mdbTxnBegin : MDBEnv υ × MDBTxn := ({ env with me_txn0 := env.committed }, .me_txn0)

def mdbTxnCommit (txn : MDBTxn) : MDBEnv υ := { env with committed := env.view txn }

/-- Neither does anything to a write transaction. -/
def mdbTxnReset (_ : MDBTxn) : MDBEnv υ := env

def mdbTxnRenew (_ : MDBTxn) : MDBEnv υ := env

def mdbGet (txn : MDBTxn) (dbi : Table) (k : UInt64) : Option υ := env.view txn dbi k

def setPages (dbi : Table) (pages : UInt64 → Option υ) : MDBTxn → MDBEnv υ
  | .me_txn0 => { env with me_txn0 := Function.update env.me_txn0 dbi pages }

def mdbPut (txn : MDBTxn) (dbi : Table) (k : UInt64) (v : υ) : MDBEnv υ :=
  env.setPages dbi (Function.update (env.view txn dbi) k (some v)) txn

def mdbDel (txn : MDBTxn) (dbi : Table) (k : UInt64) : MDBEnv υ :=
  env.setPages dbi (Function.update (env.view txn dbi) k none) txn

end MDBEnv

/-- The part of `HLinkState` behind the state lock. -/
structure HLinkState (υ : Type) where
  env : MDBEnv υ
  maxTableCacheSize : ℕ
  tableCache : Table → AList fun _ : UInt64 => υ
  wrTxn : MDBTxn
  rdTxns : AList fun _ : ℤ => MDBTxn

namespace HLinkState
variable {υ : Type} (state : HLinkState υ)

def resetRDOnlyTxns : HLinkState υ :=
  let env := state.rdTxns.entries.foldl
    (fun env e => (env.mdbTxnReset e.2).mdbTxnRenew e.2) state.env
  { state with env }

def readPair (txn : MDBTxn) (dbi : Table) (k : UInt64) : Option υ :=
  match (state.tableCache dbi).lookup k with
  | some v => some v
  | none => state.env.mdbGet txn dbi k

def flushCache (dbi : Table) : HLinkState υ :=
  let env := (state.tableCache dbi).entries.foldl
    (fun env e => env.mdbPut state.wrTxn dbi e.1 e.2) state.env
  let (env, wrTxn) := (env.mdbTxnCommit state.wrTxn).mdbTxnBegin
  let state := ({ state with env, wrTxn } : HLinkState υ).resetRDOnlyTxns
  { state with tableCache := Function.update state.tableCache dbi ∅ }

def writePair (dbi : Table) (k : UInt64) (v : υ) : HLinkState υ :=
  let cache := (state.tableCache dbi).insert k v
  let state := { state with tableCache := Function.update state.tableCache dbi cache }
  if state.maxTableCacheSize ≤ cache.entries.length then state.flushCache dbi else state

def deletePair (dbi : Table) (k : UInt64) : HLinkState υ :=
  let cache := (state.tableCache dbi).erase k
  let state := { state with tableCache := Function.update state.tableCache dbi cache }
  let env := state.env.mdbDel state.wrTxn dbi k
  ({ state with env } : HLinkState υ).resetRDOnlyTxns

/-- A thread that has no transaction begins one. -/
def getRDOnlyTxn (thread : ℤ) : MDBTxn × HLinkState υ :=
  match state.rdTxns.lookup thread with
  | some txn => (txn, state)
  | none =>
    let (env, txn) := state.env.mdbTxnBegin
    (txn, { state with env, rdTxns := state.rdTxns.insert thread txn })

end HLinkState

/-- `createHLinkState`: both tables are there and empty. -/
def createHLinkState (υ : Type) (maxTableCacheSize : ℕ) : HLinkState υ where
  env := {}
  maxTableCacheSize
  tableCache _ := ∅
  wrTxn := .me_txn0
  rdTxns := ∅

inductive Op (υ : Type)
  | writePair (dbi : Table) (k : UInt64) (v : υ)
  | deletePair (dbi : Table) (k : UInt64)
  | getRDOnlyTxn (thread : ℤ)
deriving DecidableEq, Repr

section Runs
variable {υ : Type}

def HLinkState.step (state : HLinkState υ) : Op υ → HLinkState υ
  | .writePair dbi k v => state.writePair dbi k v
  | .deletePair dbi k => state.deletePair dbi k
  | .getRDOnlyTxn thread => (state.getRDOnlyTxn thread).2

def run (maxTableCacheSize : ℕ) (ops : List (Op υ)) : HLinkState υ :=
  ops.foldl HLinkState.step (createHLinkState υ maxTableCacheSize)

/-- What the table is for: the last pair written under a key, unless the key was deleted
after that. -/
def lastWritten (ops : List (Op υ)) : Pages υ :=
  ops.foldl (fun m op => match op with
    | .writePair dbi k v => Function.update m dbi (Function.update (m dbi) k (some v))
    | .deletePair dbi k => Function.update m dbi (Function.update (m dbi) k none)
    | .getRDOnlyTxn _ => m) fun _ _ => none

/-- Whoever reads, under whatever handle, reads what was last written. -/
def ReadsLastWritten (state : HLinkState υ) (m : Pages υ) : Prop :=
  ∀ txn, (txn = state.wrTxn ∨ ∃ thread, state.rdTxns.lookup thread = some txn) →
    ∀ dbi k, state.readPair txn dbi k = m dbi k

/-- No committed pair has been deleted, unless the key is in the cache again. -/
def Settled (state : HLinkState υ) : Prop :=
  ∀ dbi k, (state.tableCache dbi).lookup k = none → state.env.me_txn0 dbi k = none →
    state.env.committed dbi k = none

/-- Threads begin their transactions in settled states only. -/
def BeginsSettled (maxTableCacheSize : ℕ) (ops : List (Op υ)) : Prop :=
  ∀ l thread, l ++ [.getRDOnlyTxn thread] <+: ops →
    (run maxTableCacheSize l).rdTxns.lookup thread = none → Settled (run maxTableCacheSize l)

section Calls
variable {state : HLinkState υ} {dbi : Table} {k : UInt64} {v : υ}

theorem HLinkState.resetRDOnlyTxns_eq : state.resetRDOnlyTxns = state := by
  have hfold : ∀ l : List (Σ _ : ℤ, MDBTxn), l.foldl
      (fun (env : MDBEnv υ) e => (env.mdbTxnReset e.2).mdbTxnRenew e.2) state.env = state.env := by
    intro l
    induction l with
    | nil => rfl
    | cons e l ih => exact ih
  rw [resetRDOnlyTxns, hfold]

/-- Putting pairs changes the pages of one table. -/
theorem foldl_mdbPut (l : List (Σ _ : UInt64, υ)) (env : MDBEnv υ) :
    l.foldl (fun env e => env.mdbPut .me_txn0 dbi e.1 e.2) env =
      { env with me_txn0 := Function.update env.me_txn0 dbi (putAll l (env.me_txn0 dbi)) } := by
  induction l generalizing env with
  | nil => simp [putAll]
  | cons e l ih =>
    rw [List.foldl_cons, ih]
    simp [MDBEnv.mdbPut, MDBEnv.setPages, MDBEnv.view, putAll]

/-- A flush commits the pages with the cache written into them. -/
theorem HLinkState.flushCache_eq : state.flushCache dbi =
    let pages := Function.update state.env.me_txn0 dbi
      (readThrough (state.tableCache dbi) (state.env.me_txn0 dbi))
    { state with
      env := ⟨pages, pages⟩
      tableCache := Function.update state.tableCache dbi ∅ } := by
  obtain ⟨env, size, cache, ⟨⟩, rdTxns⟩ := state
  rw [flushCache]
  dsimp only
  rw [foldl_mdbPut, resetRDOnlyTxns_eq, putAll_eq_readThrough]
  rfl

theorem HLinkState.deletePair_eq : state.deletePair dbi k =
    let pages := Function.update state.env.me_txn0 dbi
      (Function.update (state.env.me_txn0 dbi) k none)
    { state with
      env := { state.env with me_txn0 := pages }
      tableCache := Function.update state.tableCache dbi ((state.tableCache dbi).erase k) } := by
  obtain ⟨env, size, cache, ⟨⟩, rdTxns⟩ := state
  rw [deletePair, resetRDOnlyTxns_eq]
  rfl

theorem HLinkState.readPair_eq (txn : MDBTxn) :
    state.readPair txn dbi k = readThrough (state.tableCache dbi) (state.env.me_txn0 dbi) k := by
  cases txn
  rfl

end Calls

/-- Cache and pages show the map, and all that is in the pages is committed: only
deletions wait for a commit. -/
structure Layered (state : HLinkState υ) (m : Pages υ) : Prop where
  shows : ∀ dbi, readThrough (state.tableCache dbi) (state.env.me_txn0 dbi) = m dbi
  committed : ∀ dbi k v, state.env.me_txn0 dbi k = some v → state.env.committed dbi k = some v

namespace Layered
variable {state : HLinkState υ} {m : Pages υ} {dbi : Table} {k : UInt64} {v : υ}

theorem reads (h : Layered state m) : ReadsLastWritten state m := fun txn _ dbi k => by
  rw [state.readPair_eq, h.shows]

theorem flushCache (h : Layered state m) (dbi : Table) : Layered (state.flushCache dbi) m := by
  rw [HLinkState.flushCache_eq]
  refine ⟨fun t => ?_, fun t k v hv => hv⟩
  dsimp only
  by_cases ht : t = dbi
  · subst ht
    rw [Function.update_self, Function.update_self, readThrough_empty, h.shows]
  · rw [Function.update_of_ne ht, Function.update_of_ne ht, h.shows]

theorem writePair (h : Layered state m) : Layered (state.writePair dbi k v)
    (Function.update m dbi (Function.update (m dbi) k (some v))) := by
  have hcached : Layered { state with
      tableCache := Function.update state.tableCache dbi ((state.tableCache dbi).insert k v) }
      (Function.update m dbi (Function.update (m dbi) k (some v))) := by
    refine ⟨fun t => ?_, h.committed⟩
    dsimp only
    by_cases ht : t = dbi
    · subst ht
      rw [Function.update_self, Function.update_self, readThrough_insert, h.shows]
    · rw [Function.update_of_ne ht, Function.update_of_ne ht, h.shows]
  rw [HLinkState.writePair]
  dsimp only
  split
  · exact hcached.flushCache dbi
  · exact hcached

theorem deletePair (h : Layered state m) : Layered (state.deletePair dbi k)
    (Function.update m dbi (Function.update (m dbi) k none)) := by
  rw [HLinkState.deletePair_eq]
  refine ⟨fun t => ?_, fun t j v hv => ?_⟩
  · dsimp only
    by_cases ht : t = dbi
    · subst ht
      rw [Function.update_self, Function.update_self, Function.update_self, readThrough_erase,
        h.shows]
    · rw [Function.update_of_ne ht, Function.update_of_ne ht, Function.update_of_ne ht, h.shows]
  · dsimp only at hv ⊢
    by_cases ht : t = dbi
    · subst ht
      rw [Function.update_self] at hv
      by_cases hj : j = k
      · simp [hj] at hv
      · rw [Function.update_of_ne hj] at hv
        exact h.committed t j v hv
    · rw [Function.update_of_ne ht] at hv
      exact h.committed t j v hv

/-- In a settled state a transaction begins with the pages as they are, where they show. -/
theorem getRDOnlyTxn (h : Layered state m) {thread : ℤ}
    (hs : state.rdTxns.lookup thread = none → Settled state) :
    Layered (state.getRDOnlyTxn thread).2 m := by
  rw [HLinkState.getRDOnlyTxn]
  cases hthread : state.rdTxns.lookup thread with
  | some txn => exact h
  | none =>
    refine ⟨fun dbi => ?_, fun dbi k v hv => hv⟩
    rw [← h.shows dbi]
    funext k
    dsimp only [MDBEnv.mdbTxnBegin]
    cases hcache : (state.tableCache dbi).lookup k with
    | some v => rw [readThrough_of_some hcache, readThrough_of_some hcache]
    | none =>
      rw [readThrough_of_none hcache, readThrough_of_none hcache]
      cases hpages : state.env.me_txn0 dbi k with
      | some v => exact h.committed dbi k v hpages
      | none => exact hs hthread dbi k hcache hpages

/-- Otherwise a deleted pair comes back. -/
theorem settled_of_reads (h : Layered state m) {thread : ℤ}
    (hthread : state.rdTxns.lookup thread = none)
    (hr : ReadsLastWritten (state.getRDOnlyTxn thread).2 m) : Settled state := by
  intro dbi k hcache hpages
  have hbefore : m dbi k = none := by rw [← h.shows, readThrough_of_none hcache, hpages]
  have hafter := hr .me_txn0 (.inl rfl) dbi k
  rw [HLinkState.readPair_eq, hbefore, HLinkState.getRDOnlyTxn, hthread] at hafter
  exact (readThrough_of_none hcache).symm.trans hafter

end Layered

section
variable {maxTableCacheSize : ℕ} {ops : List (Op υ)} {op : Op υ}

theorem run_snoc : run maxTableCacheSize (ops ++ [op]) = (run maxTableCacheSize ops).step op := by
  rw [run, List.foldl_append]
  rfl

theorem BeginsSettled.take (h : BeginsSettled maxTableCacheSize (ops ++ [op])) :
    BeginsSettled maxTableCacheSize ops :=
  fun l thread hl => h l thread (hl.trans (List.prefix_append ..))

theorem layered_of_beginsSettled (h : BeginsSettled maxTableCacheSize ops) :
    Layered (run maxTableCacheSize ops) (lastWritten ops) := by
  induction ops using List.reverseRecOn with
  | nil => exact ⟨fun dbi => readThrough_empty, fun dbi k v hv => by cases hv⟩
  | append_singleton ops op ih =>
    have hlayers := ih h.take
    rw [run_snoc, lastWritten, List.foldl_append, ← lastWritten]
    cases op with
    | writePair dbi k v => exact hlayers.writePair
    | deletePair dbi k => exact hlayers.deletePair
    | getRDOnlyTxn thread => exact hlayers.getRDOnlyTxn (h ops thread (List.prefix_refl _))

theorem beginsSettled_of_reads (h : ∀ l, l <+: ops →
      ReadsLastWritten (run maxTableCacheSize l) (lastWritten l)) :
    BeginsSettled maxTableCacheSize ops := by
  induction ops using List.reverseRecOn with
  | nil =>
    intro l thread hl
    exact absurd (List.prefix_nil.mp hl) (by simp)
  | append_singleton ops op ih =>
    have hops := ih fun l hl => h l (hl.trans (List.prefix_append ..))
    intro l thread hl hthread
    rcases List.prefix_concat_iff.mp hl with heq | hl
    · obtain ⟨rfl, hop⟩ := List.append_inj' heq rfl
      obtain rfl := List.singleton_inj.mp hop
      have hlast := h _ (List.prefix_refl _)
      rw [run_snoc, lastWritten, List.foldl_append, ← lastWritten] at hlast
      exact (layered_of_beginsSettled hops).settled_of_reads hthread hlast
    · exact hops l thread hl hthread

end

/-- Every read finds what was last written exactly if no thread begins its transaction
while a committed pair is deleted and not yet written again or committed. -/
theorem reads_last_written_iff (maxTableCacheSize : ℕ) (ops : List (Op υ)) :
    (∀ l, l <+: ops → ReadsLastWritten (run maxTableCacheSize l) (lastWritten l)) ↔
      BeginsSettled maxTableCacheSize ops :=
  ⟨beginsSettled_of_reads, fun h _ hl => (layered_of_beginsSettled fun l' thread hl' =>
    h l' thread (hl'.trans hl)).reads⟩

/-- A pair is written and flushed, and deleted; then a thread reads for the first time. -/
theorem deleted_pair_found : ¬ ∀ l, l <+: [Op.writePair .forwardTable 7 "record",
      .deletePair .forwardTable 7, .getRDOnlyTxn 1] →
    ReadsLastWritten (run 1 l) (lastWritten l) := by
  intro h
  have hread := h _ (List.prefix_refl _) .me_txn0 (.inl rfl) .forwardTable 7
  have hfound : (run 1 [Op.writePair .forwardTable 7 "record", .deletePair .forwardTable 7,
      .getRDOnlyTxn 1]).readPair .me_txn0 .forwardTable 7 = some "record" := rfl
  rw [hfound] at hread
  cases hread

end Runs
end Copy2.HLink.Cache
