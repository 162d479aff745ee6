import Copy2.Memory.BuddyRuns
import Copy2.Memory.Layout

/-! # Runs of the allocator

The threads allocate and free through all arenas together. `AllocatorAllocate` asks the arena of
the thread under the lock of that arena, and the main and the disk arena under another lock: the
two sections are calls of their own, and calls of the threads come in any order. -/
namespace Copy2.Memory
open Copy2.Lib Lib.BinaryTree

abbrev Heaps := Buddy → Embedded

/-- A section under a lock. -/
inductive Section
  | allocateSub (tid len : ℕ)
  | allocateRest (len : ℕ)
  | free (ptr : ℕ)
deriving DecidableEq, Repr

def Section.len : Section → ℕ
  | .allocateSub _ len | .allocateRest len => len
  | .free _ => 0

/-- What `buddy_calloc` gives for one member of a length. -/
def Heaps.answer (heaps : Heaps) (len : ℕ) (b : Buddy) : Option ℕ := ((heaps b).malloc len).2

/-- The allocator that answered has marked the slot; those that did not are unchanged. -/
def Heaps.take (heaps : Heaps) (len : ℕ) : Option (Buddy × ℕ) → Heaps
  | some (b, _) => Function.update heaps b ((heaps b).malloc len).1
  | none => heaps

def Heaps.give (ptr : ℕ) (heaps : Heaps) (b : Buddy) : Heaps :=
  Function.update heaps b ((heaps b).free ptr)

namespace Allocator
variable (alloc : Allocator)

/-- What the sections of `AllocatorAllocate` find: the arena of the thread, and the others. -/
def found (heaps : Heaps) : Section → Option (Buddy × ℕ)
  | .allocateSub tid len =>
    if alloc.nSubAllocators ≠ 0
    then request (heaps.answer len) (alloc.subAllocator (tid % alloc.nSubAllocators)) else none
  | .allocateRest len =>
    (request (heaps.answer len) (alloc.memAlloc.bind alloc.buddyAt)).or
      (request (heaps.answer len) (alloc.diskAlloc.bind alloc.buddyAt))
  | .free _ => none

def serve (heaps : Heaps) : Section → Heaps
  | .allocateSub tid len => heaps.take len (alloc.found heaps (.allocateSub tid len))
  | .allocateRest len => heaps.take len (alloc.found heaps (.allocateRest len))
  | .free ptr => (alloc.allocatorFree ptr).foldl (Heaps.give ptr) heaps

def liveAfter (heaps : Heaps) (live : ℕ → Option ℕ) (c : Section) : ℕ → Option ℕ :=
  match c with
  | .free ptr => Function.update live ptr none
  | .allocateSub _ len | .allocateRest len =>
    match alloc.found heaps c with
    | some (b, ptr) => Function.update live ptr (some (b.slotSize len))
    | none => live

/-- Any thread may enter any section at any time. The start is the state in which the arenas are
embedded. The record of the allocator and the locks, for which `createAllocator` then calls
`buddy_calloc` itself, are not in it: in a run of the program the first calls of `allocateRest`
find them, and they are never freed. -/
def runs : TransitionSystem Heaps Section where
  init heaps := heaps = Buddy.init
  next heaps c := some (alloc.serve heaps c)

def recordedRuns : TransitionSystem (Heaps × (ℕ → Option ℕ)) Section :=
  alloc.runs.observe (fun _ => none) fun heaps c live => alloc.liveAfter heaps live c

/-- The two sections one after the other are `AllocatorAllocate`. -/
theorem allocatorAllocate_found (heaps : Heaps) (tid len : ℕ) :
    alloc.allocatorAllocate tid (heaps.answer len) =
      (alloc.found heaps (.allocateSub tid len)).or (alloc.found heaps (.allocateRest len)) := by
  rw [allocatorAllocate, found, found, Option.or_assoc]

def asks : Section → List Buddy
  | .allocateSub tid _ =>
    if alloc.nSubAllocators ≠ 0 then (alloc.subAllocator (tid % alloc.nSubAllocators)).toList
    else []
  | .allocateRest _ =>
    (alloc.memAlloc.bind alloc.buddyAt).toList ++ (alloc.diskAlloc.bind alloc.buddyAt).toList
  | .free _ => []

def Asked (b : Buddy) : Prop :=
  (∃ i < alloc.nSubAllocators, alloc.subAllocator i = some b) ∨
    alloc.memAlloc.bind alloc.buddyAt = some b ∨ alloc.diskAlloc.bind alloc.buddyAt = some b

variable {alloc} {heaps : Heaps} {live : ℕ → Option ℕ} {copyBufferSize : ℕ}
variable {V : Buddy → ℕ → Bool} {b : Buddy} {c : Section} {p q k l len ptr tid : ℕ}

theorem Asked.mem (h : alloc.Asked b) (hs : alloc.Sound copyBufferSize) : b ∈ alloc.embedded := by
  rcases h with ⟨i, hi, hsub⟩ | hb | hb
  · obtain ⟨b', hb', hsub', -⟩ := hs.subAllocator_eq hi
    obtain rfl := Option.some_inj.mp (hsub.symm.trans hsub')
    exact hb'
  · obtain ⟨_, -, hb⟩ := Option.bind_eq_some_iff.mp hb
    exact (mem_of_buddyAt hb).1
  · obtain ⟨_, -, hb⟩ := Option.bind_eq_some_iff.mp hb
    exact (mem_of_buddyAt hb).1

theorem Asked.of_mem (h : b ∈ alloc.asks c) : alloc.Asked b := by
  cases c with
  | allocateSub tid len =>
    rw [asks] at h
    split at h
    · next hn =>
      exact .inl ⟨_, Nat.mod_lt _ (Nat.pos_of_ne_zero hn), Option.mem_toList.mp h⟩
    · cases h
  | allocateRest len =>
    rcases List.mem_append.mp h with h | h
    · exact .inr (.inl (Option.mem_toList.mp h))
    · exact .inr (.inr (Option.mem_toList.mp h))
  | free ptr => cases h

/-- The first allocator with an answer is the one that is found. -/
theorem found_eq : alloc.found heaps c =
    (alloc.asks c).findSome? fun b => (heaps.answer c.len b).map (b, ·) := by
  have hone : ∀ (len : ℕ) (o : Option Buddy), request (heaps.answer len) o =
      o.toList.findSome? fun b => (heaps.answer len b).map (b, ·) := fun len o => by
    cases o with
    | none => rfl
    | some b => rw [request, Option.bind_some, Option.toList_some, List.findSome?_singleton]
  cases c with
  | allocateSub tid len =>
    rw [found, asks]
    split
    · exact hone len _
    · rfl
  | allocateRest len => rw [found, asks, hone, hone, List.findSome?_append]; rfl
  | free ptr => rfl

theorem or_of_only {α : Type} {a : α} {o o' : Option α} (h : o = some a ∨ o = none)
    (ho : o = some a ∨ o' = some a) : o.or o' = some a := by
  rcases h with rfl | rfl
  · rfl
  · exact ho.resolve_left (Option.some_ne_none a).symm

/-- What an allocator that is asked takes goes back to it and to nobody else. -/
theorem Asked.filter_allocatorFree (h : alloc.Asked b) (hs : alloc.Sound copyBufferSize)
    (ha : b.accepts ptr = true) : (alloc.allocatorFree ptr).filter (·.accepts ptr) = [b] := by
  obtain ⟨-, hlo, hhi⟩ := of_decide_eq_true ha
  -- only this allocator has an answer
  obtain ⟨answer, hanswer⟩ : ∃ answer : Buddy → Option ℕ,
      answer = fun b' => if b' = b then some ptr else none := ⟨_, rfl⟩
  have hrange : ∀ b' p, answer b' = some p → b'.main ≤ p ∧ p < b'.main + b'.memorySize := by
    intro b' p hp
    rw [hanswer] at hp
    obtain ⟨hb, hp⟩ := Option.ite_none_right_eq_some.mp hp
    rw [hb, ← Option.some.inj hp]
    exact ⟨hlo, hhi⟩
  have hself : request answer (some b) = some (b, ptr) := by simp [request, hanswer]
  have honly : ∀ o, request answer o = some (b, ptr) ∨ request answer o = none := fun o => by
    cases o with
    | none => exact .inr rfl
    | some b' =>
      by_cases hb : b' = b
      · exact .inl (hb ▸ hself)
      · exact .inr (by simp [request, hanswer, hb])
  have hsub : ∀ tid, (if alloc.nSubAllocators ≠ 0
      then request answer (alloc.subAllocator (tid % alloc.nSubAllocators)) else none) =
        some (b, ptr) ∨
      (if alloc.nSubAllocators ≠ 0
        then request answer (alloc.subAllocator (tid % alloc.nSubAllocators)) else none) =
          none := fun tid => by
    split
    · exact honly _
    · exact .inr rfl
  obtain ⟨tid, halloc⟩ : ∃ tid, alloc.allocatorAllocate tid answer = some (b, ptr) := by
    rcases h with ⟨i, hi, hb⟩ | hb | hb
    · refine ⟨i, ?_⟩
      rw [allocatorAllocate, Option.or_assoc]
      refine or_of_only (hsub i) (.inl ?_)
      rw [if_pos (Nat.ne_zero_of_lt hi), Nat.mod_eq_of_lt hi, hb, hself]
    · refine ⟨0, ?_⟩
      rw [allocatorAllocate, Option.or_assoc]
      exact or_of_only (hsub 0) (.inr (or_of_only (honly _) (.inl (by rw [hb, hself]))))
    · refine ⟨0, ?_⟩
      rw [allocatorAllocate, Option.or_assoc]
      exact or_of_only (hsub 0) (.inr (or_of_only (honly _) (.inr (by rw [hb, hself]))))
  exact hs.filter_allocatorFree hrange halloc

def part (b : Buddy) (live : ℕ → Option ℕ) : ℕ → Option ℕ := fun q =>
  if b.accepts q then live q else none

theorem part_update_of_accepts {o : Option ℕ} (h : b.accepts ptr = true) :
    part b (Function.update live ptr o) = Function.update (part b live) ptr o := by
  funext q
  by_cases hq : q = ptr
  · rw [part, hq, if_pos h, Function.update_self, Function.update_self]
  · rw [part, Function.update_of_ne hq, Function.update_of_ne hq]
    rfl

theorem part_update_of_not_accepts {o : Option ℕ} (h : b.accepts ptr = false) :
    part b (Function.update live ptr o) = part b live := by
  funext q
  by_cases hq : q = ptr
  · rw [part, part, hq, h, if_neg Bool.false_ne_true, if_neg Bool.false_ne_true]
  · rw [part, part, Function.update_of_ne hq]

/-- An arena in which nothing starts at the pointer is left as it is. -/
theorem foldl_give_of_free (l : List Buddy) (hfree : (heaps b).free ptr = heaps b) :
    l.foldl (Heaps.give ptr) heaps b = heaps b := by
  induction l using List.reverseRecOn with
  | nil => rfl
  | append_singleton l d ih =>
    rw [List.foldl_append, List.foldl_cons, List.foldl_nil, Heaps.give]
    by_cases hbd : b = d
    · subst hbd
      rw [Function.update_self, ih, hfree]
    · rw [Function.update_of_ne hbd, ih]

structure Tracked (alloc : Allocator) (V : Buddy → ℕ → Bool) (heaps : Heaps)
    (live : ℕ → Option ℕ) : Prop where
  arenas : ∀ b ∈ alloc.embedded,
    (heaps b).buddy = b ∧ ∃ A, Tracks (heaps b) (V b) A (part b live)
  owned : ∀ q, live q ≠ none → ∃ b, alloc.Asked b ∧ b.accepts q = true

namespace Tracked
variable (h : alloc.Tracked V heaps live) (hs : alloc.Sound copyBufferSize)
include h

include hs in
/-- An arena that is asked answers with a block of its own. -/
theorem take (hb : alloc.Asked b) (hanswer : heaps.answer len b = some ptr) :
    alloc.Tracked V (heaps.take len (some (b, ptr)))
      (Function.update live ptr (some (b.slotSize len))) := by
  have hmem := hb.mem hs
  obtain ⟨hbuddy, A, hA⟩ := h.arenas b hmem
  obtain ⟨hbuddy', B, hB⟩ := hA.serve (.malloc len)
  have hlive : (heaps b).liveAfter (part b live) (.malloc len) =
      Function.update (part b live) ptr (some (b.slotSize len)) := by
    rw [Embedded.liveAfter, show ((heaps b).malloc len).2 = some ptr from hanswer, hbuddy]
  rw [hlive] at hB
  have hacc : b.accepts ptr = true := by
    have hself : Function.update (part b live) ptr (some (b.slotSize len)) ptr =
        some (b.slotSize len) := by rw [Function.update_self]
    have haccepts := hB.accepts_of_live hself
    rwa [hbuddy', hbuddy] at haccepts
  refine ⟨fun b' hb' => ?_, fun q hq => ?_⟩
  · by_cases heq : b' = b
    · subst heq
      rw [Heaps.take, Function.update_self, part_update_of_accepts hacc]
      exact ⟨hbuddy'.trans hbuddy, B, hB⟩
    · have hno : b'.accepts ptr = false := by
        by_contra hne
        exact heq (hs.eq_of_accepts hb' hmem (by simpa using hne) hacc)
      rw [Heaps.take, Function.update_of_ne heq, part_update_of_not_accepts hno]
      exact h.arenas b' hb'
  · by_cases hqp : q = ptr
    · exact ⟨b, hb, hqp ▸ hacc⟩
    · rw [Function.update_of_ne hqp] at hq
      exact h.owned q hq

/-- Each allocator to which the pointer is passed frees the block, if it is its own. -/
theorem give (l : List Buddy) (b : Buddy) (hb : b ∈ alloc.embedded) :
    (l.foldl (Heaps.give ptr) heaps b).buddy = b ∧
      ∃ A, Tracks (l.foldl (Heaps.give ptr) heaps b) (V b) A
        (if b ∈ l then Function.update (part b live) ptr none else part b live) := by
  induction l using List.reverseRecOn with
  | nil => simpa using h.arenas b hb
  | append_singleton l d ih =>
    obtain ⟨hbuddy, A, hA⟩ := ih
    rw [List.foldl_append, List.foldl_cons, List.foldl_nil, Heaps.give]
    by_cases hbd : b = d
    · subst hbd
      obtain ⟨hbuddy', B, hB⟩ := hA.serve (.free ptr)
      rw [Function.update_self, if_pos (List.mem_append_right _ List.mem_cons_self)]
      refine ⟨hbuddy'.trans hbuddy, B, ?_⟩
      rw [Embedded.liveAfter] at hB
      split at hB
      · rwa [Function.update_idem] at hB
      · exact hB
    · rw [Function.update_of_ne hbd]
      refine ⟨hbuddy, A, ?_⟩
      have hiff : b ∈ l ++ [d] ↔ b ∈ l := by simp [hbd]
      rwa [if_congr hiff rfl rfl]

include hs in
/-- One section under a lock keeps track of the blocks. -/
theorem serve (c : Section) :
    alloc.Tracked V (alloc.serve heaps c) (alloc.liveAfter heaps live c) := by
  have htake : ∀ len o, (∀ b ptr, o = some (b, ptr) →
      alloc.Asked b ∧ heaps.answer len b = some ptr) →
      alloc.Tracked V (heaps.take len o) (match o with
        | some (b, ptr) => Function.update live ptr (some (b.slotSize len))
        | none => live) := fun len o ho => by
    cases o with
    | none => exact h
    | some r =>
      obtain ⟨b, ptr⟩ := r
      obtain ⟨hb, hanswer⟩ := ho b ptr rfl
      exact h.take hs hb hanswer
  cases c with
  | allocateSub tid len =>
    refine htake len (alloc.found heaps (.allocateSub tid len)) fun b ptr hf => ?_
    rw [found] at hf
    obtain ⟨hn, hf⟩ := Option.ite_none_right_eq_some.mp hf
    obtain ⟨hsub, hanswer⟩ := request_eq hf
    exact ⟨.inl ⟨_, Nat.mod_lt _ (Nat.pos_of_ne_zero hn), hsub⟩, hanswer⟩
  | allocateRest len =>
    refine htake len (alloc.found heaps (.allocateRest len)) fun b ptr hf => ?_
    rw [found, Option.or_eq_some_iff] at hf
    rcases hf with hf | ⟨-, hf⟩
    · obtain ⟨hmem, hanswer⟩ := request_eq hf
      exact ⟨.inr (.inl hmem), hanswer⟩
    · obtain ⟨hdisk, hanswer⟩ := request_eq hf
      exact ⟨.inr (.inr hdisk), hanswer⟩
  | free ptr =>
    refine ⟨fun b hb => ?_, fun q hq => ?_⟩
    · obtain ⟨hbuddy, A, hA⟩ := h.give (alloc.allocatorFree ptr) b hb
      refine ⟨hbuddy, A, ?_⟩
      have hlive : part b (Function.update live ptr none) =
          if b ∈ alloc.allocatorFree ptr then Function.update (part b live) ptr none
          else part b live := by
        cases hacc : b.accepts ptr with
        | true =>
          rw [part_update_of_accepts hacc]
          split
          · rfl
          · next hno =>
            -- a live block of the arena would have brought the pointer here
            refine Function.update_eq_self_iff.mpr ?_
            by_contra hne
            have hne : live ptr ≠ none := fun hnone => hne (by rw [part, if_pos hacc, hnone])
            obtain ⟨b', hask, hacc'⟩ := h.owned ptr hne
            obtain rfl := hs.eq_of_accepts hb (hask.mem hs) hacc hacc'
            have hfilter := hask.filter_allocatorFree hs hacc'
            exact hno (List.mem_of_mem_filter (hfilter ▸ List.mem_cons_self))
        | false =>
          have hnone : Function.update (part b live) ptr none = part b live :=
            Function.update_eq_self_iff.mpr (by
              rw [part, hacc, if_neg Bool.false_ne_true])
          rw [part_update_of_not_accepts hacc, hnone, ite_self]
      rw [show alloc.liveAfter heaps live (.free ptr) = Function.update live ptr none from rfl,
        hlive]
      exact hA
    · refine h.owned q fun hnone => hq ?_
      rw [show alloc.liveAfter heaps live (.free ptr) = Function.update live ptr none from rfl]
      by_cases hqp : q = ptr
      · rw [hqp, Function.update_self]
      · rw [Function.update_of_ne hqp, hnone]

end Tracked

end Allocator

def Buddy.Made (b : Buddy) : Prop := ∃ (writable : ℕ → Bool) (main size alignment : ℕ),
  embedAlignment writable main size alignment = .ok (some b)

theorem Buddy.Made.proper {b : Buddy} (h : b.Made) (hsize : b.size ≤ 2 ^ 62) :
    b.Proper ∧ 0 < b.main := by
  obtain ⟨writable, main, size, alignment, h⟩ := h
  rw [(embedAlignment_eq h).2.1] at hsize
  exact ⟨(Buddy.Proper.of_embed h hsize).1, (Buddy.Proper.of_embed h hsize).2.1⟩

section made
variable {memSize diskSize : ℕ} {p : Process memSize diskSize} {alloc : Allocator}
variable {main size alignment base n s c : ℕ} {b : Buddy} {l : List Buddy}

theorem embedOrExit_made (h : embedOrExit p main size alignment = .ok b) : b.Made := by
  obtain ⟨o, ho, h⟩ := bind_eq_ok h
  cases o with
  | none => cases h
  | some b' =>
    obtain rfl := Except.ok.inj h
    exact ⟨_, _, _, _, ho⟩

theorem embedSubAllocators_made (h : embedSubAllocators p base s n = .ok l) :
    ∀ b ∈ l, b.Made := by
  induction n generalizing l with
  | zero =>
    obtain rfl : l = [] := (Except.ok.inj h).symm
    exact fun b hb => absurd hb List.not_mem_nil
  | succ n ih =>
    obtain ⟨l', hl', h⟩ := bind_eq_ok h
    obtain ⟨b, hb, h⟩ := bind_eq_ok h
    obtain rfl := Except.ok.inj h
    exact List.forall_mem_cons.mpr ⟨embedOrExit_made hb, ih hl'⟩

theorem createArenas_made {copyBuffer : Option ℕ}
    (h : createArenas p copyBuffer main size n s = .ok alloc) : ∀ b ∈ alloc.embedded, b.Made := by
  rw [createArenas] at h
  split at h
  · obtain ⟨embedded, hembedded, h⟩ := bind_eq_ok h
    obtain ⟨memAlloc, hmain, h⟩ := bind_eq_ok h
    split at h
    · obtain rfl := Except.ok.inj h
      exact List.forall_mem_cons.mpr ⟨embedOrExit_made hmain, embedSubAllocators_made hembedded⟩
    · cases h
  · obtain ⟨memAlloc, hmain, h⟩ := bind_eq_ok h
    split at h
    · obtain rfl := Except.ok.inj h
      exact List.forall_mem_singleton.mpr (embedOrExit_made hmain)
    · cases h

theorem createMem_made (h : createMem p n s c = .ok alloc) : ∀ b ∈ alloc.embedded, b.Made := by
  rw [createMem] at h
  cases hm : p.mem with
  | none => simp [hm] at h
  | some mem =>
    simp only [hm] at h
    split at h
    · exact createArenas_made h
    · exact createArenas_made h

theorem createDiskArena_made {o : Option Allocator} {copyBuffer : Option ℕ}
    {result : Option Allocator} (ho : ∀ alloc ∈ o, ∀ b ∈ alloc.embedded, b.Made)
    (h : createDiskArena p o copyBuffer main size = .ok result) :
    ∀ alloc ∈ result, ∀ b ∈ alloc.embedded, b.Made := by
  obtain ⟨d, hd, h⟩ := bind_eq_ok h
  have hd := embedOrExit_made hd
  cases o with
  | none =>
    simp only at h
    split at h
    · obtain rfl := Except.ok.inj h
      intro alloc halloc
      obtain rfl := Option.some.inj halloc
      exact List.forall_mem_singleton.mpr hd
    · obtain rfl := Except.ok.inj h
      exact fun alloc halloc => by cases halloc
  | some alloc =>
    obtain rfl := Except.ok.inj h
    intro alloc' halloc
    obtain rfl := Option.some.inj halloc
    exact List.forall_mem_cons.mpr ⟨hd, ho alloc rfl⟩

theorem createDisk_made {o : Option Allocator} {result : Option Allocator}
    (ho : ∀ alloc ∈ o, ∀ b ∈ alloc.embedded, b.Made) (h : createDisk p o c = .ok result) :
    ∀ alloc ∈ result, ∀ b ∈ alloc.embedded, b.Made := by
  rw [createDisk] at h
  cases hdata : p.disk with
  | none => simp [hdata] at h
  | some data =>
    simp only [hdata] at h
    split at h
    · exact createDiskArena_made ho h
    · exact createDiskArena_made ho h

/-- Whatever was created is sound, and all of its allocators have been embedded. -/
theorem createAllocator_sound {o : Opts} {p : Process o.allocatorMemSize o.allocatorDiskSize}
    (haccepted : o.accepted = true)
    (h : createAllocator p o.nAllocThreads o.threadMemSize o.copyBufferSize = .ok (some alloc)) :
    alloc.Sound o.copyBufferSize ∧ ∀ b ∈ alloc.embedded, b.Made := by
  have hs : o.threadMemSize < 2 ^ 64 := o.size_lt _ (by simp)
  have hpos := Opts.allocatorMemSize_pos haccepted
  rw [createAllocator, if_pos hpos.ne'] at h
  obtain ⟨o', hmem, h⟩ := bind_eq_ok h
  cases hm : createMem p o.nAllocThreads o.threadMemSize o.copyBufferSize with
  | error e => simp [hm] at hmem
  | ok memory =>
    rw [hm] at hmem
    obtain rfl := Except.ok.inj hmem
    obtain ⟨mem, hmem, hcarved⟩ := createMem_carved hs hm
    have hmade : ∀ alloc ∈ some memory, ∀ b ∈ alloc.embedded, b.Made := fun alloc halloc => by
      obtain rfl := Option.some.inj halloc
      exact createMem_made hm
    split at h
    · obtain ⟨alloc', hr, hsound, -⟩ := createDisk_sound hmem hcarved h
      obtain rfl := Option.some.inj hr
      exact ⟨hsound, createDisk_made hmade h _ rfl⟩
    · obtain rfl := Option.some.inj (Except.ok.inj h)
      exact ⟨hcarved.toSound, createMem_made hm⟩

end made

/-- The nodes behind the arenas stay the same in every run. -/
theorem tracked_of_reach {alloc : Allocator} {c : ℕ} (hs : alloc.Sound c)
    (hmade : ∀ b ∈ alloc.embedded, b.Made) :
    ∃ V, ∀ x, alloc.recordedRuns.Reach (fun _ _ => True) x → alloc.Tracked V x.1 x.2 := by
  have hinit : ∀ b : Buddy, ∃ W, b ∈ alloc.embedded → Tracks b.init W W fun _ => none := by
    intro b
    by_cases hb : b ∈ alloc.embedded
    · have htop := (hs.placed b hb).2
      obtain ⟨hproper, hpos⟩ := (hmade b hb).proper (by rw [userTop] at htop; omega)
      obtain ⟨W, hW⟩ := Tracks.init hproper hpos
      exact ⟨W, fun _ => hW⟩
    · exact ⟨fun _ => false, fun hb' => absurd hb' hb⟩
  choose V hV using hinit
  refine ⟨V, fun x hx => hx.invariant (I := fun x => alloc.Tracked V x.1 x.2)
    (fun s hstart => ?_) fun s a t h _ hn => ?_⟩
  · obtain ⟨heaps, live⟩ := s
    obtain ⟨rfl, rfl⟩ := hstart
    refine ⟨fun b hb => ⟨rfl, V b, ?_⟩, fun q hq => absurd rfl hq⟩
    have hpart : Allocator.part b (fun _ => none) = fun _ => none := by
      funext q
      rw [Allocator.part, ite_self]
    rw [hpart]
    exact hV b hb
  · obtain ⟨hnext, hlive⟩ := TransitionSystem.observe_next hn
    obtain ⟨heaps, live⟩ := t
    obtain rfl := Option.some.inj hnext
    obtain rfl := hlive
    exact h.serve hs a

def smallOpts : Opts :=
  { allocatorMemSize := 2 ^ 14, threadMemSize := 2 ^ 10, nCrawlers := 1, nTransfers := 1
    nFinishProcessors := 0, copyBufferSize := 2 ^ 13 }

theorem smallWritable_lt (a : ℕ) (h : decide (2 ^ 40 ≤ a ∧ a < 2 ^ 40 + 2 ^ 14) = true) :
    a < userTop := by
  have h := of_decide_eq_true h
  rw [userTop]
  omega

theorem small_mem_le : ∀ a ∈ some (2 ^ 40), a + 2 ^ 14 ≤ userTop := by decide

theorem small_disk_le : ∀ a ∈ (none : Option ℕ), a + 0 ≤ userTop := by decide

theorem small_apart : ∀ a ∈ some (2 ^ 40), ∀ b ∈ (none : Option ℕ),
    a + 2 ^ 14 ≤ b ∨ b + 0 ≤ a := by decide

def smallProcess : Process (2 ^ 14) 0 where
  writable a := decide (2 ^ 40 ≤ a ∧ a < 2 ^ 40 + 2 ^ 14)
  mem := some (2 ^ 40)
  disk := none
  room := true
  writable_lt := smallWritable_lt
  mem_le := small_mem_le
  disk_le := small_disk_le
  apart := small_apart

def smallAllocator : Allocator :=
  { copyBuffer := some (2 ^ 40), memBase := 2 ^ 40 + 8192, nSubAllocators := 2
    subAllocatorSize := 1024, memAlloc := some (2 ^ 40 + 16216), diskAlloc := none
    embedded := [⟨2 ^ 40 + 10240, 6144, 128, 5976⟩, ⟨2 ^ 40 + 9216, 1024, 128, 912⟩,
      ⟨2 ^ 40 + 8192, 1024, 128, 912⟩] }

theorem smallAllocator_created : createAllocator smallProcess smallOpts.nAllocThreads
    smallOpts.threadMemSize smallOpts.copyBufferSize = .ok (some smallAllocator) := by
  decide +kernel

theorem smallAllocator_run (sections : List Section) {P : Heaps × (ℕ → Option ℕ) → Prop}
    [DecidablePred P]
    (h : (smallAllocator.recordedRuns.exec (fun _ _ => true) (Buddy.init, fun _ => none)
      sections).any (fun x => decide (P x)) = true) :
    ∃ x, smallAllocator.recordedRuns.Reach (fun _ _ => True) x ∧ P x := by
  obtain ⟨x, hx, hP⟩ := (Option.any_eq_true _ _).mp h
  have hinit : smallAllocator.recordedRuns.Reach (fun _ _ => True)
      (Buddy.init, fun _ => none) := .init ⟨rfl, rfl⟩
  exact ⟨x, hinit.run (.of_exec _ (fun _ _ _ _ => trivial) hx), of_decide_eq_true hP⟩

section runs
variable {o : Opts} {p : Process o.allocatorMemSize o.allocatorDiskSize} {alloc : Allocator}
variable {x y : Heaps × (ℕ → Option ℕ)}
variable (haccepted : o.accepted = true)
variable (h : createAllocator p o.nAllocThreads o.threadMemSize o.copyBufferSize =
  .ok (some alloc))
include haccepted h

/-- Live blocks overlap neither one another nor the copy buffer nor the bookkeeping of an
arena, whichever threads have allocated and freed them. -/
theorem allocations_apart (hx : alloc.recordedRuns.Reach (fun _ _ => True) x) :
    (∀ q k, x.2 q = some k →
      (∃ b ∈ alloc.embedded, b.main ≤ q ∧ q + k ≤ b.main + b.memorySize) ∧
      (∀ a ∈ alloc.copyBuffer, q + k ≤ a ∨ a + o.copyBufferSize ≤ q) ∧
      ∀ b ∈ alloc.embedded, q + k ≤ b.address ∨ b.main + b.size ≤ q) ∧
    ∀ q q' k k', x.2 q = some k → x.2 q' = some k' → q ≠ q' → q + k ≤ q' ∨ q' + k' ≤ q := by
  obtain ⟨hs, hmade⟩ := createAllocator_sound haccepted h
  obtain ⟨V, hV⟩ := tracked_of_reach hs hmade
  have hT := hV x hx
  -- each block lies in one of the arenas
  have hin : ∀ q k, x.2 q = some k → ∃ b ∈ alloc.embedded, b.accepts q = true ∧
      Allocator.part b x.2 q = some k ∧ b.main ≤ q ∧ q + k ≤ b.main + b.memorySize := by
    intro q k hq
    obtain ⟨b, hask, hacc⟩ := hT.owned q (by rw [hq]; exact Option.some_ne_none k)
    have hb := hask.mem hs
    obtain ⟨hbuddy, A, hA⟩ := hT.arenas b hb
    have hpart : Allocator.part b x.2 q = some k := by rw [Allocator.part, if_pos hacc, hq]
    obtain ⟨hlo, hhi, -⟩ := hA.live_inside hpart
    rw [hbuddy] at hlo hhi
    exact ⟨b, hb, hacc, hpart, hlo, hhi⟩
  have hregions := List.pairwise_append.mp hs.apart
  refine ⟨fun q k hq => ?_, fun q q' k k' hq hq' hne => ?_⟩
  · obtain ⟨b, hb, hacc, -, hlo, hhi⟩ := hin q k hq
    have hle := (hs.placed b hb).1.memorySize_le
    refine ⟨⟨b, hb, hlo, hhi⟩, fun a ha => ?_, fun b' hb' => ?_⟩
    · have hapart := hregions.2.2 (b.main, b.size) (List.mem_map_of_mem hb) (a, o.copyBufferSize)
        (List.mem_map_of_mem (Option.mem_toList.mpr ha))
      change b.main + b.size ≤ a ∨ a + o.copyBufferSize ≤ b.main at hapart
      omega
    · have haddr := hs.address_eq hb'
      by_cases hbb : b = b'
      · subst hbb
        have : b.memorySize ≤ b.offset := Nat.sub_le _ _
        omega
      · rcases hs.arenas_apart.forall hb hb' hbb with hap | hap
        · change b.main + b.size ≤ b'.main at hap
          omega
        · change b'.main + b'.size ≤ b.main at hap
          omega
  · obtain ⟨b, hb, hacc, hpart, hlo, hhi⟩ := hin q k hq
    obtain ⟨b', hb', hacc', hpart', hlo', hhi'⟩ := hin q' k' hq'
    by_cases hbb : b = b'
    · subst hbb
      obtain ⟨-, A, hA⟩ := hT.arenas b hb
      exact hA.live_apart hpart hpart' hne
    · have hle := (hs.placed b hb).1.memorySize_le
      have hle' := (hs.placed b' hb').1.memorySize_le
      rcases hs.arenas_apart.forall hb hb' hbb with hap | hap
      · change b.main + b.size ≤ b'.main at hap
        omega
      · change b'.main + b'.size ≤ b.main at hap
        omega

omit haccepted h in
theorem allocations_apart_sample : ∃ x,
    smallAllocator.recordedRuns.Reach (fun _ _ => True) x ∧
    x.2 1099511636480 = some 256 ∧ x.2 1099511643136 = some 512 ∧
      (1099511636480 + 256 ≤ 1099511643136 ∨ 1099511643136 + 512 ≤ 1099511636480) := by
  obtain ⟨x, hx, hq, hq'⟩ := smallAllocator_run
    [.allocateSub 0 200, .allocateRest 300]
    (P := fun x => x.2 1099511636480 = some 256 ∧ x.2 1099511643136 = some 512)
    (by decide +kernel)
  exact ⟨x, hx, hq, hq', (allocations_apart (o := smallOpts) (by decide) smallAllocator_created
    hx).2 _ _ _ _ hq hq' (by decide)⟩

/-- A section finds a slot that no live block of any arena overlaps, and it comes back with
nothing only if live blocks overlap all slots of all arenas that it asks. -/
theorem sections_find_slot (hx : alloc.recordedRuns.Reach (fun _ _ => True) x) (c : Section) :
    (∀ b q, alloc.found x.1 c = some (b, q) → b ∈ alloc.embedded ∧ c.len ≤ b.slotSize c.len ∧
      b.main ≤ q ∧ q + b.slotSize c.len ≤ b.main + b.memorySize ∧
      ∀ q' k, x.2 q' = some k → q + b.slotSize c.len ≤ q' ∨ q' + k ≤ q) ∧
    (alloc.found x.1 c = none ↔ ∀ b ∈ alloc.asks c, b.memorySize < max c.len 1 ∨
      ∀ d, b.slotSize c.len ∣ d → d + b.slotSize c.len ≤ b.memorySize →
        ∃ q k, x.2 q = some k ∧ q < b.main + d + b.slotSize c.len ∧ b.main + d < q + k) := by
  obtain ⟨hs, hmade⟩ := createAllocator_sound haccepted h
  obtain ⟨V, hV⟩ := tracked_of_reach hs hmade
  have hT := hV x hx
  rw [Allocator.found_eq]
  refine ⟨fun b q hf => ?_, ?_⟩
  · obtain ⟨b', hb', hf⟩ := List.exists_of_findSome?_eq_some hf
    obtain ⟨_, hanswer, heq⟩ := Option.map_eq_some_iff.mp hf
    obtain ⟨rfl, rfl⟩ := Prod.mk.inj heq
    have hb := (Allocator.Asked.of_mem hb').mem hs
    obtain ⟨hbuddy, A, hA⟩ := hT.arenas _ hb
    have hslot := hA.malloc_some hanswer
    rw [hbuddy] at hslot
    obtain ⟨hlen, hlo, -, hhi, hapart⟩ := hslot
    refine ⟨hb, hlen, hlo, hhi, fun q' k hq' => ?_⟩
    -- a block of another arena is not in the way
    obtain ⟨d, hask, hacc⟩ := hT.owned q' (by rw [hq']; exact Option.some_ne_none k)
    have hd := hask.mem hs
    have hpart : Allocator.part d x.2 q' = some k := by rw [Allocator.part, if_pos hacc, hq']
    by_cases hbd : b' = d
    · subst hbd
      exact hapart q' k hpart
    · obtain ⟨hbuddy', B, hB⟩ := hT.arenas d hd
      obtain ⟨hlo', hhi', -⟩ := hB.live_inside hpart
      rw [hbuddy'] at hlo' hhi'
      have hle := (hs.placed _ hb).1.memorySize_le
      have hle' := (hs.placed _ hd).1.memorySize_le
      rcases hs.arenas_apart.forall hb hd hbd with hap | hap
      · change b'.main + b'.size ≤ d.main at hap
        omega
      · change d.main + d.size ≤ b'.main at hap
        omega
  · rw [List.findSome?_eq_none_iff]
    refine forall₂_congr fun b hb => ?_
    have hmem := (Allocator.Asked.of_mem hb).mem hs
    obtain ⟨hbuddy, A, hA⟩ := hT.arenas b hmem
    have hnone := hA.malloc_none_iff (r := c.len)
    rw [hbuddy] at hnone
    rw [Option.map_eq_none_iff, Heaps.answer, hnone]
    refine or_congr_right (forall_congr' fun d => forall₂_congr fun _ hd => ?_)
    refine exists_congr fun q => exists_congr fun k => ⟨fun ⟨hq, hlt, hgt⟩ => ?_, ?_⟩
    · rw [Allocator.part] at hq
      split at hq
      · exact ⟨hq, hlt, hgt⟩
      · cases hq
    · rintro ⟨hq, hlt, hgt⟩
      -- a live block that overlaps the slot is in the same arena
      obtain ⟨b', hask, hacc⟩ := hT.owned q (by rw [hq]; exact Option.some_ne_none k)
      have hpart : Allocator.part b' x.2 q = some k := by rw [Allocator.part, if_pos hacc, hq]
      by_cases hbb : b' = b
      · exact ⟨hbb ▸ hpart, hlt, hgt⟩
      · obtain ⟨hbuddy', B, hB⟩ := hT.arenas b' (hask.mem hs)
        obtain ⟨hlo', hhi', -⟩ := hB.live_inside hpart
        rw [hbuddy'] at hlo' hhi'
        have hle := (hs.placed _ hmem).1.memorySize_le
        have hle' := (hs.placed _ (hask.mem hs)).1.memorySize_le
        rcases hs.arenas_apart.forall (hask.mem hs) hmem hbb with hap | hap
        · change b'.main + b'.size ≤ b.main at hap
          omega
        · change b.main + b.size ≤ b'.main at hap
          omega

omit haccepted h in
/-- The arena of the thread has one slot of that size, and it is taken. -/
theorem sections_find_slot_sample : ∃ x,
    smallAllocator.recordedRuns.Reach (fun _ _ => True) x ∧
    ∃ q k, x.2 q = some k ∧ q < 2 ^ 40 + 8192 + 512 ∧ 2 ^ 40 + 8192 < q + k := by
  obtain ⟨x, hx, hnone⟩ := smallAllocator_run [.allocateSub 0 300]
    (P := fun x => smallAllocator.found x.1 (.allocateSub 2 257) = none) (by decide +kernel)
  have hall := (sections_find_slot (o := smallOpts) (by decide) smallAllocator_created hx
    (.allocateSub 2 257)).2.mp hnone ⟨2 ^ 40 + 8192, 1024, 128, 912⟩ (by decide +kernel)
  exact ⟨x, hx, hall.resolve_left (by decide +kernel) 0 (dvd_zero _) (by decide +kernel)⟩

/-- A free by any thread opens up the slot of the block in the arena it came from, and touches no
other arena. Where no live block starts it touches none at all. -/
theorem free_makes_room (hx : alloc.recordedRuns.Reach (fun _ _ => True) x) (q : ℕ) :
    (x.2 q = none → ∀ b ∈ alloc.embedded, alloc.serve x.1 (.free q) b = x.1 b) ∧
    ∀ k, x.2 q = some k → ∃ b ∈ alloc.embedded, b.accepts q = true ∧
      (∀ b' ∈ alloc.embedded, b' ≠ b → alloc.serve x.1 (.free q) b' = x.1 b') ∧
      ∀ len, b.slotSize len = k → ((alloc.serve x.1 (.free q) b).malloc len).2 ≠ none := by
  obtain ⟨hs, hmade⟩ := createAllocator_sound haccepted h
  obtain ⟨V, hV⟩ := tracked_of_reach hs hmade
  have hT := hV x hx
  have hdead : ∀ b ∈ alloc.embedded, Allocator.part b x.2 q = none →
      alloc.serve x.1 (.free q) b = x.1 b := fun b hb hpart => by
    obtain ⟨-, A, hA⟩ := hT.arenas b hb
    exact Allocator.foldl_give_of_free _ (hA.free_of_dead hpart)
  refine ⟨fun hq b hb => hdead b hb ?_, fun k hq => ?_⟩
  · rw [Allocator.part, hq, ite_self]
  · obtain ⟨b, hask, hacc⟩ := hT.owned q (by rw [hq]; exact Option.some_ne_none k)
    have hb := hask.mem hs
    refine ⟨b, hb, hacc, fun b' hb' hne => hdead b' hb' ?_, fun len hslot hnone => ?_⟩
    · rw [Allocator.part, if_neg]
      exact fun hacc' => hne (hs.eq_of_accepts hb' hb hacc' hacc)
    · have hpart : Allocator.part b x.2 q = some k := by rw [Allocator.part, if_pos hacc, hq]
      obtain ⟨hbuddy, A, hA⟩ := hT.arenas b hb
      obtain ⟨hlo, hhi, hdvd, -⟩ := hA.live_inside hpart
      rw [hbuddy] at hlo hhi hdvd
      obtain ⟨hbuddy', B, hB⟩ := (hT.serve hs (.free q)).arenas b hb
      rw [show alloc.liveAfter x.1 x.2 (.free q) = Function.update x.2 q none from rfl,
        Allocator.part_update_of_accepts hacc] at hB
      have hno := hB.malloc_none_iff.mp hnone
      rw [hbuddy', hslot] at hno
      have hmax : max len 1 ≤ k := hslot ▸
        (le_max_left _ _).trans (Nat.le_pow_clog one_lt_two _)
      obtain ⟨q', k', hq', hlt, hgt⟩ := hno.resolve_left (by omega) (q - b.main) hdvd (by omega)
      by_cases hqq : q' = q
      · rw [hqq, Function.update_self] at hq'
        cases hq'
      · rw [Function.update_of_ne hqq] at hq'
        have := hA.live_apart hpart hq' (Ne.symm hqq)
        omega

omit haccepted h in
theorem free_makes_room_sample : ∃ x,
    smallAllocator.recordedRuns.Reach (fun _ _ => True) x ∧
    smallAllocator.found x.1 (.allocateSub 2 257) = none ∧
    ((smallAllocator.serve x.1 (.free 1099511635968) ⟨2 ^ 40 + 8192, 1024, 128, 912⟩).malloc
      257).2 ≠ none := by
  obtain ⟨x, hx, hnone, hlive⟩ := smallAllocator_run [.allocateSub 0 300]
    (P := fun x => smallAllocator.found x.1 (.allocateSub 2 257) = none ∧
      x.2 1099511635968 = some 512) (by decide +kernel)
  obtain ⟨b, hb, hacc, -, hroom⟩ := (free_makes_room (o := smallOpts) (by decide)
    smallAllocator_created hx 1099511635968).2 512 hlive
  obtain rfl : b = ⟨2 ^ 40 + 8192, 1024, 128, 912⟩ := by
    have hall : ∀ b ∈ smallAllocator.embedded, b.accepts 1099511635968 = true →
        b = ⟨2 ^ 40 + 8192, 1024, 128, 912⟩ := by decide +kernel
    exact hall b hb hacc
  exact ⟨x, hx, hnone, hroom 257 (by decide +kernel)⟩

end runs
end Copy2.Memory
