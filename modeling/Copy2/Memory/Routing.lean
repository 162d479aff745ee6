import Copy2.Memory.Arenas

/-! # A free reaches the allocator that produced the pointer -/
namespace Copy2.Memory
open Copy2.Lib

namespace Allocator
variable {alloc : Allocator} {copyBufferSize : ℕ} {b b' : Buddy}

/-- The regions lie apart, and the arenas are where their numbers say. -/
structure Sound (alloc : Allocator) (copyBufferSize : ℕ) : Prop where
  apart : (alloc.regions copyBufferSize).Pairwise (Apart Prod.fst Prod.snd)
  placed : ∀ b ∈ alloc.embedded, b.Placed ∧ b.main + b.size ≤ userTop
  size_pos : alloc.nSubAllocators ≠ 0 → 0 < alloc.subAllocatorSize
  subs : ∀ i < alloc.nSubAllocators, ∃ b ∈ alloc.embedded,
    b.main = alloc.memBase + i * alloc.subAllocatorSize ∧ b.size = alloc.subAllocatorSize ∧
      embedOffset alloc.subAllocatorSize 128 = some b.offset
  distinct : ∀ m ∈ alloc.memAlloc, ∀ d ∈ alloc.diskAlloc, m ≠ d

namespace Sound
variable (h : alloc.Sound copyBufferSize)
include h

theorem arenas_apart : alloc.embedded.Pairwise (Apart Buddy.main Buddy.size) :=
  (List.pairwise_map (R := Apart Prod.fst Prod.snd)).mp (List.pairwise_append.mp h.apart).1

theorem address_eq (hb : b ∈ alloc.embedded) : b.address = b.main + b.offset := by
  obtain ⟨hp, htop⟩ := h.placed b hb
  have hle := hp.offset_le
  exact ptrAdd_of_lt (by rw [userTop] at htop; omega)

/-- The bookkeeping starts in the region, or right at its end. -/
theorem eq_of_address (hb : b ∈ alloc.embedded) (hb' : b' ∈ alloc.embedded)
    (heq : b.address = b'.address) : b = b' := by
  rw [h.address_eq hb, h.address_eq hb'] at heq
  obtain ⟨⟨hpos, hle, -⟩, -⟩ := h.placed b hb
  obtain ⟨⟨hpos', hle', -⟩, -⟩ := h.placed b' hb'
  exact eq_of_apart h.arenas_apart hb hb' (x := b.main + b.offset - 1) (by omega) (by omega)

theorem buddyAt_address (hb : b ∈ alloc.embedded) : alloc.buddyAt b.address = some b := by
  cases hfind : alloc.buddyAt b.address with
  | none =>
    have hnone := List.find?_eq_none.mp hfind b hb
    simp at hnone
  | some b' =>
    have haddr : b'.address = b.address := by simpa using List.find?_some hfind
    rw [h.eq_of_address (List.mem_of_find?_eq_some hfind) hb haddr]

/-- The arena of thread `i` is the one embedded for it. -/
theorem subAllocator_eq {i : ℕ} (hi : i < alloc.nSubAllocators) :
    ∃ b ∈ alloc.embedded, alloc.subAllocator i = some b ∧
      b.main = alloc.memBase + i * alloc.subAllocatorSize ∧
      b.size = alloc.subAllocatorSize := by
  obtain ⟨b, hb, hmain, hsize, hoff⟩ := h.subs i hi
  obtain ⟨-, htop⟩ := h.placed b hb
  rw [hmain, userTop] at htop
  have haddr : ptrAdd alloc.memBase (i * alloc.subAllocatorSize % 2 ^ 64) = b.main := by
    rw [hmain, Nat.mod_eq_of_lt (by omega), ptrAdd_of_lt (by omega)]
  refine ⟨b, hb, ?_, hmain, hsize⟩
  rw [subAllocator, haddr, getEmbedAtAlignment, hoff, Option.map_some, Option.bind_some]
  exact h.buddyAt_address hb

theorem mem_arena_of_accepts (hb : b ∈ alloc.embedded) {ptr : ℕ} (ha : b.accepts ptr = true) :
    b.main ≤ ptr ∧ ptr < b.main + b.size := by
  obtain ⟨-, hlo, hhi⟩ := of_decide_eq_true ha
  exact ⟨hlo, hhi.trans_le (Nat.add_le_add_left (h.placed b hb).1.memorySize_le _)⟩

/-- No other allocator takes what `b` takes. -/
theorem eq_of_accepts (hb : b ∈ alloc.embedded) (hb' : b' ∈ alloc.embedded) {ptr : ℕ}
    (ha : b.accepts ptr = true) (ha' : b'.accepts ptr = true) : b = b' :=
  eq_of_apart h.arenas_apart hb hb' (h.mem_arena_of_accepts hb ha)
    (h.mem_arena_of_accepts hb' ha')

end Sound

theorem mem_of_buddyAt {address : ℕ} (h : alloc.buddyAt address = some b) :
    b ∈ alloc.embedded ∧ b.address = address :=
  ⟨List.mem_of_find?_eq_some h, by simpa using List.find?_some h⟩

theorem request_eq {answer : Buddy → Option ℕ} {o : Option Buddy} {ptr : ℕ}
    (h : request answer o = some (b, ptr)) : o = some b ∧ answer b = some ptr := by
  cases o with
  | none => simp [request] at h
  | some b' =>
    simp only [request, Option.bind_some, Option.map_eq_some_iff, Prod.mk.injEq] at h
    obtain ⟨_, hp, rfl, rfl⟩ := h
    exact ⟨rfl, hp⟩

/-- The allocators that `AllocatorAllocate` asks. -/
theorem allocatorAllocate_eq {tid : ℕ} {answer : Buddy → Option ℕ} {ptr : ℕ}
    (h : alloc.allocatorAllocate tid answer = some (b, ptr)) :
    answer b = some ptr ∧ ((∃ i < alloc.nSubAllocators, alloc.subAllocator i = some b) ∨
      alloc.memAlloc.bind alloc.buddyAt = some b ∨
      alloc.diskAlloc.bind alloc.buddyAt = some b) := by
  rw [allocatorAllocate, Option.or_eq_some_iff, Option.or_eq_some_iff] at h
  rcases h with (h | ⟨-, h⟩) | ⟨-, h⟩
  · split at h
    · next hn =>
      obtain ⟨hs, hp⟩ := request_eq h
      exact ⟨hp, .inl ⟨_, Nat.mod_lt _ (Nat.pos_of_ne_zero hn), hs⟩⟩
    · cases h
  · obtain ⟨hs, hp⟩ := request_eq h
    exact ⟨hp, .inr (.inl hs)⟩
  · obtain ⟨hs, hp⟩ := request_eq h
    exact ⟨hp, .inr (.inr hs)⟩

namespace Sound
variable (h : alloc.Sound copyBufferSize)
include h

theorem allocatorAllocate_mem {tid : ℕ} {answer : Buddy → Option ℕ} {ptr : ℕ}
    (halloc : alloc.allocatorAllocate tid answer = some (b, ptr)) : b ∈ alloc.embedded := by
  obtain ⟨-, ⟨i, hi, hs⟩ | hs | hs⟩ := allocatorAllocate_eq halloc
  · obtain ⟨b', hb', hs', -⟩ := h.subAllocator_eq hi
    obtain rfl := Option.some_inj.mp (hs.symm.trans hs')
    exact hb'
  · obtain ⟨_, -, hs⟩ := Option.bind_eq_some_iff.mp hs
    exact (mem_of_buddyAt hs).1
  · obtain ⟨_, -, hs⟩ := Option.bind_eq_some_iff.mp hs
    exact (mem_of_buddyAt hs).1

/-- The division in `AllocatorFree` finds the arena of a thread. -/
theorem index_lt {i ptr : ℕ} (hi : i < alloc.nSubAllocators)
    (hlo : alloc.memBase + i * alloc.subAllocatorSize ≤ ptr)
    (hhi : ptr < alloc.memBase + i * alloc.subAllocatorSize + alloc.subAllocatorSize) :
    alloc.nSubAllocators ≠ 0 ∧ alloc.memBase ≤ ptr ∧
      (ptr - alloc.memBase) / alloc.subAllocatorSize < alloc.nSubAllocators := by
  have hn : alloc.nSubAllocators ≠ 0 := by omega
  have hlast : (i + 1) * alloc.subAllocatorSize ≤ alloc.nSubAllocators * alloc.subAllocatorSize :=
    Nat.mul_le_mul_right _ hi
  rw [Nat.succ_mul] at hlast
  refine ⟨hn, by omega, (Nat.div_lt_iff_lt_mul (h.size_pos hn)).mpr (by omega)⟩

/-- A pointer of a thread's arena and one that only looks like it have the same owner. -/
theorem subAllocator_of_index {ptr : ℕ} (hlo : alloc.memBase ≤ ptr)
    (hn : alloc.nSubAllocators ≠ 0)
    (hi : (ptr - alloc.memBase) / alloc.subAllocatorSize < alloc.nSubAllocators)
    (hb : b ∈ alloc.embedded) (ha : b.accepts ptr = true) :
    alloc.subAllocator ((ptr - alloc.memBase) / alloc.subAllocatorSize) = some b := by
  obtain ⟨b', hb', hsub, hmain, hsize⟩ := h.subAllocator_eq hi
  have hle := Nat.div_mul_le_self (ptr - alloc.memBase) alloc.subAllocatorSize
  have hlt := Nat.lt_div_mul_add (a := ptr - alloc.memBase) (h.size_pos hn)
  rw [hsub, eq_of_apart h.arenas_apart hb' hb (x := ptr) (by rw [hmain, hsize]; omega)
    (h.mem_arena_of_accepts hb ha)]

/-- The main arena and the disk arena do not take each other's pointers. -/
theorem filter_eq_nil {o : Option ℕ} {ptr : ℕ} (hb : b ∈ alloc.embedded)
    (ha : b.accepts ptr = true) (hne : ∀ a ∈ o, a ≠ b.address) :
    (o.bind alloc.buddyAt).toList.filter (·.accepts ptr) = [] := by
  refine List.filter_eq_nil_iff.mpr fun d hd hacc => ?_
  obtain ⟨a, ho, hat⟩ := Option.bind_eq_some_iff.mp (Option.mem_toList.mp hd)
  obtain ⟨hd, rfl⟩ := mem_of_buddyAt hat
  exact hne _ ho (by rw [h.eq_of_accepts hd hb hacc ha])

/-- The owner gets the pointer back, and nobody else who would take it does. -/
theorem filter_allocatorFree {tid : ℕ} {answer : Buddy → Option ℕ}
    (hanswer : ∀ b ptr, answer b = some ptr → b.main ≤ ptr ∧ ptr < b.main + b.memorySize)
    {ptr : ℕ} (halloc : alloc.allocatorAllocate tid answer = some (b, ptr)) :
    (alloc.allocatorFree ptr).filter (·.accepts ptr) = [b] := by
  obtain ⟨hptr, hsource⟩ := allocatorAllocate_eq halloc
  have hmem := h.allocatorAllocate_mem halloc
  obtain ⟨hlo, hhi⟩ := hanswer b ptr hptr
  have hpos := (h.placed b hmem).1.main_pos
  have hacc : b.accepts ptr = true := decide_eq_true ⟨by omega, hlo, hhi⟩
  rw [allocatorFree]
  split
  · next hroute =>
    rw [h.subAllocator_of_index hroute.2.1 hroute.1 hroute.2.2 hmem hacc]
    simp [hacc]
  · next hroute =>
    rw [List.filter_append]
    rcases hsource with ⟨i, hi, hs⟩ | hs | hs
    · obtain ⟨b', -, hs', hmain, hsize⟩ := h.subAllocator_eq hi
      obtain rfl := Option.some_inj.mp (hs.symm.trans hs')
      have harena := h.mem_arena_of_accepts hmem hacc
      rw [hmain, hsize] at harena
      exact absurd (h.index_lt hi harena.1 harena.2) hroute
    · obtain ⟨m, hm, hat⟩ := Option.bind_eq_some_iff.mp hs
      obtain ⟨-, rfl⟩ := mem_of_buddyAt hat
      rw [hs, h.filter_eq_nil hmem hacc fun d hd => (h.distinct _ hm d hd).symm]
      simp [hacc]
    · obtain ⟨d, hd, hat⟩ := Option.bind_eq_some_iff.mp hs
      obtain ⟨-, rfl⟩ := mem_of_buddyAt hat
      rw [hs, h.filter_eq_nil hmem hacc fun m hm => h.distinct m hm _ hd]
      simp [hacc]

end Sound

end Allocator
end Copy2.Memory
