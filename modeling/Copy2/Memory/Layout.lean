import Copy2.Memory.Routing

/-! # The layout made by `createAllocator` -/
namespace Copy2.Memory
open Copy2.Lib

theorem bind_eq_ok {ε α β : Type} {x : Except ε α} {f : α → Except ε β} {b : β}
    (h : x >>= f = .ok b) : ∃ a, x = .ok a ∧ f a = .ok b := by
  cases x with
  | error e => cases h
  | ok a => exact ⟨a, rfl, h⟩

theorem eq_ok_of_toOption {ε α : Type} {x : Except ε α} {a : α} (h : x.toOption = some a) :
    x = .ok a := by
  cases x with
  | error e => cases h
  | ok b => exact congrArg _ (Option.some.inj h)

variable {memSize diskSize : ℕ} {p : Process memSize diskSize}

structure Embeds (p : Process memSize diskSize) (main size alignment : ℕ) (b : Buddy) :
    Prop where
  main_eq : b.main = main
  size_eq : b.size = size
  offset_eq : embedOffset size alignment = some b.offset
  writable : p.writable b.address = true
  placed : b.Placed

theorem embedOrExit_eq {main size alignment : ℕ} {b : Buddy}
    (h : embedOrExit p main size alignment = .ok b) : Embeds p main size alignment b := by
  obtain ⟨o, ho, h⟩ := bind_eq_ok h
  cases o with
  | none => cases h
  | some b' =>
    obtain rfl := Except.ok.inj h
    obtain ⟨h1, h2, h3, h4, h5⟩ := embedAlignment_eq ho
    exact ⟨h1, h2, h3, h4, h5⟩

section subs
variable {base s n : ℕ} {l : List Buddy}

theorem embedSubAllocators_succ (h : embedSubAllocators p base s (n + 1) = .ok l) :
    ∃ l' b, embedSubAllocators p base s n = .ok l' ∧
      Embeds p (ptrAdd base (n * s % 2 ^ 64)) s 128 b ∧ l = b :: l' := by
  obtain ⟨l', hl', h⟩ := bind_eq_ok h
  obtain ⟨b, hb, h⟩ := bind_eq_ok h
  exact ⟨l', b, hl', embedOrExit_eq hb, (Except.ok.inj h).symm⟩

theorem embedSubAllocators_mem (h : embedSubAllocators p base s n = .ok l) :
    ∀ i < n, ∃ b ∈ l, Embeds p (ptrAdd base (i * s % 2 ^ 64)) s 128 b := by
  induction n generalizing l with
  | zero => exact fun i hi => absurd hi (Nat.not_lt_zero i)
  | succ n ih =>
    obtain ⟨l', b, hl', hb, rfl⟩ := embedSubAllocators_succ h
    intro i hi
    rcases Nat.lt_succ_iff_lt_or_eq.mp hi with hi | rfl
    · obtain ⟨b', hb', he⟩ := ih hl' i hi
      exact ⟨b', List.mem_cons_of_mem _ hb', he⟩
    · exact ⟨b, List.mem_cons_self, hb⟩

/-- Every bookkeeping was written to memory of the process, so the regions have not wrapped. -/
theorem mul_lt_of_embedSubAllocators (h : embedSubAllocators p base s n = .ok l)
    (hs : s < 2 ^ 64) (htotal : n * s % 2 ^ 64 < userTop) : n * s < 2 ^ 64 := by
  rcases Nat.eq_zero_or_pos n with rfl | hn
  · omega
  obtain ⟨b, -, hb⟩ := embedSubAllocators_mem h 0 hn
  refine mul_lt_of_progression (a := base + b.offset) (U := userTop) (by rw [userTop]; omega) hs
    (fun i hi => ?_) htotal
  obtain ⟨b', -, hb'⟩ := embedSubAllocators_mem h i hi
  have hoff : b'.offset = b.offset := Option.some_inj.mp (hb'.offset_eq.symm.trans hb.offset_eq)
  have haddr : b'.address = (base + b.offset + i * s) % 2 ^ 64 := by
    rw [Buddy.address, hb'.main_eq, hoff, ptrAdd, ptrAdd]
    omega
  rw [← haddr]
  exact p.writable_lt _ hb'.writable

/-- The arenas of the threads, one above the other. -/
theorem embedSubAllocators_layout (h : embedSubAllocators p base s n = .ok l)
    (htop : base + n * s < 2 ^ 64) :
    (∀ b ∈ l, b.Placed ∧ base ≤ b.main ∧ b.main + b.size ≤ base + n * s) ∧
      l.Pairwise (Apart Buddy.main Buddy.size) ∧
      ∀ i < n, ∃ b ∈ l, b.main = base + i * s ∧ b.size = s ∧
        embedOffset s 128 = some b.offset := by
  induction n generalizing l with
  | zero =>
    obtain rfl : l = [] := (Except.ok.inj h).symm
    exact ⟨fun b hb => absurd hb List.not_mem_nil, .nil, fun i hi => absurd hi (Nat.not_lt_zero i)⟩
  | succ n ih =>
    obtain ⟨l', b, hl', hb, rfl⟩ := embedSubAllocators_succ h
    rw [Nat.succ_mul] at htop ⊢
    obtain ⟨hin, hapart, hsub⟩ := ih hl' (by omega)
    have hmain : b.main = base + n * s := by
      rw [hb.main_eq, Nat.mod_eq_of_lt (by omega), ptrAdd_of_lt (by omega)]
    have hsize := hb.size_eq
    refine ⟨fun b' hb' => ?_, List.pairwise_cons.mpr ⟨fun b' hb' => ?_, hapart⟩, fun i hi => ?_⟩
    · rcases List.mem_cons.mp hb' with rfl | hb'
      · exact ⟨hb.placed, by omega, by omega⟩
      · obtain ⟨hp, hlo, hhi⟩ := hin b' hb'
        exact ⟨hp, hlo, by omega⟩
    · obtain ⟨-, -, hhi⟩ := hin b' hb'
      exact .inr (by omega)
    · rcases Nat.lt_succ_iff_lt_or_eq.mp hi with hi | rfl
      · obtain ⟨b', hb', he⟩ := hsub i hi
        exact ⟨b', List.mem_cons_of_mem _ hb', he⟩
      · exact ⟨b, List.mem_cons_self, hmain, hsize, hb.offset_eq⟩

end subs

variable {n s c : ℕ} {alloc : Allocator}

theorem Embeds.address_mem {main size alignment : ℕ} {b : Buddy}
    (h : Embeds p main size alignment b) (htop : main + size ≤ userTop) :
    main < b.address ∧ b.address ≤ main + size := by
  obtain ⟨hpos, hle, -⟩ := h.placed
  rw [h.size_eq] at hle
  rw [userTop] at htop
  rw [Buddy.address, h.main_eq, ptrAdd_of_lt (by omega)]
  omega

/-- What the memory branch leaves, between the addresses `lo` and `hi`. -/
structure Carved (alloc : Allocator) (c lo hi : ℕ) : Prop extends alloc.Sound c where
  inside : ∀ r ∈ alloc.regions c, lo ≤ r.1 ∧ r.1 + r.2 ≤ hi
  memAlloc_mem : ∀ a ∈ alloc.memAlloc, lo < a ∧ a ≤ hi
  diskAlloc_eq : alloc.diskAlloc = none

/-- Arenas above `base` and the copy buffer below it. -/
theorem carved_of_embedded (base : ℕ) {lo hi : ℕ}
    (hapart : alloc.embedded.Pairwise (Apart Buddy.main Buddy.size))
    (hin : ∀ b ∈ alloc.embedded, b.Placed ∧ base ≤ b.main ∧ b.main + b.size ≤ hi)
    (hbuf : ∀ a ∈ alloc.copyBuffer, lo ≤ a ∧ a + c ≤ base) (hlo : lo ≤ base) (hbase : base ≤ hi)
    (htop : hi ≤ userTop) (hmem : ∀ a ∈ alloc.memAlloc, lo < a ∧ a ≤ hi)
    (hdisk : alloc.diskAlloc = none)
    (hpos : alloc.nSubAllocators ≠ 0 → 0 < alloc.subAllocatorSize)
    (hsubs : ∀ i < alloc.nSubAllocators, ∃ b ∈ alloc.embedded,
      b.main = alloc.memBase + i * alloc.subAllocatorSize ∧ b.size = alloc.subAllocatorSize ∧
        embedOffset alloc.subAllocatorSize 128 = some b.offset) :
    Carved alloc c lo hi where
  apart := by
    refine List.pairwise_append.mpr ⟨List.pairwise_map.mpr hapart, ?_, fun r hr r' hr' => ?_⟩
    · cases alloc.copyBuffer <;> simp
    · obtain ⟨b, hb, rfl⟩ := List.mem_map.mp hr
      obtain ⟨a, ha, rfl⟩ := List.mem_map.mp hr'
      exact .inr ((hbuf a (Option.mem_toList.mp ha)).2.trans (hin b hb).2.1)
  placed b hb := ⟨(hin b hb).1, (hin b hb).2.2.trans htop⟩
  size_pos := hpos
  subs := hsubs
  distinct m _ d hd := by rw [hdisk] at hd; cases hd
  inside r hr := by
    rcases List.mem_append.mp hr with hr | hr
    · obtain ⟨b, hb, rfl⟩ := List.mem_map.mp hr
      obtain ⟨-, hge, hle⟩ := hin b hb
      exact ⟨hlo.trans hge, hle⟩
    · obtain ⟨a, ha, rfl⟩ := List.mem_map.mp hr
      obtain ⟨hge, hle⟩ := hbuf a (Option.mem_toList.mp ha)
      exact ⟨hge, hle.trans hbase⟩
  memAlloc_mem := hmem
  diskAlloc_eq := hdisk

theorem createArenas_carved {copyBuffer : Option ℕ} {lo mem size : ℕ} (hs : s < 2 ^ 64)
    (hbuf : ∀ a ∈ copyBuffer, lo ≤ a ∧ a + c ≤ mem) (hlo : lo ≤ mem)
    (htop : mem + size ≤ userTop) (h : createArenas p copyBuffer mem size n s = .ok alloc) :
    Carved alloc c lo (mem + size) := by
  rw [createArenas] at h
  split at h
  · next hsub =>
    obtain ⟨embedded, hembedded, h⟩ := bind_eq_ok h
    obtain ⟨memAlloc, hmain, h⟩ := bind_eq_ok h
    have hmain := embedOrExit_eq hmain
    split at h
    · obtain rfl := Except.ok.inj h
      have hwrap := mul_lt_of_embedSubAllocators hembedded hs (by omega)
      rw [Nat.mod_eq_of_lt hwrap] at hsub hmain
      obtain ⟨hin, hapart, hsubs⟩ := embedSubAllocators_layout hembedded
        (by rw [userTop] at htop; omega)
      rw [ptrAdd_of_lt (by rw [userTop] at htop; omega)] at hmain
      have hmainEq := hmain.main_eq
      have hsizeEq := hmain.size_eq
      have haddr := hmain.address_mem (by omega)
      refine carved_of_embedded mem (List.pairwise_cons.mpr ⟨fun b hb => ?_, hapart⟩)
        (fun b hb => ?_) hbuf hlo (Nat.le_add_right ..) htop (fun a ha => ?_) rfl
        (fun hn => ?_) (fun i hi => ?_)
      · obtain ⟨-, -, hle⟩ := hin b hb
        exact .inr (by omega)
      · rcases List.mem_cons.mp hb with rfl | hb
        · exact ⟨hmain.placed, by omega, by omega⟩
        · obtain ⟨hp, hge, hle⟩ := hin b hb
          exact ⟨hp, hge, by omega⟩
      · obtain rfl := Option.some.inj ha
        omega
      · exact Nat.pos_of_ne_zero (right_ne_zero_of_mul hsub.1)
      · obtain ⟨b, hb, he⟩ := hsubs i hi
        exact ⟨b, List.mem_cons_of_mem _ hb, he⟩
    · cases h
  · obtain ⟨memAlloc, hmain, h⟩ := bind_eq_ok h
    have hmain := embedOrExit_eq hmain
    split at h
    · obtain rfl := Except.ok.inj h
      have hmainEq := hmain.main_eq
      have hsizeEq := hmain.size_eq
      have haddr := hmain.address_mem htop
      refine carved_of_embedded mem (List.pairwise_singleton ..) (fun b hb => ?_) hbuf
        hlo (Nat.le_add_right ..) htop (fun a ha => ?_) rfl (fun hn => absurd rfl hn)
        (fun i hi => absurd hi (Nat.not_lt_zero i))
      · obtain rfl := List.mem_singleton.mp hb
        exact ⟨hmain.placed, by omega, by omega⟩
      · obtain rfl := Option.some.inj ha
        omega
    · cases h

theorem createMem_carved (hs : s < 2 ^ 64) (h : createMem p n s c = .ok alloc) :
    ∃ mem ∈ p.mem, Carved alloc c mem (mem + memSize) := by
  rw [createMem] at h
  cases hm : p.mem with
  | none => simp [hm] at h
  | some mem =>
    have htop := p.mem_le mem hm
    simp only [hm] at h
    refine ⟨mem, rfl, ?_⟩
    split at h
    · next hc =>
      rw [ptrAdd_of_lt (by rw [userTop] at htop; omega)] at h
      have hsplit : mem + c + (memSize - c) = mem + memSize := by omega
      rw [← hsplit]
      refine createArenas_carved hs (fun a ha => ?_) (Nat.le_add_right ..) (by omega) h
      obtain rfl := Option.some.inj ha
      exact ⟨le_rfl, le_rfl⟩
    · exact createArenas_carved hs (fun a ha => by cases ha) le_rfl htop h

section disk
variable {mem data base size : ℕ} {copyBuffer : Option ℕ} {result : Option Allocator}

/-- The regions of the two mappings lie apart, so the disk arena joins the others. -/
theorem createDiskArena_sound (hcarved : Carved alloc c mem (mem + memSize))
    (hmaps : mem + memSize ≤ data ∨ data + diskSize ≤ mem) (htop : data + diskSize ≤ userTop)
    (hbase : data ≤ base) (hsize : base + size = data + diskSize)
    (hbuf : copyBuffer = alloc.copyBuffer ∨
      alloc.copyBuffer = none ∧ copyBuffer = some data ∧ data + c ≤ base)
    (h : createDiskArena p (some alloc) copyBuffer base size = .ok result) :
    ∃ alloc', result = some alloc' ∧ alloc'.Sound c ∧
      ∀ r ∈ alloc'.regions c, (mem ≤ r.1 ∧ r.1 + r.2 ≤ mem + memSize) ∨
        (data ≤ r.1 ∧ r.1 + r.2 ≤ data + diskSize) := by
  obtain ⟨d, hd, h⟩ := bind_eq_ok h
  have hd := embedOrExit_eq hd
  obtain rfl := Except.ok.inj h
  have hmainEq := hd.main_eq
  have hsizeEq := hd.size_eq
  have haddr := hd.address_mem (by omega)
  -- the regions of the memory and the copy buffer, wherever it is
  have hrest : ∀ r ∈ alloc.embedded.map (fun b => (b.main, b.size)) ++
      copyBuffer.toList.map (·, c), (mem ≤ r.1 ∧ r.1 + r.2 ≤ mem + memSize) ∨
        (data ≤ r.1 ∧ r.1 + r.2 ≤ base) := by
    rcases hbuf with rfl | ⟨-, rfl, hc⟩
    · exact fun r hr => .inl (hcarved.inside r hr)
    · intro r hr
      rcases List.mem_append.mp hr with hr | hr
      · exact .inl (hcarved.inside r (List.mem_append_left _ hr))
      · obtain rfl := List.mem_singleton.mp hr
        exact .inr ⟨le_rfl, hc⟩
  refine ⟨_, rfl, ⟨List.pairwise_cons.mpr ⟨fun r hr => ?_, ?_⟩, fun b hb => ?_, hcarved.size_pos,
    fun i hi => ?_, fun a ha d' hd' => ?_⟩, fun r hr => ?_⟩
  · change d.main + d.size ≤ r.1 ∨ r.1 + r.2 ≤ d.main
    rcases hrest r hr with hr | hr <;> omega
  · rcases hbuf with rfl | ⟨hnone, rfl, hc⟩
    · exact hcarved.apart
    · refine List.pairwise_append.mpr ⟨(List.pairwise_append.mp hcarved.apart).1,
        List.pairwise_singleton .., fun r hr r' hr' => ?_⟩
      obtain rfl := List.mem_singleton.mp hr'
      have hin := hcarved.inside r (List.mem_append_left _ hr)
      change r.1 + r.2 ≤ data ∨ data + c ≤ r.1
      omega
  · rcases List.mem_cons.mp hb with rfl | hb
    · exact ⟨hd.placed, by omega⟩
    · exact hcarved.placed b hb
  · obtain ⟨b, hb, he⟩ := hcarved.subs i hi
    exact ⟨b, List.mem_cons_of_mem _ hb, he⟩
  · have hin := hcarved.memAlloc_mem a ha
    obtain rfl := Option.some.inj hd'
    omega
  · rcases List.mem_cons.mp hr with rfl | hr
    · exact .inr ⟨show data ≤ d.main by omega, show d.main + d.size ≤ _ by omega⟩
    · rcases hrest r hr with hr | hr
      · exact .inl hr
      · exact .inr ⟨hr.1, by omega⟩

theorem createDisk_sound (hm : mem ∈ p.mem) (hcarved : Carved alloc c mem (mem + memSize))
    (h : createDisk p (some alloc) c = .ok result) :
    ∃ alloc', result = some alloc' ∧ alloc'.Sound c ∧ ∃ data ∈ p.disk,
      ∀ r ∈ alloc'.regions c, (mem ≤ r.1 ∧ r.1 + r.2 ≤ mem + memSize) ∨
        (data ≤ r.1 ∧ r.1 + r.2 ≤ data + diskSize) := by
  rw [createDisk] at h
  cases hdata : p.disk with
  | none => simp [hdata] at h
  | some data =>
    have htop := p.disk_le data hdata
    have hmaps := p.apart mem hm data hdata
    simp only [hdata, Option.bind_some] at h
    split at h
    · next hc =>
      rw [ptrAdd_of_lt (by rw [userTop] at htop; omega)] at h
      obtain ⟨alloc', hr, hs, hin⟩ := createDiskArena_sound hcarved hmaps htop
        (Nat.le_add_right ..) (by omega) (.inr ⟨hc.1, rfl, le_rfl⟩) h
      exact ⟨alloc', hr, hs, data, rfl, hin⟩
    · obtain ⟨alloc', hr, hs, hin⟩ := createDiskArena_sound hcarved hmaps htop le_rfl rfl
        (.inl rfl) h
      exact ⟨alloc', hr, hs, data, rfl, hin⟩

end disk

/-- The regions are sound and each lies in one of the mappings; a pointer that was handed out
goes back to its owner and to nobody else who would take it. -/
theorem arenas_sound {o : Opts} (p : Process o.allocatorMemSize o.allocatorDiskSize)
    (haccepted : o.accepted = true) {result : Option Allocator}
    (h : createAllocator p o.nAllocThreads o.threadMemSize o.copyBufferSize = .ok result) :
    ∃ alloc, result = some alloc ∧
      (alloc.regions o.copyBufferSize).Pairwise (Apart Prod.fst Prod.snd) ∧
      (∀ r ∈ alloc.regions o.copyBufferSize,
        (∃ mem ∈ p.mem, mem ≤ r.1 ∧ r.1 + r.2 ≤ mem + o.allocatorMemSize) ∨
          ∃ data ∈ p.disk, data ≤ r.1 ∧ r.1 + r.2 ≤ data + o.allocatorDiskSize) ∧
      ∀ (tid : ℕ) (answer : Buddy → Option ℕ),
        (∀ b ptr, answer b = some ptr → b.main ≤ ptr ∧ ptr < b.main + b.memorySize) →
        ∀ b ptr, alloc.allocatorAllocate tid answer = some (b, ptr) →
          (alloc.allocatorFree ptr).filter (·.accepts ptr) = [b] := by
  have hs : o.threadMemSize < 2 ^ 64 := o.size_lt _ (by simp)
  have hpos := Opts.allocatorMemSize_pos haccepted
  rw [createAllocator, if_pos hpos.ne'] at h
  obtain ⟨alloc, halloc, h⟩ := bind_eq_ok h
  cases hmem : createMem p o.nAllocThreads o.threadMemSize o.copyBufferSize with
  | error e => simp [hmem] at halloc
  | ok memory =>
    rw [hmem] at halloc
    obtain rfl := Except.ok.inj halloc
    obtain ⟨mem, hm, hcarved⟩ := createMem_carved hs hmem
    split at h
    · obtain ⟨alloc, hr, hsound, data, hdata, hin⟩ := createDisk_sound hm hcarved h
      refine ⟨alloc, hr, hsound.apart, fun r hr => ?_, fun tid answer hanswer b ptr hb =>
        hsound.filter_allocatorFree hanswer hb⟩
      rcases hin r hr with hr | hr
      · exact .inl ⟨mem, hm, hr⟩
      · exact .inr ⟨data, hdata, hr⟩
    · obtain rfl := Except.ok.inj h
      exact ⟨memory, rfl, hcarved.apart, fun r hr => .inl ⟨mem, hm, hcarved.inside r hr⟩,
        fun tid answer hanswer b ptr hb => hcarved.filter_allocatorFree hanswer hb⟩

def sampleOpts : Opts := { allocatorDiskSize := 2 ^ 20 }

def sampleWritable (a : ℕ) : Bool :=
  decide (2 ^ 40 ≤ a ∧ a < 2 ^ 40 + 4 * 2 ^ 30 ∨ 2 ^ 45 ≤ a ∧ a < 2 ^ 45 + 2 ^ 20)

theorem sampleWritable_lt (a : ℕ) (h : sampleWritable a = true) : a < userTop := by
  have h := of_decide_eq_true h
  rw [userTop]
  omega

theorem sample_mem_le : ∀ a ∈ some (2 ^ 40), a + 4 * 2 ^ 30 ≤ userTop := by decide

theorem sample_disk_le : ∀ a ∈ some (2 ^ 45), a + 2 ^ 20 ≤ userTop := by decide

theorem sample_apart : ∀ a ∈ some (2 ^ 40), ∀ b ∈ some (2 ^ 45),
    a + 4 * 2 ^ 30 ≤ b ∨ b + 2 ^ 20 ≤ a := by decide

def sampleProcess : Process (4 * 2 ^ 30) (2 ^ 20) where
  writable := sampleWritable
  mem := some (2 ^ 40)
  disk := some (2 ^ 45)
  room := true
  writable_lt := sampleWritable_lt
  mem_le := sample_mem_le
  disk_le := sample_disk_le
  apart := sample_apart

def sampleAllocator : Option Allocator :=
  (createAllocator sampleProcess sampleOpts.nAllocThreads sampleOpts.threadMemSize
    sampleOpts.copyBufferSize).toOption.bind id

/-- All forty threads have an arena, and what thread 47 gets goes back to the arena it came
from. -/
theorem arenas_sound_sample : ∃ alloc ∈ sampleAllocator,
    alloc.embedded.length = 42 ∧
    (alloc.regions sampleOpts.copyBufferSize).Pairwise (Apart Prod.fst Prod.snd) ∧
    ∃ b, alloc.subAllocator 7 = some b ∧
      (alloc.allocatorFree b.main).filter (·.accepts b.main) = [b] := by
  have hrun : sampleAllocator.map (fun alloc => (alloc.embedded.length,
      (alloc.allocatorAllocate 47 fun b => if 0 < b.memorySize then some b.main else none).map
        fun r => (alloc.subAllocator 7 == some r.1 && r.2 == r.1.main))) =
      some (42, some true) := by decide +kernel
  obtain ⟨alloc, halloc, hrun⟩ := Option.map_eq_some_iff.mp hrun
  obtain ⟨hlength, hrequest⟩ := Prod.mk.inj hrun
  obtain ⟨⟨b, ptr⟩, hrequest, hb⟩ := Option.map_eq_some_iff.mp hrequest
  obtain ⟨hsub, hptr⟩ := (Bool.and_eq_true ..).mp hb
  obtain rfl : ptr = b.main := by simpa using hptr
  have hok : createAllocator sampleProcess sampleOpts.nAllocThreads sampleOpts.threadMemSize
      sampleOpts.copyBufferSize = .ok (some alloc) := by
    obtain ⟨_, hok, rfl⟩ := Option.bind_eq_some_iff.mp halloc
    exact eq_ok_of_toOption hok
  obtain ⟨_, ha, hapart, -, hroute⟩ := arenas_sound (o := sampleOpts) sampleProcess
    (by decide) hok
  obtain rfl := Option.some.inj ha
  refine ⟨alloc, halloc, hlength, hapart, b, by simpa using hsub,
    hroute 47 _ (fun b ptr h => ?_) b b.main hrequest⟩
  split at h
  · obtain rfl := Option.some.inj h
    omega
  · cases h

end Copy2.Memory
