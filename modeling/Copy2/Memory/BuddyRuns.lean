import Copy2.Memory.BuddyBlocks

/-! # Runs of a buddy arena

Requests are served one after another. Next to the allocator it is recorded which blocks are
live: what the allocator hands out is live until the same address is given back. -/
namespace Copy2.Memory
open Copy2.Lib Lib.BinaryTree

inductive Request
  | malloc (requestedSize : ℕ)
  | free (ptr : ℕ)
  | safeFree (ptr requestedSize : ℕ)
deriving DecidableEq, Repr

namespace Embedded
variable (e : Embedded)

def serve : Request → Embedded
  | .malloc r => (e.malloc r).1
  | .free ptr => e.free ptr
  | .safeFree ptr r => (e.safeFree ptr r).1

def liveAfter (live : ℕ → Option ℕ) : Request → ℕ → Option ℕ
  | .malloc r => match (e.malloc r).2 with
    | some ptr => Function.update live ptr (some (e.buddy.slotSize r))
    | none => live
  | .free ptr => Function.update live ptr none
  | .safeFree ptr r => match (e.safeFree ptr r).2 with
    | .success => Function.update live ptr none
    | _ => live

end Embedded

def arena (b : Buddy) : TransitionSystem Embedded Request where
  init e := e = b.init
  next e request := some (e.serve request)

def recorded (b : Buddy) : TransitionSystem (Embedded × (ℕ → Option ℕ)) Request :=
  (arena b).observe (fun _ => none) fun e request live => e.liveAfter live request

variable {b : Buddy} {x y : Embedded × (ℕ → Option ℕ)} {A V : ℕ → Bool} {live : ℕ → Option ℕ}
variable {e : Embedded} {i j k l m p q r ptr v : ℕ}

namespace Tracks

/-- One call keeps track of the blocks. -/
theorem serve (h : Tracks e V A live) (request : Request) :
    (e.serve request).buddy = e.buddy ∧
      ∃ B, Tracks (e.serve request) V B (e.liveAfter live request) := by
  cases request with
  | malloc r =>
    rw [Embedded.serve, Embedded.liveAfter]
    rcases h.malloc r with ⟨p, hp, hsize, heq⟩ | ⟨heq, -⟩
    · rw [heq, ← hsize]
      exact ⟨rfl, _, h.take hp⟩
    · rw [heq]
      exact ⟨rfl, A, h⟩
  | free ptr =>
    rw [Embedded.serve, Embedded.liveAfter]
    rcases h.free ptr with ⟨hnone, heq⟩ | ⟨p, hA, hV, rfl, heq⟩
    · rw [heq, Function.update_eq_self_iff.mpr hnone.symm]
      exact ⟨rfl, A, h⟩
    · rw [heq]
      exact ⟨rfl, _, h.drop hA hV⟩
  | safeFree ptr r =>
    rw [Embedded.serve, Embedded.liveAfter]
    rcases h.safeFree ptr r with ⟨p, hA, hV, rfl, -, -, heq⟩ | ⟨k, -, -, heq⟩ | ⟨-, s, hs, heq⟩
    · rw [heq]
      exact ⟨rfl, _, h.drop hA hV⟩
    · rw [heq]
      exact ⟨rfl, A, h⟩
    · rw [heq]
      cases s with
      | success => exact absurd rfl hs
      | invalidAddress => exact ⟨rfl, A, h⟩
      | sizeMismatch => exact ⟨rfl, A, h⟩

end Tracks

/-- What an arena that was embedded is like. -/
theorem Buddy.Proper.of_embed {writable : ℕ → Bool} {main size alignment : ℕ}
    (h : embedAlignment writable main size alignment = .ok (some b)) (hsize : size ≤ 2 ^ 62) :
    b.Proper ∧ 0 < b.main ∧ b.main = main ∧ b.alignment = alignment := by
  obtain ⟨-, hregion, -, -, hplaced⟩ := embedAlignment_eq h
  have hle := hplaced.memorySize_le
  rw [hregion] at hle
  have hpos := hplaced.main_pos
  rw [embedAlignment] at h
  split at h
  · cases h
  split at h
  · cases h
  next hvalid =>
  split at h
  · cases h
  simp only at h
  split at h
  · cases h
  split at h
  · cases h
  next hroom =>
  split at h
  · obtain rfl := Option.some.inj (Except.ok.inj h)
    have hvalid : isValidAlignment alignment = true := by simpa using hvalid
    refine ⟨⟨hvalid, ?_, hle.trans hsize⟩, hpos, rfl, rfl⟩
    by_contra hlt
    refine hroom ?_
    rw [sizeofAlignment, hvalid, Bool.not_true, if_neg (by simp)]
    exact if_pos (Nat.not_le.mp hlt)
  · cases h

/-- The nodes behind the arena stay the same in every run. -/
theorem tracks_of_reach (hb : b.Proper) (hmain : 0 < b.main) :
    ∃ V, ∀ x, (recorded b).Reach (fun _ _ => True) x →
      x.1.buddy = b ∧ ∃ A, Tracks x.1 V A x.2 := by
  obtain ⟨V, hV⟩ := Tracks.init hb hmain
  refine ⟨V, fun x hx => hx.invariant (I := fun x => x.1.buddy = b ∧ ∃ A, Tracks x.1 V A x.2)
    (fun s hs => ?_) fun s a t hs _ hn => ?_⟩
  · obtain ⟨e, live⟩ := s
    obtain ⟨rfl, rfl⟩ := hs
    exact ⟨rfl, V, hV⟩
  · obtain ⟨hnext, hlive⟩ := TransitionSystem.observe_next hn
    obtain ⟨e, live⟩ := t
    obtain rfl := Option.some.inj hnext
    obtain rfl := hlive
    obtain ⟨hbuddy, A, hA⟩ := hs
    obtain ⟨hbuddy', hB⟩ := hA.serve a
    exact ⟨hbuddy'.trans hbuddy, hB⟩

/-- A slot is found again from its size. -/
theorem Buddy.Proper.pow_eq_slotSize_iff (h : b.Proper) (r : ℕ) : 2 ^ m = b.slotSize r ↔
    2 ^ m / 2 < max r b.alignment ∧ max r b.alignment ≤ 2 ^ m := by
  have hal : 0 < b.alignment := by
    rw [h.alignment_eq]
    exact Nat.two_pow_pos _
  have hmax : max (max r 1) b.alignment = max r b.alignment := by omega
  have hv : 0 < max r b.alignment := by omega
  rw [Buddy.slotSize, hmax]
  generalize max r b.alignment = v at hv ⊢
  rw [Nat.pow_right_inj one_lt_two]
  constructor
  · rintro rfl
    refine ⟨?_, Nat.le_pow_clog one_lt_two v⟩
    rcases Nat.eq_zero_or_pos (Nat.clog 2 v) with hz | hpos
    · rw [hz]
      exact hv
    · obtain ⟨c, hc⟩ := Nat.exists_eq_succ_of_ne_zero hpos.ne'
      rw [hc, pow_succ, Nat.mul_div_cancel _ two_pos]
      exact (Nat.lt_clog_iff_pow_lt one_lt_two).mp (by omega)
  · rintro ⟨hlt, hle⟩
    refine le_antisymm ?_ (Nat.clog_le_of_le_pow hle)
    rcases Nat.eq_zero_or_pos m with hz | hpos
    · rw [hz]
      exact Nat.zero_le _
    · obtain ⟨c, rfl⟩ := Nat.exists_eq_succ_of_ne_zero hpos.ne'
      rw [pow_succ, Nat.mul_div_cancel _ two_pos] at hlt
      exact (Nat.lt_clog_iff_pow_lt one_lt_two).mpr hlt

/-- A node is found again from its block. -/
theorem node_eq_of_block (hi : i ≠ 0) (hj : j ≠ 0) (hri : row i < b.treeOrder)
    (hrj : row j < b.treeOrder) (hoff : b.blockOffset i = b.blockOffset j)
    (hsize : b.blockSize i = b.blockSize j) : i = j := by
  have hrow := Nat.pow_right_injective le_rfl hsize
  have hpow := pow_row_le hi
  have hpow' := pow_row_le hj
  have hsame : row i = row j := by
    have hrow : b.unit + (b.treeOrder - 1 - row i) = b.unit + (b.treeOrder - 1 - row j) := hrow
    omega
  rw [Buddy.blockOffset, Buddy.blockOffset, hsize] at hoff
  have := Nat.eq_of_mul_eq_mul_right Buddy.blockSize_pos hoff
  rw [hsame] at hpow this
  omega

/-- The live blocks tell which nodes are taken. -/
theorem Tracks.eq_of_live {f : Embedded} {B : ℕ → Bool} (h : Tracks e V A live)
    (h' : Tracks f V B live) (hbuddy : e.buddy = f.buddy) : A = B := by
  have hle : ∀ {e f : Embedded} {A B : ℕ → Bool}, Tracks e V A live → Tracks f V B live →
      e.buddy = f.buddy → ∀ i, A i = true → B i = true := by
    intro e f A B h h' hbuddy i hi
    by_cases hV : V i = true
    · exact h'.masked i hV
    · obtain ⟨hi0, hri⟩ := h.inside hi
      have hlive := (h.blocks _ _).mpr ⟨i, hi, by simpa using hV, rfl, rfl⟩
      obtain ⟨j, hj, -, hoff, hsize⟩ := (h'.blocks _ _).mp hlive
      obtain ⟨hj0, hrj⟩ := h'.inside hj
      rw [← hbuddy] at hoff hsize hrj
      rw [node_eq_of_block hi0 hj0 hri hrj (Nat.add_left_cancel hoff) hsize]
      exact hj
  funext i
  exact Bool.eq_iff_iff.mpr ⟨hle h h' hbuddy i, hle h' h hbuddy.symm i⟩

/-- An arena of seven blocks, the eighth of which is missing. -/
def sampleArena : Buddy := ⟨1048576, 1024, 128, 912⟩

theorem sampleArena_embedded :
    embedAlignment (fun _ => true) 1048576 1024 128 = .ok (some sampleArena) := by
  decide +kernel

theorem sampleArena_init :
    (recorded sampleArena).Reach (fun _ _ => True) (sampleArena.init, fun _ => none) :=
  .init ⟨rfl, rfl⟩

/-- A run of the arena and what is known at its end. -/
theorem sampleArena_run (requests : List Request) {P : Embedded × (ℕ → Option ℕ) → Prop}
    [DecidablePred P]
    (h : ((recorded sampleArena).exec (fun _ _ => true) (sampleArena.init, fun _ => none)
      requests).any (fun x => decide (P x)) = true) :
    ∃ x, (recorded sampleArena).Reach (fun _ _ => True) x ∧ P x := by
  obtain ⟨x, hx, hP⟩ := (Option.any_eq_true _ _).mp h
  exact ⟨x, sampleArena_init.run (.of_exec _ (fun _ _ _ _ => trivial) hx), of_decide_eq_true hP⟩

section runs
variable {writable : ℕ → Bool} {main size alignment : ℕ}
variable (hb : embedAlignment writable main size alignment = .ok (some b))
variable (hsize : size ≤ 2 ^ 62)
include hb hsize

/-- Live blocks lie in the arena, at multiples of their sizes, and no two of them overlap. The
live blocks are kept by their addresses: that `malloc` never hands out an address that is live
is part of `malloc_finds_slot`. -/
theorem blocks_apart (hx : (recorded b).Reach (fun _ _ => True) x) :
    (∀ p k, x.2 p = some k → main ≤ p ∧ p + k ≤ main + b.memorySize ∧ k ∣ p - main ∧
      alignment ∣ k) ∧
    ∀ p q k l, x.2 p = some k → x.2 q = some l → p ≠ q → p + k ≤ q ∨ q + l ≤ p := by
  obtain ⟨hproper, hpos, hmain, halign⟩ := Buddy.Proper.of_embed hb hsize
  obtain ⟨V, hV⟩ := tracks_of_reach hproper hpos
  obtain ⟨hbuddy, A, h⟩ := hV x hx
  refine ⟨fun p k hp => ?_, fun p q k l hp hq hne => h.live_apart hp hq hne⟩
  obtain ⟨hlo, hhi, hdvd, m, rfl, hm⟩ := h.live_inside hp
  rw [hbuddy] at hlo hhi hdvd hm
  rw [← hmain, ← halign, hproper.alignment_eq]
  exact ⟨hlo, hhi, hdvd, Nat.pow_dvd_pow 2 hm⟩

omit hb hsize in
theorem blocks_apart_sample : ∃ x, (recorded sampleArena).Reach (fun _ _ => True) x ∧
    x.2 1049088 = some 256 ∧ x.2 1049344 = some 128 ∧
      (1049088 + 256 ≤ 1049344 ∨ 1049344 + 128 ≤ 1049088) := by
  obtain ⟨x, hx, hp, hq⟩ := sampleArena_run [.malloc 200, .malloc 100]
    (P := fun x => x.2 1049088 = some 256 ∧ x.2 1049344 = some 128) (by decide +kernel)
  exact ⟨x, hx, hp, hq, (blocks_apart sampleArena_embedded (by decide) hx).2 _ _ _ _ hp hq
    (by decide)⟩

/-- A request gets a slot that no live block overlaps, large enough, and it is turned down only
if it is larger than the arena or if there is no such slot. -/
theorem malloc_finds_slot (hx : (recorded b).Reach (fun _ _ => True) x) (r : ℕ) :
    (∀ p, (x.1.malloc r).2 = some p → r ≤ b.slotSize r ∧ main ≤ p ∧ b.slotSize r ∣ p - main ∧
      p + b.slotSize r ≤ main + b.memorySize ∧
      ∀ q k, x.2 q = some k → p + b.slotSize r ≤ q ∨ q + k ≤ p) ∧
    ((x.1.malloc r).2 = none ↔ b.memorySize < max r 1 ∨
      ∀ o, b.slotSize r ∣ o → o + b.slotSize r ≤ b.memorySize →
        ∃ q k, x.2 q = some k ∧ q < main + o + b.slotSize r ∧ main + o < q + k) := by
  obtain ⟨hproper, hpos, hmain, -⟩ := Buddy.Proper.of_embed hb hsize
  obtain ⟨V, hV⟩ := tracks_of_reach hproper hpos
  obtain ⟨hbuddy, A, h⟩ := hV x hx
  subst hbuddy
  subst hmain
  exact ⟨fun p hp => h.malloc_some hp, h.malloc_none_iff⟩

omit hb hsize in
/-- No slot is left for a request that a fresh arena would have answered. -/
theorem malloc_finds_slot_sample : ∃ x, (recorded sampleArena).Reach (fun _ _ => True) x ∧
    x.2 1048576 = none ∧ ∃ q k, x.2 q = some k ∧ q < 1048576 + 512 ∧ 1048576 < q + k := by
  obtain ⟨x, hx, hnone, hfirst⟩ := sampleArena_run
    [.malloc 200, .malloc 100, .malloc 100, .malloc 100, .free 1048576]
    (P := fun x => (x.1.malloc 512).2 = none ∧ x.2 1048576 = none) (by decide +kernel)
  have hno := (malloc_finds_slot sampleArena_embedded (by decide) hx 512).2.mp hnone
  exact ⟨x, hx, hfirst, hno.resolve_left (by decide +kernel) 0 (dvd_zero _) (by decide +kernel)⟩

/-- A checked free succeeds exactly for the start of a live block that is the slot for the size
given, and does then what a free does. Otherwise it changes nothing, and neither does a free of
an address at which no live block starts. -/
theorem safeFree_iff (hx : (recorded b).Reach (fun _ _ => True) x) (ptr r : ℕ) :
    ((x.1.safeFree ptr r).2 = .success ↔ x.2 ptr = some (b.slotSize r)) ∧
    ((x.1.safeFree ptr r).2 = .success → (x.1.safeFree ptr r).1 = x.1.free ptr) ∧
    ((x.1.safeFree ptr r).2 ≠ .success → (x.1.safeFree ptr r).1 = x.1) ∧
    (x.2 ptr = none → x.1.free ptr = x.1) := by
  obtain ⟨hproper, hpos, -, -⟩ := Buddy.Proper.of_embed hb hsize
  obtain ⟨V, hV⟩ := tracks_of_reach hproper hpos
  obtain ⟨hbuddy, A, h⟩ := hV x hx
  subst hbuddy
  have hfree := h.free ptr
  have hnone : x.2 ptr = none → x.1.free ptr = x.1 := h.free_of_dead
  rcases h.safeFree ptr r with ⟨p, hA, hV, hptr, hlt, hle, heq⟩ | ⟨k, hk, hno, heq⟩ |
    ⟨hdead, s, hs, heq⟩
  · have hlive := (h.blocks _ _).mpr ⟨p, hA, hV, hptr, rfl⟩
    rw [heq]
    refine ⟨⟨fun _ => ?_, fun _ => rfl⟩, fun _ => ?_, fun hne => absurd rfl hne, hnone⟩
    · rw [hlive, ← (hproper.pow_eq_slotSize_iff r).mpr ⟨hlt, hle⟩]
      rfl
    · rcases hfree with ⟨hdead, -⟩ | ⟨q, hAq, -, hqtr, hq⟩
      · rw [hlive] at hdead
        cases hdead
      · have hsp := Buddy.blockSize_pos (b := x.1.buddy) (i := p)
        have hsq := Buddy.blockSize_pos (b := x.1.buddy) (i := q)
        rw [hq, h.eq_of_overlap hA hAq (by omega) (by omega)]
  · rw [heq]
    refine ⟨⟨fun hs => ?_, fun hslot => ?_⟩, fun hs => ?_, fun _ => rfl, hnone⟩
    · cases hs
    · obtain ⟨i, -, -, -, hki⟩ := (h.blocks _ _).mp hk
      rw [hk] at hslot
      have hpow := (hproper.pow_eq_slotSize_iff r).mp (hki ▸ Option.some.inj hslot)
      exact absurd (hki ▸ hpow) hno
    · cases hs
  · rw [heq]
    refine ⟨⟨fun hsuc => absurd hsuc hs, fun hslot => ?_⟩, fun hsuc => absurd hsuc hs,
      fun _ => rfl, hnone⟩
    rw [hdead] at hslot
    cases hslot

omit hb hsize in
theorem safeFree_iff_sample : ∃ x, (recorded sampleArena).Reach (fun _ _ => True) x ∧
    (x.1.safeFree 1049088 129).2 = .success ∧ (x.1.safeFree 1049088 128).1 = x.1 := by
  obtain ⟨x, hx, hlive⟩ := sampleArena_run [.malloc 200]
    (P := fun x => x.2 1049088 = some 256) (by decide +kernel)
  have hfree := safeFree_iff sampleArena_embedded (by decide) hx 1049088
  refine ⟨x, hx, (hfree 129).1.mpr (hlive.trans (by decide +kernel)),
    (hfree 128).2.2.1 fun hs => ?_⟩
  have heq := ((hfree 128).1.mp hs).symm.trans hlive
  exact absurd (Option.some.inj heq) (by decide +kernel)

/-- How the blocks came to be live does not matter: the statuses of all nodes and the answers
to all requests are the same. So all that has been joined up again is found again. -/
theorem alike_of_live (hx : (recorded b).Reach (fun _ _ => True) x)
    (hy : (recorded b).Reach (fun _ _ => True) y) (hlive : x.2 = y.2) :
    (∀ i, i ≠ 0 → row i < b.treeOrder →
      x.1.tree.status (.ofIndex i) = y.1.tree.status (.ofIndex i)) ∧
    ∀ r, (x.1.malloc r).2 = (y.1.malloc r).2 := by
  obtain ⟨hproper, hpos, -, -⟩ := Buddy.Proper.of_embed hb hsize
  obtain ⟨V, hV⟩ := tracks_of_reach hproper hpos
  obtain ⟨hbx, A, h⟩ := hV x hx
  obtain ⟨hby, B, h'⟩ := hV y hy
  obtain rfl := h.eq_of_live (hlive ▸ h') (hbx.trans hby.symm)
  have ho : x.1.tree.order = y.1.tree.order := by rw [h.order, h'.order, hbx, hby]
  have hshows : y.1.tree.Shows (statusAt x.1.tree.order A) := ho ▸ h'.represents.shows
  refine ⟨fun i hi hrow => ?_, fun r => ?_⟩
  · rw [← hbx, ← h.order] at hrow
    have hin := (row_lt_iff hi).mp hrow
    exact (h.represents.shows.status hi hin).trans (hshows.status hi (ho ▸ hin)).symm
  · have hr : (if r = 0 then 1 else r) = max r 1 := by
      split <;> omega
    rw [Embedded.malloc, Embedded.malloc]
    simp only [hr, hbx, hby]
    split
    · rfl
    · next hbig =>
      obtain ⟨hd, hdn, -⟩ := hproper.depthForSize_eq (r := max r 1) (Nat.not_lt.mp hbig)
        (lt_max_of_lt_right one_pos)
      have hexp := hproper.exponent_le
      have hn := hproper.treeOrder_eq
      rw [h.order, hbx] at ho
      rw [Nat.mod_eq_of_lt (by omega), BuddyTree.findFree_congr h.represents.shows hshows
        (by rw [h.order, hbx, ho]) hd (by rw [h.order, hbx]; exact hdn)]
      have hvalid : x.1.tree.valid (y.1.tree.findFree (b.depthForSize (max r 1))) =
          y.1.tree.valid (y.1.tree.findFree (b.depthForSize (max r 1))) := by
        rw [BuddyTree.valid, BuddyTree.valid, h.order, hbx, ho]
      rw [hvalid]
      split <;> rfl

omit hb hsize in
/-- A block has been handed out and given back: the arena is as good as new. -/
theorem alike_of_live_sample : ∃ x, (recorded sampleArena).Reach (fun _ _ => True) x ∧
    (x.1.malloc 512).2 = (sampleArena.init.malloc 512).2 := by
  have htaken : (sampleArena.init.malloc 200).2 = some 1049088 := by decide +kernel
  have hx := (sampleArena_init.step (a := .malloc 200) trivial rfl).step (a := .free 1049088)
    trivial rfl
  refine ⟨_, hx, (alike_of_live sampleArena_embedded (by decide) hx sampleArena_init ?_).2 512⟩
  funext p
  simp only [Embedded.liveAfter, htaken]
  by_cases hp : p = 1049088
  · rw [hp, Function.update_self]
  · rw [Function.update_of_ne hp, Function.update_of_ne hp]

end runs

end Copy2.Memory
