import Copy2.Lib.Regions

/-! # Path parts in memory

A path is a chain of parts from its last part to its first; paths share the parts that they
have in common. A part is known by its address. The parts in use lie apart in the address
space, so the lengths of a path's parts add up without wrapping. -/
namespace Copy2.Paths
open Lib

abbrev Ref := ℕ

/-- `struct StringPart` with its characters, whose number is its `len`, over the references to
parts. -/
structure StringPart (ρ : Type) where
  rc : ℕ := 1
  prev : Option ρ
  data : List UInt8
deriving DecidableEq, Repr

namespace StringPart
variable {ρ : Type}

def sizeOf : ℕ := 24

def len (p : StringPart ρ) : ℕ := p.data.length

def bytes (p : StringPart ρ) : ℕ := sizeOf + p.len + 1

end StringPart

structure Heap where
  part : Ref → Option (StringPart Ref)
  inside : ∀ r p, part r = some p → r + p.bytes ≤ 2 ^ 64
  apart : ∀ r r' p p', part r = some p → part r' = some p' → r ≠ r' →
    r + p.bytes ≤ r' ∨ r' + p'.bytes ≤ r

namespace Heap

def empty : Heap where
  part _ := none
  inside _ _ h := nomatch h
  apart _ _ _ _ h := nomatch h

/-- At this address there are `n` bytes that no part uses. -/
def Room (h : Heap) (r : Ref) (n : ℕ) : Prop :=
  r + n ≤ 2 ^ 64 ∧ ∀ r' p, h.part r' = some p → r + n ≤ r' ∨ r' + p.bytes ≤ r

/-- `STRING_PART_RC_INC` on a reference that is not null. -/
def incRc (h : Heap) (r : Ref) : Heap where
  part := Function.update h.part r
    ((h.part r).map fun p => { p with rc := (p.rc + 1) % 2 ^ 64 })
  inside r' p hp := by
    by_cases hr : r' = r
    · subst hr
      rw [Function.update_self] at hp
      obtain ⟨q, hq, rfl⟩ := Option.map_eq_some_iff.mp hp
      exact h.inside r' q hq
    · rw [Function.update_of_ne hr] at hp
      exact h.inside r' p hp
  apart r₁ r₂ p₁ p₂ h₁ h₂ hne := by
    have hsame {r' : Ref} {p : StringPart Ref} (hp : Function.update h.part r
        ((h.part r).map fun p => { p with rc := (p.rc + 1) % 2 ^ 64 }) r' = some p) :
        ∃ q, h.part r' = some q ∧ q.bytes = p.bytes := by
      by_cases hr : r' = r
      · subst hr
        rw [Function.update_self] at hp
        obtain ⟨q, hq, rfl⟩ := Option.map_eq_some_iff.mp hp
        exact ⟨q, hq, rfl⟩
      · rw [Function.update_of_ne hr] at hp
        exact ⟨p, hp, rfl⟩
    obtain ⟨q₁, hq₁, hb₁⟩ := hsame h₁
    obtain ⟨q₂, hq₂, hb₂⟩ := hsame h₂
    rw [← hb₁, ← hb₂]
    exact h.apart r₁ r₂ q₁ q₂ hq₁ hq₂ hne

/-- A part is put where there is room for it. -/
def alloc (h : Heap) (r : Ref) (p : StringPart Ref) (room : h.Room r p.bytes) : Heap where
  part := Function.update h.part r (some p)
  inside r' q hq := by
    by_cases hr : r' = r
    · subst hr
      rw [Function.update_self] at hq
      exact Option.some.inj hq ▸ room.1
    · rw [Function.update_of_ne hr] at hq
      exact h.inside r' q hq
  apart r₁ r₂ p₁ p₂ h₁ h₂ hne := by
    by_cases hr₁ : r₁ = r
    · subst hr₁
      rw [Function.update_self] at h₁
      rw [Function.update_of_ne hne.symm] at h₂
      exact Option.some.inj h₁ ▸ room.2 r₂ p₂ h₂
    · rw [Function.update_of_ne hr₁] at h₁
      by_cases hr₂ : r₂ = r
      · subst hr₂
        rw [Function.update_self] at h₂
        exact (Option.some.inj h₂ ▸ room.2 r₁ p₁ h₁).symm
      · rw [Function.update_of_ne hr₂] at h₂
        exact h.apart r₁ r₂ p₁ p₂ h₁ h₂ hne

/-- `toStringPart`, when the allocator hands out the address `r`: the new part holds both
strings and refers to `currentTip`, which counts one more reference. -/
def toStringPart (h : Heap) (currentTip : Option Ref) (s₁ s₂ : List UInt8) (r : Ref)
    (room : (currentTip.elim h h.incRc).Room r (StringPart.sizeOf + (s₁ ++ s₂).length + 1)) : Heap :=
  (currentTip.elim h h.incRc).alloc r { rc := 1, prev := currentTip, data := s₁ ++ s₂ } room

end Heap

/-- The parts from a reference on, the last part of the path first. -/
inductive Chain (h : Heap) : Option Ref → List (Ref × List UInt8) → Prop
  | nil : Chain h none []
  | cons {r : Ref} {p : StringPart Ref} {l : List (Ref × List UInt8)} (hp : h.part r = some p)
      (hl : Chain h p.prev l) : Chain h (some r) ((r, p.data) :: l)

def text (l : List (Ref × List UInt8)) : List UInt8 := (l.map Prod.snd).reverse.flatten

theorem text_cons (r : Ref) (d : List UInt8) (l : List (Ref × List UInt8)) :
    text ((r, d) :: l) = text l ++ d := by
  simp [text]

/-- The first loop of `stringRefMemcpy` adds up these. -/
theorem length_text (l : List (Ref × List UInt8)) :
    (text l).length = (l.map fun x => x.2.length).sum := by
  induction l with
  | nil => rfl
  | cons x l ih =>
    rw [text_cons, List.length_append, ih, List.map_cons, List.sum_cons, Nat.add_comm]

section Chains
variable {h : Heap} {ref : Option Ref} {l l' : List (Ref × List UInt8)}

theorem Chain.unique (hc : Chain h ref l) (hc' : Chain h ref l') : l = l' := by
  induction hc generalizing l' with
  | nil =>
    cases hc'
    rfl
  | cons hp _ ih =>
    cases hc' with
    | cons hp' hl' =>
      obtain rfl := Option.some.inj (hp.symm.trans hp')
      rw [ih hl']

theorem Chain.part_of_mem (hc : Chain h ref l) {x : Ref × List UInt8} (hx : x ∈ l) :
    ∃ p, h.part x.1 = some p ∧ p.data = x.2 := by
  induction hc with
  | nil => cases hx
  | cons hp _ ih =>
    rcases List.mem_cons.mp hx with rfl | hx
    · exact ⟨_, hp, rfl⟩
    · exact ih hx

/-- From every part of a chain the rest of it goes on. -/
theorem Chain.of_mem (hc : Chain h ref l) {x : Ref × List UInt8} (hx : x ∈ l) :
    ∃ l₂, Chain h (some x.1) (x :: l₂) ∧ l₂.length < l.length := by
  induction hc with
  | nil => cases hx
  | @cons r p l hp hl ih =>
    rcases List.mem_cons.mp hx with rfl | hx
    · exact ⟨l, .cons hp hl, Nat.lt_succ_self _⟩
    · obtain ⟨l₂, hc₂, hlen⟩ := ih hx
      exact ⟨l₂, hc₂, hlen.trans (Nat.lt_succ_self _)⟩

/-- A chain comes to no part twice. -/
theorem Chain.nodup (hc : Chain h ref l) : (l.map Prod.fst).Nodup := by
  induction hc with
  | nil => exact List.nodup_nil
  | @cons r p l hp hl ih =>
    refine List.nodup_cons.mpr ⟨fun hr => ?_, ih⟩
    obtain ⟨⟨r', d⟩, hx, rfl⟩ := List.mem_map.mp hr
    obtain ⟨l₂, hc₂, hlen⟩ := hl.of_mem hx
    obtain rfl := (List.cons.inj ((Chain.cons hp hl).unique hc₂)).2
    exact lt_irrefl _ hlen

theorem Chain.apart (hc : Chain h ref l) :
    l.Pairwise (Apart Prod.fst fun x => StringPart.sizeOf + x.2.length + 1) := by
  have hpair := List.pairwise_map.mp hc.nodup
  refine hpair.imp_of_mem fun {x y} hx hy hne => ?_
  obtain ⟨p, hp, hd⟩ := hc.part_of_mem hx
  obtain ⟨q, hq, he⟩ := hc.part_of_mem hy
  have happart := h.apart x.1 y.1 p q hp hq hne
  rw [StringPart.bytes, StringPart.bytes, StringPart.len, StringPart.len, hd, he] at happart
  exact happart

/-- A path with its NUL is shorter than the address space. -/
theorem Chain.length_lt (hc : Chain h ref l) : (text l).length + 1 < 2 ^ 64 := by
  cases l with
  | nil => decide
  | cons x l =>
    let size := fun y : Ref × List UInt8 => StringPart.sizeOf + y.2.length + 1
    have hsum : ((x :: l).map size).sum ≤ 2 ^ 64 := by
      refine sum_le_of_apart (fun y hy => ?_) hc.apart
      obtain ⟨p, hp, hd⟩ := hc.part_of_mem hy
      have hinside := h.inside y.1 p hp
      rwa [StringPart.bytes, StringPart.len, hd] at hinside
    have hrest : (l.map fun y => y.2.length).sum ≤ (l.map size).sum :=
      List.sum_le_sum fun y _ => (Nat.le_add_left ..).trans (Nat.le_succ _)
    have hfirst : x.2.length + 25 = size x := by
      change _ = 24 + x.2.length + 1
      omega
    rw [length_text, List.map_cons, List.sum_cons]
    rw [List.map_cons, List.sum_cons] at hsum
    omega

theorem Chain.congr (hc : Chain h ref l) {h' : Heap}
    (hkeep : ∀ r p, h.part r = some p →
      ∃ p', h'.part r = some p' ∧ p'.prev = p.prev ∧ p'.data = p.data) : Chain h' ref l := by
  induction hc with
  | nil => exact .nil
  | cons hp _ ih =>
    obtain ⟨p', hp', hprev, hdata⟩ := hkeep _ _ hp
    rw [← hdata]
    exact .cons hp' (hprev ▸ ih)

/-- `toStringPart` leaves every chain as it is and makes the one of its tip longer. -/
theorem Chain.toStringPart (hc : Chain h ref l) {tip : Option Ref} {s₁ s₂ : List UInt8} {r : Ref}
    (room : (tip.elim h h.incRc).Room r (StringPart.sizeOf + (s₁ ++ s₂).length + 1)) :
    Chain (h.toStringPart tip s₁ s₂ r room) ref l ∧
      (ref = tip → Chain (h.toStringPart tip s₁ s₂ r room) (some r) ((r, s₁ ++ s₂) :: l)) := by
  have hinc : ∀ r' p, h.part r' = some p → ∃ p', (tip.elim h h.incRc).part r' = some p' ∧
      p'.prev = p.prev ∧ p'.data = p.data := by
    intro r' p hp
    cases tip with
    | none => exact ⟨p, hp, rfl, rfl⟩
    | some t =>
      by_cases ht : r' = t
      · subst ht
        exact ⟨{ p with rc := (p.rc + 1) % 2 ^ 64 }, by simp [Heap.incRc, hp], rfl, rfl⟩
      · exact ⟨p, by simp [Heap.incRc, ht, hp], rfl, rfl⟩
  have hkeep : Chain (h.toStringPart tip s₁ s₂ r room) ref l := by
    refine hc.congr fun r' p hp => ?_
    obtain ⟨p', hp', hsame⟩ := hinc r' p hp
    have hne : r' ≠ r := by
      rintro rfl
      have hpos : 0 < p'.bytes := Nat.succ_pos _
      rcases room.2 r' p' hp' with hroom | hroom
      · exact absurd hroom (by simp [StringPart.sizeOf])
      · exact absurd hroom (Nat.not_le.mpr (Nat.lt_add_of_pos_right hpos))
    exact ⟨p', by simpa [Heap.toStringPart, Heap.alloc, hne] using hp', hsame⟩
  refine ⟨hkeep, ?_⟩
  rintro rfl
  exact .cons (p := { rc := 1, prev := ref, data := s₁ ++ s₂ })
    (by simp [Heap.toStringPart, Heap.alloc]) hkeep

end Chains

/-- What calls of `toStringPart` build, whatever other paths they build in between. -/
inductive Built : Heap → Option Ref → List (Ref × List UInt8) → Prop
  | null (h : Heap) : Built h none []
  | part {h : Heap} {tip : Option Ref} {l : List (Ref × List UInt8)} (hb : Built h tip l)
      {s₁ s₂ : List UInt8} {r : Ref}
      (room : (tip.elim h h.incRc).Room r (StringPart.sizeOf + (s₁ ++ s₂).length + 1)) :
      Built (h.toStringPart tip s₁ s₂ r room) (some r) ((r, s₁ ++ s₂) :: l)
  | other {h : Heap} {ref tip : Option Ref} {l : List (Ref × List UInt8)} (hb : Built h ref l)
      {s₁ s₂ : List UInt8} {r : Ref}
      (room : (tip.elim h h.incRc).Room r (StringPart.sizeOf + (s₁ ++ s₂).length + 1)) :
      Built (h.toStringPart tip s₁ s₂ r room) ref l

theorem Built.chain {h : Heap} {ref : Option Ref} {l : List (Ref × List UInt8)}
    (hb : Built h ref l) : Chain h ref l := by
  induction hb with
  | null => exact .nil
  | part _ room ih => exact (ih.toStringPart room).2 rfl
  | other _ room ih => exact (ih.toStringPart room).1

end Copy2.Paths
