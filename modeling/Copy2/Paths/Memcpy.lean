import Copy2.Paths.Parts
import Mathlib.Data.List.GetD

/-! # From path parts to a string

`stringRefMemcpy` walks a chain twice: once for the length, once to copy the parts from the
end of the buffer to its start. A buffer is reused for one path after another and becomes
larger when a path does not fit. The loops follow `prev` pointers and are cut off after `fuel`
parts. -/
namespace Copy2.Paths
open Lib

abbrev Memory := ℕ → UInt8

/-- `memcpy` to the offset `off` of a buffer. -/
def memcpy (mem : Memory) (off : ℕ) (d : List UInt8) : Memory := fun i =>
  if off ≤ i ∧ i < off + d.length then d.getD (i - off) 0 else mem i

def memset (mem : Memory) (n : ℕ) : Memory := fun i => if i < n then 0 else mem i

/-- The difference of two `size_t`. -/
def sizeSub (a b : ℕ) : ℕ := (a + 2 ^ 64 - b) % 2 ^ 64

def sumParts (h : Heap) : ℕ → Option Ref → ℕ → Option ℕ
  | _, none, size => some size
  | 0, some _, _ => none
  | fuel + 1, some r, size =>
    match h.part r with
    | none => none
    | some part => sumParts h fuel part.prev ((size + part.len) % 2 ^ 64)

def copyParts (h : Heap) (size : ℕ) : ℕ → Option Ref → ℕ → Memory → Option Memory
  | _, none, _, buf => some buf
  | 0, some _, _, _ => none
  | fuel + 1, some r, it, buf =>
    match h.part r with
    | none => none
    | some part =>
      let it := (it + part.len) % 2 ^ 64
      copyParts h size fuel part.prev it (memcpy buf (sizeSub (sizeSub size it) 1) part.data)

/-- The result and the buffer, when there is one. Without a buffer a null reference may not
come with a size. -/
def stringRefMemcpy (h : Heap) (fuel : ℕ) (ref : Option Ref) (buf : Option Memory) (bufsize : ℕ) :
    Option (ℕ × Option Memory) :=
  match ref with
  | none =>
    if bufsize = 0 then some (1, buf)
    else match buf with
      | none => none
      | some buf => some (1, some (memcpy buf 0 [0]))
  | some r =>
    match sumParts h fuel (some r) 0 with
    | none => none
    | some size =>
      let size := (size + 1) % 2 ^ 64
      if bufsize < size then some (size, buf)
      else match buf with
        | none => some (size, none)
        | some buf =>
          match copyParts h size fuel (some r) 0 buf with
          | none => none
          | some buf => some (size, some (memcpy buf (sizeSub size 1) [0]))

structure Buffer where
  mem : Memory
  size : ℕ

/-- `stringrefMemcpyWithRealloc`; around a new buffer there are other bytes. -/
def stringrefMemcpyWithRealloc (h : Heap) (fuel : ℕ) (ref : Option Ref) (other : Memory)
    (buf : Buffer) : Option (ℕ × Buffer) :=
  match stringRefMemcpy h fuel ref (some (memset buf.mem buf.size)) buf.size with
  | some (len, some mem) =>
    if buf.size ≤ len then
      match stringRefMemcpy h fuel ref (some (memset other len)) len with
      | some (len', some mem) => some (if len ≠ len' then 1 else 0, ⟨mem, len⟩)
      | _ => none
    else some (0, ⟨mem, buf.size⟩)
  | _ => none

theorem memcpy_append (mem : Memory) (a b : List UInt8) :
    memcpy (memcpy mem a.length b) 0 a = memcpy mem 0 (a ++ b) := by
  funext i
  simp only [memcpy, List.length_append, Nat.zero_le, true_and, Nat.zero_add, Nat.sub_zero]
  by_cases ha : i < a.length
  · rw [if_pos ha, if_pos (by omega), List.getD_append _ _ _ _ ha]
  · rw [if_neg ha]
    by_cases hb : i < a.length + b.length
    · rw [if_pos ⟨by omega, hb⟩, if_pos hb, List.getD_append_right _ _ _ _ (by omega)]
    · rw [if_neg (by omega), if_neg hb]

theorem memcpy_append_right (mem : Memory) (a b : List UInt8) :
    memcpy (memcpy mem 0 a) a.length b = memcpy mem 0 (a ++ b) := by
  rw [← memcpy_append]
  funext i
  simp only [memcpy, Nat.zero_le, true_and, Nat.zero_add]
  by_cases ha : i < a.length
  · rw [if_neg (by omega), if_pos ha, if_pos ha]
  · rw [if_neg ha, if_neg ha]

theorem memcpy_nil (mem : Memory) (off : ℕ) : memcpy mem off [] = mem := by
  funext i
  rw [memcpy, if_neg (by simp)]

section Copy
variable {h : Heap} {ref : Option Ref} {l : List (Ref × List UInt8)} {fuel : ℕ}

theorem sumParts_eq (hc : Chain h ref l) (hfuel : l.length ≤ fuel) {size : ℕ}
    (hsize : size + (text l).length < 2 ^ 64) :
    sumParts h fuel ref size = some (size + (text l).length) := by
  induction hc generalizing fuel size with
  | nil => cases fuel <;> rfl
  | @cons r p l hp _ ih =>
    obtain ⟨fuel, rfl⟩ := Nat.exists_eq_succ_of_ne_zero (n := fuel) (by rintro rfl; simp at hfuel)
    rw [text_cons, List.length_append] at hsize ⊢
    rw [sumParts, hp]
    dsimp only
    rw [StringPart.len, Nat.mod_eq_of_lt (by omega), ih (by simpa using hfuel) (by omega)]
    congr 1
    omega

/-- Copied from the last part on, the parts stand in the order of the path. -/
theorem copyParts_eq (hc : Chain h ref l) (hfuel : l.length ≤ fuel) {size it : ℕ}
    (hit : it + (text l).length + 1 = size) (hsize : size < 2 ^ 64) (buf : Memory) :
    copyParts h size fuel ref it buf = some (memcpy buf 0 (text l)) := by
  induction hc generalizing fuel it buf with
  | nil =>
    rw [show text [] = [] from rfl, memcpy_nil]
    cases fuel <;> rfl
  | @cons r p l hp _ ih =>
    obtain ⟨fuel, rfl⟩ := Nat.exists_eq_succ_of_ne_zero (n := fuel) (by rintro rfl; simp at hfuel)
    rw [text_cons, List.length_append] at hit
    have hoff : sizeSub (sizeSub size (it + p.data.length)) 1 = (text l).length := by
      rw [sizeSub, sizeSub]
      omega
    rw [copyParts, hp]
    dsimp only
    rw [StringPart.len, Nat.mod_eq_of_lt (by omega), hoff, ih (by simpa using hfuel) (by omega),
      memcpy_append, text_cons]

/-- The result is the length of the path with its NUL; when the buffer has that size the path
is written with its NUL, and otherwise nothing. -/
theorem stringRefMemcpy_eq (hc : Chain h ref l) (hfuel : l.length ≤ fuel) (buf : Memory)
    (bufsize : ℕ) : stringRefMemcpy h fuel ref (some buf) bufsize = some ((text l).length + 1,
      some (if (text l).length + 1 ≤ bufsize then memcpy buf 0 (text l ++ [0]) else buf)) := by
  have hlt := hc.length_lt
  cases ref with
  | none =>
    cases hc
    rw [stringRefMemcpy]
    by_cases hzero : bufsize = 0
    · simp [hzero, text]
    · rw [if_neg hzero, if_pos (by simp [text]; omega)]
      rfl
  | some r =>
    rw [stringRefMemcpy, sumParts_eq hc hfuel (by omega)]
    dsimp only
    rw [Nat.zero_add, Nat.mod_eq_of_lt hlt]
    by_cases hfit : (text l).length + 1 ≤ bufsize
    · rw [if_neg (by omega), if_pos hfit, copyParts_eq hc hfuel (by omega) hlt]
      dsimp only
      have hlast : sizeSub ((text l).length + 1) 1 = (text l).length := by
        rw [sizeSub]
        omega
      rw [hlast, memcpy_append_right]
    · rw [if_pos (by omega), if_neg hfit]

/-- Without a buffer the result is the same. -/
theorem stringRefMemcpy_null (hc : Chain h ref l) (hfuel : l.length ≤ fuel) (hne : l ≠ [])
    (bufsize : ℕ) :
    stringRefMemcpy h fuel ref none bufsize = some ((text l).length + 1, none) := by
  cases hc with
  | nil => exact absurd rfl hne
  | @cons r p l hp hl =>
    have hc : Chain h (some r) ((r, p.data) :: l) := .cons hp hl
    rw [stringRefMemcpy, sumParts_eq hc hfuel (by have := hc.length_lt; omega)]
    dsimp only
    rw [Nat.zero_add, Nat.mod_eq_of_lt hc.length_lt]
    split <;> rfl

/-- Only the bytes of the path and its NUL are written, and only within the size. -/
theorem copied_byte (t : List UInt8) (buf : Memory) (bufsize i : ℕ) :
    (if t.length + 1 ≤ bufsize then memcpy buf 0 (t ++ [0]) else buf) i =
      if t.length + 1 ≤ bufsize ∧ i ≤ t.length then t.getD i 0 else buf i := by
  by_cases hfit : t.length + 1 ≤ bufsize
  · rw [if_pos hfit, memcpy, List.length_append]
    by_cases hi : i ≤ t.length
    · rw [if_pos (by simp; omega), if_pos ⟨hfit, hi⟩, Nat.sub_zero]
      rcases Nat.lt_or_eq_of_le hi with hlt | rfl
      · rw [List.getD_append _ _ _ _ hlt]
      · rw [List.getD_append_right _ _ _ _ le_rfl, List.getD_eq_default _ _ le_rfl]
        simp
    · rw [if_neg (by simp; omega), if_neg (fun h => hi h.2)]
  · rw [if_neg hfit, if_neg (fun h => hfit h.1)]

end Copy

/-- The buffer holds the string and from its end on NULs, and its size counts one of them. -/
structure Buffer.Holds (b : Buffer) (t : List UInt8) : Prop where
  byte : ∀ i < b.size, b.mem i = t.getD i 0
  lt_size : t.length + 1 ≤ b.size

/-- What a reader of the buffer finds up to the first NUL. -/
def Buffer.string (b : Buffer) : List UInt8 := ((List.range b.size).map b.mem).takeWhile (· ≠ 0)

theorem Buffer.Holds.string_eq {b : Buffer} {t : List UInt8} (h : b.Holds t) (hnul : 0 ∉ t) :
    b.string = t := by
  obtain ⟨k, hk⟩ := Nat.exists_eq_add_of_le h.lt_size
  have hall : (List.range b.size).map b.mem = t ++ 0 :: List.replicate k 0 := by
    refine List.ext_getElem (by simp [hk]; omega) fun i hi hi' => ?_
    rw [List.getElem_map, List.getElem_range, h.byte i (by simpa using hi)]
    rcases Nat.lt_or_ge i t.length with hlt | hge
    · rw [List.getElem_append_left hlt, List.getD_eq_getElem _ _ hlt]
    · rw [List.getD_eq_default _ _ hge, List.getElem_append_right hge, List.getElem_cons]
      split
      · rfl
      · rw [List.getElem_replicate]
  rw [Buffer.string, hall, List.takeWhile_append_of_pos (fun c hc => by
    simpa using fun he : c = 0 => hnul (he ▸ hc))]
  simp

/-- One use of the buffer: the path as it stands in the heap, enough turns for its loops, and
what surrounds a new buffer. -/
structure Call where
  heap : Heap
  ref : Option Ref
  parts : List (Ref × List UInt8)
  built : Built heap ref parts
  fuel : ℕ
  enough : parts.length ≤ fuel
  other : Memory

namespace Call

def text (c : Call) : List UInt8 := Paths.text c.parts

def run (c : Call) (b : Buffer) : Option (ℕ × Buffer) :=
  stringrefMemcpyWithRealloc c.heap c.fuel c.ref c.other b

/-- After a call the buffer holds the path, and it has not become smaller. -/
theorem run_eq (c : Call) (b : Buffer) :
    ∃ b', c.run b = some (0, b') ∧ b'.Holds c.text ∧ b.size ≤ b'.size := by
  have hcopy := stringRefMemcpy_eq c.built.chain c.enough
  rw [run, stringrefMemcpyWithRealloc, hcopy]
  dsimp only
  by_cases hfit : b.size ≤ (Paths.text c.parts).length + 1
  · rw [if_pos hfit, hcopy, if_pos le_rfl]
    refine ⟨⟨memcpy (memset c.other ((Paths.text c.parts).length + 1)) 0
      (Paths.text c.parts ++ [0]), (Paths.text c.parts).length + 1⟩, by simp,
      ⟨fun i hi => ?_, le_rfl⟩, hfit⟩
    have hbyte := copied_byte (Paths.text c.parts)
      (memset c.other ((Paths.text c.parts).length + 1)) ((Paths.text c.parts).length + 1) i
    rw [if_pos le_rfl, if_pos ⟨le_rfl, Nat.lt_succ_iff.mp hi⟩] at hbyte
    exact hbyte
  · rw [if_neg hfit]
    refine ⟨⟨_, _⟩, rfl, ⟨fun i hi => ?_, Nat.le_of_not_le hfit⟩, le_rfl⟩
    have hbyte := copied_byte (Paths.text c.parts) (memset b.mem b.size) b.size i
    refine hbyte.trans ?_
    by_cases hlen : i ≤ (Paths.text c.parts).length
    · rw [if_pos ⟨Nat.le_of_not_le hfit, hlen⟩]
      rfl
    · rw [if_neg fun h => hlen h.2, memset, if_pos hi]
      exact (List.getD_eq_default _ _ (Nat.le_of_not_le hlen)).symm

end Call

def reuse : List Call → Buffer → Option Buffer
  | [], b => some b
  | c :: calls, b => (c.run b).bind fun r => reuse calls r.2

theorem reuse_eq (calls : List Call) (b : Buffer) :
    ∃ b', reuse calls b = some b' ∧ b.size ≤ b'.size := by
  induction calls generalizing b with
  | nil => exact ⟨b, rfl, le_rfl⟩
  | cons c calls ih =>
    obtain ⟨b₁, h₁, -, hle₁⟩ := c.run_eq b
    obtain ⟨b₂, h₂, hle₂⟩ := ih b₁
    exact ⟨b₂, by rw [reuse, h₁]; exact h₂, hle₁.trans hle₂⟩

/-- Copying a chain gives the length of its path with the NUL and writes the path, followed by
a NUL, exactly when the size allows it, and no other byte. A buffer that has been used for any
paths and is used for this one then holds it, with a size that has only grown. -/
theorem path_read_back (c : Call) :
    (∀ (mem : Memory) (bufsize : ℕ), ∃ mem',
      stringRefMemcpy c.heap c.fuel c.ref (some mem) bufsize =
          some (c.text.length + 1, some mem') ∧
        ∀ i, mem' i =
          if c.text.length + 1 ≤ bufsize ∧ i ≤ c.text.length then c.text.getD i 0 else mem i) ∧
    ∀ (calls : List Call) (b : Buffer), ∃ b₁ b₂, reuse calls b = some b₁ ∧
      c.run b₁ = some (0, b₂) ∧ b.size ≤ b₁.size ∧ b₁.size ≤ b₂.size ∧ b₂.Holds c.text ∧
      (0 ∉ c.text → b₂.string = c.text) := by
  refine ⟨fun mem bufsize => ⟨_, stringRefMemcpy_eq c.built.chain c.enough mem bufsize,
    copied_byte _ mem bufsize⟩, fun calls b => ?_⟩
  obtain ⟨b₁, h₁, hle₁⟩ := reuse_eq calls b
  obtain ⟨b₂, h₂, hholds, hle₂⟩ := c.run_eq b₁
  exact ⟨b₁, b₂, h₁, h₂, hle₁, hle₂, hholds, hholds.string_eq⟩

def sampleHeap : Heap :=
  (Heap.empty.toStringPart none [46] [] 128 ⟨by decide, fun _ _ h => nomatch h⟩).toStringPart
    (some 128) [47] [97] 256 (by
      refine ⟨by decide, fun r p hp => ?_⟩
      by_cases hr : r = 128
      · subst hr
        obtain rfl : { rc := 2, prev := none, data := [46] } = p := Option.some.inj hp
        exact .inr (by decide)
      · simp [Heap.toStringPart, Heap.alloc, Heap.incRc, Heap.empty, hr] at hp)

def sampleCall : Call where
  heap := sampleHeap
  ref := some 256
  parts := [(256, [47, 97]), (128, [46])]
  built := .part (.part (.null _) _) _
  fuel := 2
  enough := le_rfl
  other _ := 7

/-- A buffer that is one byte too short is made larger. -/
theorem path_read_back_sample : ∃ b₁ b₂, reuse [sampleCall] ⟨fun _ => 7, 3⟩ = some b₁ ∧
    sampleCall.run b₁ = some (0, b₂) ∧ 3 ≤ b₁.size ∧ b₂.string = [46, 47, 97] := by
  obtain ⟨b₁, b₂, h₁, h₂, hle, -, -, hstring⟩ :=
    (path_read_back sampleCall).2 [sampleCall] ⟨fun _ => 7, 3⟩
  exact ⟨b₁, b₂, h₁, h₂, hle, hstring (by decide)⟩

end Copy2.Paths
