import Mathlib.Tactic

/-! # Byte files

A file is a size and a byte at every offset, zero from the size on. Truncation and
positioned writes keep the zero tail, so two files of one size agree as soon as
their bytes below the size do. -/
namespace Copy2.Lib

structure ByteFile where
  size : ℕ
  byte : ℕ → UInt8
  byte_eq_zero : ∀ i, size ≤ i → byte i = 0

namespace ByteFile

def empty : ByteFile := ⟨0, fun _ => 0, fun _ _ => rfl⟩

def ofList (l : List UInt8) : ByteFile where
  size := l.length
  byte i := l.getD i 0
  byte_eq_zero i h := by simp [List.getD_eq_getElem?_getD, List.getElem?_eq_none h]

def contents (f : ByteFile) : List UInt8 := List.ofFn fun i : Fin f.size => f.byte i

def ftruncate (f : ByteFile) (n : ℕ) : ByteFile where
  size := n
  byte i := if i < n then f.byte i else 0
  byte_eq_zero _ h := if_neg (Nat.not_lt.mpr h)

/-- Write `n` bytes of a buffer at an offset, extending the file when they end past it. -/
def pwrite (f : ByteFile) (offset n : ℕ) (buf : ℕ → UInt8) : ByteFile where
  size := if n = 0 then f.size else max f.size (offset + n)
  byte i := if offset ≤ i ∧ i < offset + n then buf (i - offset) else f.byte i
  byte_eq_zero i h := by
    split at h
    · rw [if_neg (by omega), f.byte_eq_zero i h]
    · rw [if_neg (by omega), f.byte_eq_zero i (by omega)]

theorem ext_of_byte {f g : ByteFile} (hsize : f.size = g.size)
    (hbyte : ∀ i, i < f.size → f.byte i = g.byte i) : f = g := by
  have hall : f.byte = g.byte := by
    funext i
    rcases Nat.lt_or_ge i f.size with hi | hi
    · exact hbyte i hi
    · rw [f.byte_eq_zero i hi, g.byte_eq_zero i (hsize ▸ hi)]
  obtain ⟨fs, fb, hf⟩ := f
  obtain ⟨gs, gb, hg⟩ := g
  obtain rfl : fs = gs := hsize
  obtain rfl : fb = gb := hall
  rfl

@[simp] theorem contents_ofList (l : List UInt8) : (ofList l).contents = l := by
  apply List.ext_getElem
  · simp [contents, ofList]
  · intro i h₁ h₂
    simp [contents, ofList]

@[simp] theorem empty_byte (i : ℕ) : empty.byte i = 0 := rfl

@[simp] theorem ftruncate_size (f : ByteFile) (n : ℕ) : (f.ftruncate n).size = n := rfl

theorem ftruncate_byte (f : ByteFile) (n i : ℕ) :
    (f.ftruncate n).byte i = if i < n then f.byte i else 0 := rfl

theorem ftruncate_empty_byte (n i : ℕ) : (empty.ftruncate n).byte i = 0 := by
  simp [ftruncate_byte]

theorem pwrite_byte_inside {f : ByteFile} {offset n i : ℕ} (buf : ℕ → UInt8)
    (h₁ : offset ≤ i) (h₂ : i < offset + n) : (f.pwrite offset n buf).byte i = buf (i - offset) :=
  if_pos ⟨h₁, h₂⟩

theorem pwrite_byte_outside {f : ByteFile} {offset n i : ℕ} (buf : ℕ → UInt8)
    (h : i < offset ∨ offset + n ≤ i) : (f.pwrite offset n buf).byte i = f.byte i :=
  if_neg (by omega)

end ByteFile
end Copy2.Lib
