import Copy2.Lib.CString

/-! # The check of a path before a system call

`path_ok` looks for the parent directory with four string comparisons. -/
namespace Copy2.Os
open Lib

def slash : UInt8 := 47

def dot : UInt8 := 46

/-- The component that leads out of a directory. -/
def dotDot : List UInt8 := [dot, dot]

def pathOk (path : Option CString) : Bool :=
  match path with
  | none => false
  | some path =>
    let pathlen := strlen path
    if pathlen = 0 then false
    else if path.get 0 = slash then false
    else if strcmp path.bytes dotDot = 0 then false
    else if pathlen ≥ 3 ∧ ((strstr ([slash] ++ dotDot ++ [slash]) path.bytes).isSome = true ∨
        strncmp (dotDot ++ [slash]) path.bytes 3 = 0 ∨
        strncmp ([slash] ++ dotDot) (path.bytes.drop (pathlen - 3)) 3 = 0) then false
    else true

/-- A path passes exactly if it is not empty, is relative, and no component of it is `..`. -/
theorem pathOk_iff (p : CString) : pathOk (some p) = true ↔
    p.bytes ≠ [] ∧ p.bytes.head? ≠ some slash ∧ ∀ c ∈ p.bytes.splitOn slash, c ≠ dotDot := by
  have hnone : (∀ c ∈ p.bytes.splitOn slash, c ≠ dotDot) ↔ dotDot ∉ p.bytes.splitOn slash :=
    ⟨fun h hm => h _ hm rfl, fun h c hc he => h (he ▸ hc)⟩
  rw [hnone, mem_splitOn_cases (by decide) (by decide), pathOk]
  by_cases hempty : p.bytes = []
  · simp [strlen, hempty]
  rw [if_neg (by simpa [strlen] using hempty)]
  by_cases hroot : p.bytes.head? = some slash
  · simp [p.get_zero_eq hempty, hroot]
  rw [if_neg (by rwa [p.get_zero_eq hempty])]
  by_cases hself : p.bytes = dotDot
  · rw [if_pos ((strcmp_eq_zero p.noNul (by decide)).mpr hself)]
    simp [hself]
  rw [if_neg (by rwa [strcmp_eq_zero p.noNul (by decide)])]
  by_cases hlen : strlen p ≥ 3
  · have hstr : (strstr ([slash] ++ dotDot ++ [slash]) p.bytes).isSome = true ↔ _ := strstr_isSome
    have hpre := strncmp_front (w := dotDot ++ [slash]) (by decide) p.noNul
    have hsuf := strncmp_back (w := [slash] ++ dotDot) (by decide) p.noNul hlen
    change strncmp (dotDot ++ [slash]) p.bytes 3 = 0 ↔ _ at hpre
    change strncmp ([slash] ++ dotDot) (p.bytes.drop (strlen p - 3)) 3 = 0 ↔ _ at hsuf
    simp only [ge_iff_le, hlen, true_and, hstr, hpre, hsuf, Bool.if_false_left, Bool.and_true,
      Bool.not_eq_true', decide_eq_false_iff_not, hempty, hroot, hself, ne_eq, not_false_eq_true,
      false_or]
    tauto
  · have hshort : p.bytes.length < 3 := Nat.lt_of_not_le hlen
    have hfew {l : List UInt8} (hl : 3 ≤ l.length) : ¬ l <:+: p.bytes := fun h =>
      absurd (h.length_le) (by omega)
    rw [if_neg fun h => hlen h.1]
    refine iff_of_true rfl ⟨hempty, hroot, ?_⟩
    rintro (h | h | h | h)
    · exact hself h
    · exact hfew (by decide) h.isInfix
    · exact hfew (by decide) h.isInfix
    · exact hfew (by decide) h

end Copy2.Os
