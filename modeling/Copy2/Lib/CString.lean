import Mathlib.Data.List.Basic
import Mathlib.Data.List.Infix
import Mathlib.Tactic

/-! # Strings that end in a NUL

A string is the list of its bytes before the NUL. The functions of the C library that
compare strings and search in them are given by what they read, with one lemma each that
says what the answer means for the lists. -/
namespace Copy2.Lib

structure CString where
  bytes : List UInt8
  noNul : 0 ∉ bytes
deriving DecidableEq

def strlen (s : CString) : ℕ := s.bytes.length

def CString.get (s : CString) (i : ℕ) : UInt8 := s.bytes.getD i 0

/-- `strncmp`: the difference of the first bytes that differ, among the first `n` and up to
the end of the shorter string. -/
def strncmp : List UInt8 → List UInt8 → ℕ → ℤ
  | _, _, 0 => 0
  | [], [], _ + 1 => 0
  | [], b :: _, _ + 1 => -(b.toNat : ℤ)
  | a :: _, [], _ + 1 => a.toNat
  | a :: s, b :: t, n + 1 => if a = b then strncmp s t n else (a.toNat : ℤ) - b.toNat

def strcmp (s t : List UInt8) : ℤ := strncmp s t (max s.length t.length)

/-- `strstr`: the string from the first place on where the other one begins, if any. -/
def strstr (needle : List UInt8) : List UInt8 → Option (List UInt8)
  | [] => if needle = [] then some [] else none
  | a :: s => if needle <+: a :: s then some (a :: s) else strstr needle s

theorem CString.get_zero_eq (s : CString) (h : s.bytes ≠ []) {c : UInt8} :
    s.get 0 = c ↔ s.bytes.head? = some c := by
  rw [CString.get]
  cases hs : s.bytes with
  | nil => exact absurd hs h
  | cons a l => simp

theorem strncmp_eq_zero {s t : List UInt8} (hs : 0 ∉ s) (ht : 0 ∉ t) {n : ℕ} :
    strncmp s t n = 0 ↔ s.take n = t.take n := by
  have hpos {a : UInt8} {l : List UInt8} (h : 0 ∉ a :: l) : (a.toNat : ℤ) ≠ 0 := by
    intro h0
    refine h (List.mem_cons.mpr (.inl (UInt8.toNat_inj.mp ?_)))
    exact (Int.natCast_eq_zero.mp h0).symm
  induction s, t, n using strncmp.induct with
  | case1 s t => simp [strncmp]
  | case2 n => simp [strncmp]
  | case3 b l n => simpa [strncmp] using hpos ht
  | case4 a l n => simpa [strncmp] using hpos hs
  | case5 s b t n ih =>
    rw [strncmp, if_pos rfl]
    refine (ih (List.not_mem_of_not_mem_cons hs) (List.not_mem_of_not_mem_cons ht)).trans ?_
    simp
  | case6 a s b t n hne =>
    rw [strncmp, if_neg hne, sub_eq_zero]
    constructor
    · intro h
      exact absurd (UInt8.toNat_inj.mp (Int.ofNat_inj.mp h)) hne
    · intro h
      exact absurd (List.cons.inj h).1 hne

theorem strcmp_eq_zero {s t : List UInt8} (hs : 0 ∉ s) (ht : 0 ∉ t) : strcmp s t = 0 ↔ s = t := by
  rw [strcmp, strncmp_eq_zero hs ht, List.take_of_length_le (le_max_left ..),
    List.take_of_length_le (le_max_right ..)]

theorem strncmp_front {w s : List UInt8} (hw : 0 ∉ w) (hs : 0 ∉ s) :
    strncmp w s w.length = 0 ↔ w <+: s := by
  rw [strncmp_eq_zero hw hs, List.take_length, List.prefix_iff_eq_take]

/-- Comparing the last bytes of a string asks for its end. -/
theorem strncmp_back {w s : List UInt8} (hw : 0 ∉ w) (hs : 0 ∉ s) (hlen : w.length ≤ s.length) :
    strncmp w (s.drop (s.length - w.length)) w.length = 0 ↔ w <:+ s := by
  rw [strncmp_front hw (fun h => hs (List.mem_of_mem_drop h))]
  have hdrop : (s.drop (s.length - w.length)).length = w.length := by
    rw [List.length_drop]
    omega
  constructor
  · intro h
    rw [h.eq_of_length hdrop.symm]
    exact List.drop_suffix ..
  · intro h
    rw [← List.suffix_iff_eq_drop.mp h]

theorem strstr_isSome {w s : List UInt8} : (strstr w s).isSome = true ↔ w <:+: s := by
  induction s with
  | nil =>
    rw [strstr, List.infix_nil]
    split <;> simp [*]
  | cons a s ih =>
    rw [strstr, List.infix_cons_iff]
    split
    · simp [*]
    · rw [ih]
      simp [*]

section Components
variable {α : Type*} {sep : α} {w p : List α}

theorem infix_of_mem {ls : List (List α)} (h : w ∈ ls) :
    [sep] ++ w ++ [sep] <:+: [sep] ++ [sep].intercalate ls ++ [sep] := by
  induction ls with
  | nil => cases h
  | cons l ls ih =>
    cases ls with
    | nil =>
      obtain rfl := List.mem_singleton.mp h
      simp
    | cons l' ls =>
      have hsplit : [sep].intercalate (l :: l' :: ls) =
          l ++ [sep] ++ [sep].intercalate (l' :: ls) := by
        simp [List.intercalate]
      rw [hsplit]
      rcases List.mem_cons.mp h with rfl | h
      · exact ⟨[], [sep].intercalate (l' :: ls) ++ [sep], by simp⟩
      · obtain ⟨s, t, he⟩ := ih h
        refine ⟨[sep] ++ l ++ s, t, ?_⟩
        simp only [List.append_assoc] at he ⊢
        rw [he]

variable [DecidableEq α]

/-- Enclosed in separators, a string contains exactly its components enclosed in
separators. -/
theorem mem_splitOn_iff (hw : w ≠ []) (hsep : sep ∉ w) :
    w ∈ p.splitOn sep ↔ [sep] ++ w ++ [sep] <:+: [sep] ++ p ++ [sep] := by
  constructor
  · intro h
    have hjoin : [sep].intercalate (p.splitOn sep) = p := List.intercalate_splitOn sep
    rw [← hjoin]
    exact infix_of_mem h
  · rintro ⟨s, t, he⟩
    have hleft : ([sep] ++ p ++ [sep]).splitOn sep = [] :: p.splitOn sep ++ [[]] := by
      have hcons : [sep] ++ p ++ [sep] = [] ++ sep :: (p ++ sep :: []) := by simp
      rw [hcons, List.splitOn_append_cons_self, List.splitOn_append_cons_self]
      simp
    have hright : (s ++ ([sep] ++ w ++ [sep]) ++ t).splitOn sep =
        s.splitOn sep ++ ([w] ++ t.splitOn sep) := by
      have hcons : s ++ ([sep] ++ w ++ [sep]) ++ t = s ++ sep :: (w ++ sep :: t) := by simp
      rw [hcons, List.splitOn_append_cons_self, List.splitOn_append_cons_self,
        List.splitOn_eq_singleton hsep]
    have hmem : w ∈ [] :: p.splitOn sep ++ [[]] := by
      rw [← hleft, ← he, hright]
      simp
    simpa [hw] using hmem

/-- A component is the whole string, or stands at its start, at its end or in between. -/
theorem mem_splitOn_cases (hw : w ≠ []) (hsep : sep ∉ w) :
    w ∈ p.splitOn sep ↔
      p = w ∨ w ++ [sep] <+: p ∨ [sep] ++ w <:+ p ∨ [sep] ++ w ++ [sep] <:+: p := by
  rw [mem_splitOn_iff hw hsep]
  constructor
  · rintro ⟨s, t, he⟩
    cases s with
    | nil =>
      cases t using List.reverseRecOn with
      | nil => exact .inl (by simpa using he.symm)
      | append_singleton t c =>
        refine .inr (.inl ⟨t, ?_⟩)
        simp only [← List.append_assoc, List.nil_append] at he
        have h := (List.append_inj' he rfl).1
        simpa using h
    | cons a s =>
      cases t using List.reverseRecOn with
      | nil =>
        refine .inr (.inr (.inl ⟨s, ?_⟩))
        simp only [← List.append_assoc, List.append_nil] at he
        have h := (List.append_inj' he rfl).1
        simpa using (List.cons.inj h).2
      | append_singleton t c =>
        refine .inr (.inr (.inr ⟨s, t, ?_⟩))
        simp only [← List.append_assoc] at he
        have h := (List.append_inj' he rfl).1
        simpa using (List.cons.inj h).2
  · rintro (rfl | ⟨t, rfl⟩ | ⟨s, rfl⟩ | ⟨s, t, rfl⟩)
    · exact List.infix_rfl
    · exact ⟨[], t ++ [sep], by simp⟩
    · exact ⟨[sep] ++ s, [], by simp⟩
    · exact ⟨[sep] ++ s, t ++ [sep], by simp⟩

end Components

end Copy2.Lib
