import Mathlib.Data.List.AList
import Mathlib.Tactic

/-! # A cache over a store

A finite cache shadows the entries of a store. Writing its entries back to the store, one
by one in any order, shows the same map. -/
namespace Copy2.Lib

variable {κ υ : Type} [DecidableEq κ]

/-- What a reader sees who looks into the cache first. -/
def readThrough (cache : AList fun _ : κ => υ) (store : κ → Option υ) (k : κ) : Option υ :=
  match cache.lookup k with
  | some v => some v
  | none => store k

section ReadThrough
variable {cache : AList fun _ : κ => υ} {store : κ → Option υ} {k : κ} {v : υ}

theorem readThrough_of_none (h : cache.lookup k = none) : readThrough cache store k = store k := by
  rw [readThrough, h]

theorem readThrough_of_some (h : cache.lookup k = some v) : readThrough cache store k = some v := by
  rw [readThrough, h]

@[simp] theorem readThrough_empty : readThrough (∅ : AList fun _ : κ => υ) store = store := by
  funext k
  exact readThrough_of_none (AList.lookup_empty k)

theorem readThrough_insert :
    readThrough (cache.insert k v) store = Function.update (readThrough cache store) k (some v) := by
  funext j
  by_cases hj : j = k
  · subst hj
    rw [Function.update_self, readThrough_of_some (AList.lookup_insert _)]
  · rw [Function.update_of_ne hj, readThrough, readThrough, AList.lookup_insert_ne hj]

theorem readThrough_erase : readThrough (cache.erase k) (Function.update store k none) =
    Function.update (readThrough cache store) k none := by
  funext j
  by_cases hj : j = k
  · subst hj
    rw [Function.update_self, readThrough_of_none (AList.lookup_erase ..), Function.update_self]
  · rw [Function.update_of_ne hj, readThrough, readThrough, AList.lookup_erase_ne hj,
      Function.update_of_ne hj]

def putAll (entries : List (Σ _ : κ, υ)) (store : κ → Option υ) : κ → Option υ :=
  entries.foldl (fun store e => Function.update store e.1 (some e.2)) store

theorem putAll_eq_readThrough : putAll cache.entries store = readThrough cache store := by
  have hput : ∀ (l : List (Σ _ : κ, υ)) (store : κ → Option υ), l.NodupKeys → ∀ j,
      putAll l store j = match l.dlookup j with
        | some v => some v
        | none => store j := by
    intro l
    induction l with
    | nil => exact fun store _ j => rfl
    | cons e l ih =>
      intro store hl j
      obtain ⟨hnew, hl⟩ := List.nodupKeys_cons.mp hl
      rw [putAll, List.foldl_cons, ← putAll, ih _ hl]
      by_cases hj : j = e.1
      · subst hj
        rw [List.dlookup_eq_none.mpr hnew, Function.update_self, List.dlookup_cons_eq]
      · rw [List.dlookup_cons_ne _ _ hj, Function.update_of_ne hj]
  funext j
  rw [hput cache.entries store cache.nodupKeys j]
  rfl

end ReadThrough
end Copy2.Lib
