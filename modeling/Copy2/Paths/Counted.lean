import Copy2.Lib.RefCount
import Copy2.Lib.TransitionSystem
import Copy2.Paths.Parts

/-! # Sharing path parts

Threads take references to parts, extend paths and release them, and their steps interleave.
Every reference stands in a word of memory: in a variable of the program, or in the `prev`
field of a part. A part is known by the word at which it begins. -/
namespace Copy2.Paths
open Lib

variable {W : Type}

/-- What a word outside the parts is used for: a handle, or the reference that a call is at
work on. -/
inductive Use (W : Type)
  | free
  | handle (p : W)
  /-- `toStringPart` has counted the reference that the new part will have. -/
  | building (tip : Option W)
  /-- `curRef` at the top of the loop of `stringPartRelease`. -/
  | releasing (p : W)
  /-- The count of the part was `rc`; the call has given up its reference and has not read
  `prev` yet. -/
  | reading (p : W) (rc : ℕ)
  /-- `sTemp`, whose count was at most one, and the `prev` read from it. -/
  | freeing (p : W) (prev : Option W)
deriving DecidableEq

def Use.target : Use W → Option W
  | .handle p | .releasing p => some p
  | .building tip => tip
  | .free | .reading _ _ | .freeing _ _ => none

def Use.frees : Use W → Option W
  | .reading p rc => if rc ≤ 1 then some p else none
  | .freeing p _ => some p
  | .free | .handle _ | .building _ | .releasing _ => none

/-- The parts, the words in use, and whether the message about a count of zero has been
logged, a part has been freed that was not allocated, or such a part has been read. A call
that has given up a reference which was not the last still reads the `prev` of the part:
`lateRead` says that the part had been freed by then. -/
structure State (W : Type) where
  part : W → Option (StringPart W) := fun _ => none
  word : W → Use W := fun _ => .free
  rcZero : Bool := false
  freedTwice : Bool := false
  touchedFreed : Bool := false
  lateRead : Bool := false

namespace State
variable [DecidableEq W] (s : State W)

def setPart (r : W) (p : Option (StringPart W)) : State W :=
  { s with part := Function.update s.part r p }

def setWord (w : W) (u : Use W) : State W := { s with word := Function.update s.word w u }

def ancestor (s : State W) : ℕ → W → Option W
  | 0, p => some p
  | k + 1, p => ((s.part p).bind StringPart.prev).bind (s.ancestor k)

/-- `rc++` on the part `t`. -/
def addRef (t : W) : State W :=
  match s.part t with
  | none => { s with touchedFreed := true }
  | some p => s.setPart t (some { p with rc := (p.rc + 1) % 2 ^ 64 })

/-- `rc--`, which answers the old count. -/
def dropRef (p : StringPart W) (r : W) : ℕ × State W :=
  (p.rc, s.setPart r (some { p with rc := (p.rc + 2 ^ 64 - 1) % 2 ^ 64 }))

end State

inductive Act (W : Type)
  /-- `STRING_PART_RC_INC` on the part `k` steps up from a handle; the new handle is `w`. -/
  | inc (h : W) (k : ℕ) (w : W)
  /-- `toStringPart` begins, on such a part or on none. -/
  | start (tip : Option (W × ℕ)) (w : W)
  /-- It has been given a place for the new part, fills it in and returns. -/
  | finish (w r : W) (data : List UInt8)
  /-- A handle is given to `stringPartRelease`. -/
  | release (w : W)
  /-- The atomic decrement in its loop. -/
  | decrement (w : W)
  /-- `curRef = part->prev`; the loop ends here when the count was not the last. -/
  | readPrev (w : W)
  /-- The part is freed and the loop goes on with its predecessor. -/
  | freePart (w : W)

/-- The part that an action names by a handle and a number of steps. -/
def State.tipOf (s : State W) (h : W) (k : ℕ) : Option W :=
  match s.word h with
  | .handle p => s.ancestor k p
  | _ => none

def next [DecidableEq W] (s : State W) : Act W → Option (State W)
  | .inc h k w =>
    match s.tipOf h k with
    | none => none
    | some t => if s.word w = .free then some ((s.addRef t).setWord w (.handle t)) else none
  | .start none w => if s.word w = .free then some (s.setWord w (.building none)) else none
  | .start (some (h, k)) w =>
    match s.tipOf h k with
    | none => none
    | some t => if s.word w = .free then some ((s.addRef t).setWord w (.building t)) else none
  | .finish w r data =>
    match s.word w, s.part r with
    | .building tip, none =>
      some ((s.setPart r (some { rc := 1, prev := tip, data })).setWord w (.handle r))
    | _, _ => none
  | .release w =>
    match s.word w with
    | .handle p => some (s.setWord w (.releasing p))
    | _ => none
  | .decrement w =>
    match s.word w with
    | .releasing r =>
      match s.part r with
      | none => some ({ s with touchedFreed := true }.setWord w .free)
      | some p =>
        let (rc, s) := s.dropRef p r
        let s := { s with rcZero := s.rcZero || rc == 0 }
        some (s.setWord w (.reading r rc))
    | _ => none
  | .readPrev w =>
    match s.word w with
    | .reading r rc =>
      let gone := (s.part r).isNone
      if rc ≤ 1 then
        some ({ s with touchedFreed := s.touchedFreed || gone }.setWord w
          (.freeing r ((s.part r).bind StringPart.prev)))
      else
        -- what was read is not used
        some ({ s with lateRead := s.lateRead || gone }.setWord w .free)
    | _ => none
  | .freePart w =>
    match s.word w with
    | .freeing r prev =>
      let s := if (s.part r).isNone then { s with freedTwice := true } else s.setPart r none
      some (s.setWord w (prev.elim .free .releasing))
    | _ => none

def system (W : Type) [DecidableEq W] : TransitionSystem (State W) (Act W) where
  init s := s = {}
  next := next

def State.target (s : State W) : W ⊕ W → Option W :=
  Sum.elim (fun w => (s.word w).target) fun r => (s.part r).bind StringPart.prev

def State.refs [Fintype W] [DecidableEq W] (s : State W) (r : W) : ℕ := Lib.refs s.target r

section Targets
variable [DecidableEq W] {s : State W} {r w : W} {u : Use W} {p : Option (StringPart W)}

@[simp] theorem setPart_part : (s.setPart r p).part = Function.update s.part r p := rfl
@[simp] theorem setPart_word : (s.setPart r p).word = s.word := rfl
@[simp] theorem setWord_part : (s.setWord w u).part = s.part := rfl
@[simp] theorem setWord_word : (s.setWord w u).word = Function.update s.word w u := rfl

theorem target_setWord : (s.setWord w u).target = Function.update s.target (.inl w) u.target := by
  funext i
  cases i with
  | inl v =>
    by_cases hv : v = w
    · subst hv
      simp [State.target, State.setWord]
    · simp [State.target, State.setWord, hv]
  | inr v => simp [State.target, State.setWord]

theorem target_setPart :
    (s.setPart r p).target = Function.update s.target (.inr r) (p.bind StringPart.prev) := by
  funext i
  cases i with
  | inl v => simp [State.target, State.setPart]
  | inr v =>
    by_cases hv : v = r
    · subst hv
      simp [State.target, State.setPart]
    · simp [State.target, State.setPart, hv]

variable [Fintype W]

/-- A word is put to another use: its reference goes from one part to another. -/
theorem refs_setWord (x : W) :
    (s.setWord w u).refs x + (if (s.word w).target = some x then 1 else 0) =
      s.refs x + (if u.target = some x then 1 else 0) := by
  rw [State.refs, target_setWord]
  exact refs_update (Sum.inl w) u.target

theorem refs_setPart (x : W) :
    (s.setPart r p).refs x + (if (s.part r).bind StringPart.prev = some x then 1 else 0) =
      s.refs x + (if p.bind StringPart.prev = some x then 1 else 0) := by
  rw [State.refs, target_setPart]
  exact refs_update (Sum.inr r) (p.bind StringPart.prev)

end Targets

section Invariant
variable [DecidableEq W] [Fintype W] {s s' : State W} {r w : W}

/-- Every part in memory counts the references to it; those that have none are about to be
freed, each by one thread; and `prev` leads to parts of lower depth. -/
structure Counted (s : State W) : Prop where
  rc : ∀ r p, s.part r = some p → p.rc = s.refs r
  live : ∀ r, 0 < s.refs r → ∃ p, s.part r = some p
  held : ∀ r p, s.part r = some p → 0 < s.refs r ∨ ∃ w, (s.word w).frees = some r
  freeing : ∀ w r, (s.word w).frees = some r → s.refs r = 0 ∧ ∃ p, s.part r = some p
  once : ∀ w w' r, (s.word w).frees = some r → (s.word w').frees = some r → w = w'
  read : ∀ w r prev p, s.word w = .freeing r prev → s.part r = some p → p.prev = prev
  acyclic : ∃ depth : W → ℕ, ∀ r p t, s.part r = some p → p.prev = some t → depth t < depth r
  clean : s.rcZero = false ∧ s.freedTwice = false ∧ s.touchedFreed = false

theorem refs_of_word (h : (s.word w).target = some r) : 0 < s.refs r :=
  refs_pos (i := Sum.inl w) h

theorem refs_of_prev {p : StringPart W} {t : W} (hp : s.part r = some p) (ht : p.prev = some t) :
    0 < s.refs t := by
  refine refs_pos (i := Sum.inr r) ?_
  rw [State.target, Sum.elim_inr, hp]
  exact ht

theorem Counted.init : Counted ({} : State W) where
  rc _ _ h := nomatch h
  live r h := by
    obtain ⟨i, hi⟩ := exists_of_refs_pos h
    cases i <;> cases hi
  held _ _ h := nomatch h
  freeing _ _ h := nomatch h
  once _ _ _ h := nomatch h
  read _ _ _ _ h := nomatch h
  acyclic := ⟨fun _ => 0, fun _ _ _ h => nomatch h⟩
  clean := ⟨rfl, rfl, rfl⟩

/-- What a handle leads to is referred to. -/
theorem refs_ancestor {k : ℕ} {p t : W} (h : s.ancestor k p = some t) (hp : 0 < s.refs p) :
    0 < s.refs t := by
  induction k generalizing p with
  | zero => exact Option.some.inj h ▸ hp
  | succ k ih =>
    obtain ⟨q, hq, hrest⟩ := Option.bind_eq_some_iff.mp h
    obtain ⟨part, hpart, hprev⟩ := Option.bind_eq_some_iff.mp hq
    exact ih hrest (refs_of_prev hpart hprev)

theorem refs_tipOf {h : W} {k : ℕ} {t : W} (ht : s.tipOf h k = some t) : 0 < s.refs t := by
  rw [State.tipOf] at ht
  split at ht
  · rename_i p hp
    exact refs_ancestor ht (refs_of_word (w := h) (by rw [hp]; rfl))
  · cases ht

omit [Fintype W] in
/-- What a call is going to free, when one word is put to another use. -/
theorem frees_setWord {u : Use W} {v x : W} (h : ((s.setWord w u).word v).frees = some x) :
    (v = w ∧ u.frees = some x) ∨ (v ≠ w ∧ (s.word v).frees = some x) := by
  rw [setWord_word] at h
  by_cases hv : v = w
  · subst hv
    rw [Function.update_self] at h
    exact .inl ⟨rfl, h⟩
  · rw [Function.update_of_ne hv] at h
    exact .inr ⟨hv, h⟩

omit [Fintype W] in
theorem setWord_freeing {u : Use W} {v x : W} {prev : Option W}
    (h : (s.setWord w u).word v = .freeing x prev) :
    (v = w ∧ u = .freeing x prev) ∨ (v ≠ w ∧ s.word v = .freeing x prev) := by
  rw [setWord_word] at h
  by_cases hv : v = w
  · subst hv
    rw [Function.update_self] at h
    exact .inl ⟨rfl, h⟩
  · rw [Function.update_of_ne hv] at h
    exact .inr ⟨hv, h⟩

section Set
omit [Fintype W]
variable {v x : W} {u : Use W} {p : Option (StringPart W)}

theorem set_part_self : ((s.setPart r p).setWord w u).part r = p := by
  rw [setWord_part, setPart_part, Function.update_self]

theorem set_part_of_ne (h : x ≠ r) : ((s.setPart r p).setWord w u).part x = s.part x := by
  rw [setWord_part, setPart_part, Function.update_of_ne h]

/-- Whoever is going to free a part still is when another word is put to use. -/
theorem frees_set (h : (s.word v).frees = some x) (hw : (s.word w).frees ≠ some x) :
    (((s.setPart r p).setWord w u).word v).frees = some x := by
  have hvw : v ≠ w := by
    rintro rfl
    exact hw h
  rw [setWord_word, setPart_word, Function.update_of_ne hvw, h]

end Set

/-- A word is put to another use for the same reference, or for the same part to free. -/
theorem Counted.sameWord (h : Counted s) {u : Use W} (htarget : (s.word w).target = u.target)
    (hfrees : (s.word w).frees = u.frees)
    (hread : ∀ r prev p, u = .freeing r prev → s.part r = some p → p.prev = prev) :
    Counted (s.setWord w u) := by
  have hrefs (x : W) : (s.setWord w u).refs x = s.refs x := by
    have hx := refs_setWord (s := s) (w := w) (u := u) x
    rw [htarget] at hx
    exact Nat.add_right_cancel hx
  have hword (v : W) : ((s.setWord w u).word v).frees = (s.word v).frees := by
    rw [setWord_word]
    by_cases hvw : v = w
    · subst hvw
      rw [Function.update_self, hfrees]
    · rw [Function.update_of_ne hvw]
  refine ⟨fun r p hp => ?_, fun r hr => ?_, fun r p hp => ?_, fun v r hv => ?_, fun v v' r hv hv' => ?_,
    fun v r prev p hv hp => ?_, h.acyclic, h.clean⟩
  · rw [hrefs]
    exact h.rc r p hp
  · rw [hrefs] at hr
    exact h.live r hr
  · rw [hrefs]
    exact (h.held r p hp).imp_right fun ⟨v, hv⟩ => ⟨v, (hword v).trans hv⟩
  · rw [hrefs]
    exact h.freeing v r ((hword v).symm.trans hv)
  · exact h.once v v' r ((hword v).symm.trans hv) ((hword v').symm.trans hv')
  · rcases setWord_freeing hv with ⟨-, hu⟩ | ⟨-, hv⟩
    · exact hread r prev p hu hp
    · exact h.read v r prev p hv hp

/-- Changing the count of a part changes no reference. -/
theorem refs_setRc {p : StringPart W} (hp : s.part r = some p) (n : ℕ) (x : W) :
    (s.setPart r (some { p with rc := n })).refs x = s.refs x := by
  have hx := refs_setPart (s := s) (r := r) (p := some { p with rc := n }) x
  rw [hp] at hx
  exact Nat.add_right_cancel hx

theorem refs_lt (hcard : Fintype.card W ≤ 2 ^ 61) (s : State W) (r : W) : s.refs r + 1 < 2 ^ 64 := by
  have hle : s.refs r ≤ Fintype.card (W ⊕ W) := refs_le_card
  rw [Fintype.card_sum] at hle
  omega

/-- A free word takes a reference to a part that is referred to. -/
theorem Counted.take (hcard : Fintype.card W ≤ 2 ^ 61) (h : Counted s) {t : W} {u : Use W}
    (ht : 0 < s.refs t) (hw : s.word w = .free) (hu : u.target = some t)
    (hnew : u.frees = none) : Counted ((s.addRef t).setWord w u) := by
  obtain ⟨p, hp⟩ := h.live t ht
  have hlt := refs_lt hcard s t
  have hadd : s.addRef t = s.setPart t (some { p with rc := s.refs t + 1 }) := by
    rw [State.addRef, hp, ← h.rc t p hp]
    dsimp only
    rw [Nat.mod_eq_of_lt (by rw [h.rc t p hp]; exact hlt)]
  rw [hadd]
  set s' := (s.setPart t (some { p with rc := s.refs t + 1 })).setWord w u with hs'
  have hrefs (x : W) : s'.refs x = s.refs x + if t = x then 1 else 0 := by
    have hx := refs_setWord (s := s.setPart t (some { p with rc := s.refs t + 1 })) (w := w)
      (u := u) x
    rw [refs_setRc hp, hu, setPart_word, hw] at hx
    simpa [Use.target] using hx
  have hpart {r : W} {q : StringPart W} (hq : s'.part r = some q) : ∃ q', s.part r = some q' ∧
      q.prev = q'.prev ∧ q.rc = q'.rc + if t = r then 1 else 0 := by
    by_cases hr : r = t
    · subst hr
      rw [hs', set_part_self] at hq
      obtain rfl := Option.some.inj hq
      exact ⟨p, hp, rfl, by simp [h.rc r p hp]⟩
    · rw [hs', set_part_of_ne hr] at hq
      exact ⟨q, hq, rfl, by rw [if_neg (Ne.symm hr), Nat.add_zero]⟩
  have hkeep {r : W} {q' : StringPart W} (hq : s.part r = some q') : ∃ q, s'.part r = some q := by
    by_cases hr : r = t
    · subst hr
      exact ⟨_, set_part_self⟩
    · exact ⟨q', (set_part_of_ne hr).trans hq⟩
  have hword {v r : W} (hv : (s'.word v).frees = some r) : (s.word v).frees = some r := by
    rcases frees_setWord hv with ⟨-, hu⟩ | ⟨-, hv⟩
    · rw [hnew] at hu
      cases hu
    · exact hv
  refine ⟨fun r q hq => ?_, fun r hr => ?_, fun r q hq => ?_, fun v r hv => ?_,
    fun v v' r hv hv' => h.once v v' r (hword hv) (hword hv'), fun v r prev q hv hq => ?_, ?_,
    h.clean⟩
  · obtain ⟨q', hq', -, hrc⟩ := hpart hq
    rw [hrefs, hrc, h.rc r q' hq']
  · by_cases htr : t = r
    · exact hkeep (htr ▸ hp)
    · rw [hrefs, if_neg htr] at hr
      obtain ⟨q', hq'⟩ := h.live r hr
      exact hkeep hq'
  · obtain ⟨q', hq', -⟩ := hpart hq
    refine (h.held r q' hq').imp (fun hpos => ?_) fun ⟨v, hv⟩ => ⟨v, ?_⟩
    · rw [hrefs]
      omega
    · exact frees_set hv (by simp [hw, Use.frees])
  · obtain ⟨hzero, q', hq'⟩ := h.freeing v r (hword hv)
    refine ⟨?_, hkeep hq'⟩
    have hne : t ≠ r := by
      rintro rfl
      omega
    rw [hrefs, if_neg hne, hzero]
  · obtain ⟨q', hq', hprev, -⟩ := hpart hq
    rcases setWord_freeing hv with ⟨-, hu⟩ | ⟨-, hv⟩
    · rw [hu] at hnew
      cases hnew
    · exact hprev.trans (h.read v r prev q' hv hq')
  · obtain ⟨depth, hdepth⟩ := h.acyclic
    refine ⟨depth, fun r q t hq ht => ?_⟩
    obtain ⟨q', hq', hprev, -⟩ := hpart hq
    exact hdepth r q' t hq' (hprev ▸ ht)

/-- The new part is filled in: it takes over the reference to its tip, and the caller has the
only one to it. -/
theorem Counted.finish (h : Counted s) {tip : Option W} (hw : s.word w = .building tip)
    (hr : s.part r = none) (data : List UInt8) :
    Counted ((s.setPart r (some { rc := 1, prev := tip, data })).setWord w (.handle r)) := by
  set p : StringPart W := { rc := 1, prev := tip, data }
  set s' := (s.setPart r (some p)).setWord w (.handle r) with hs'
  have hnone : s.refs r = 0 := by
    by_contra hne
    obtain ⟨q, hq⟩ := h.live r (Nat.pos_of_ne_zero hne)
    rw [hr] at hq
    cases hq
  have hrefs (x : W) : s'.refs x = s.refs x + if r = x then 1 else 0 := by
    have hx := refs_setWord (s := s.setPart r (some p)) (w := w) (u := .handle r) x
    have hy := refs_setPart (s := s) (r := r) (p := some p) x
    rw [setPart_word, hw] at hx
    rw [hr] at hy
    simp only [Use.target, Option.some.injEq] at hx
    simp only [Option.bind_none, reduceCtorEq, if_false, Nat.add_zero, Option.bind_some] at hy
    change s'.refs x + (if tip = some x then 1 else 0) = _ at hx
    change _ = s.refs x + (if tip = some x then 1 else 0) at hy
    omega
  have hpart {x : W} (hx : x ≠ r) : s'.part x = s.part x := set_part_of_ne hx
  have hself : s'.part r = some p := set_part_self
  have hword {v x : W} (hv : (s'.word v).frees = some x) : (s.word v).frees = some x := by
    rcases frees_setWord hv with ⟨-, hu⟩ | ⟨-, hv⟩
    · cases hu
    · exact hv
  have hne {x : W} {q : StringPart W} (hq : s.part x = some q) : x ≠ r := by
    rintro rfl
    rw [hr] at hq
    cases hq
  refine ⟨fun x q hq => ?_, fun x hx => ?_, fun x q hq => ?_, fun v x hv => ?_,
    fun v v' x hv hv' => h.once v v' x (hword hv) (hword hv'), fun v x prev q hv hq => ?_, ?_,
    h.clean⟩
  · by_cases hx : x = r
    · subst hx
      obtain rfl := Option.some.inj (hself.symm.trans hq)
      rw [hrefs, hnone, if_pos rfl]
    · rw [hpart hx] at hq
      rw [hrefs, if_neg (Ne.symm hx), h.rc x q hq, Nat.add_zero]
  · by_cases hxr : x = r
    · exact hxr ▸ ⟨p, hself⟩
    · rw [hrefs, if_neg (Ne.symm hxr)] at hx
      obtain ⟨q, hq⟩ := h.live x hx
      exact ⟨q, (hpart hxr).trans hq⟩
  · by_cases hx : x = r
    · refine .inl ?_
      rw [hrefs, if_pos hx.symm]
      omega
    · rw [hpart hx] at hq
      refine (h.held x q hq).imp (fun hpos => ?_) fun ⟨v, hv⟩ => ⟨v, ?_⟩
      · rw [hrefs]
        omega
      · exact frees_set hv (by simp [hw, Use.frees])
  · obtain ⟨hzero, q, hq⟩ := h.freeing v x (hword hv)
    refine ⟨?_, q, (hpart (hne hq)).trans hq⟩
    rw [hrefs, hzero, if_neg (Ne.symm (hne hq))]
  · rcases setWord_freeing hv with ⟨-, hu⟩ | ⟨-, hv⟩
    · cases hu
    · obtain ⟨-, q', hq'⟩ := h.freeing v x (by rw [show s.word v = .freeing x prev from hv]; rfl)
      rw [hpart (hne hq')] at hq
      exact h.read v x prev q hv hq
  · obtain ⟨depth, hdepth⟩ := h.acyclic
    refine ⟨Function.update depth r (tip.elim 0 fun t => depth t + 1), fun x q t hq ht => ?_⟩
    have htr : t ≠ r := by
      rintro rfl
      by_cases hx : x = t
      · subst hx
        obtain rfl := Option.some.inj (hself.symm.trans hq)
        have := refs_of_word (s := s) (w := w) (r := x) (by rw [hw]; exact ht)
        omega
      · rw [hpart hx] at hq
        have := refs_of_prev hq ht
        omega
    rw [Function.update_of_ne htr]
    by_cases hx : x = r
    · subst hx
      obtain rfl := Option.some.inj (hself.symm.trans hq)
      obtain rfl : tip = some t := ht
      rw [Function.update_self]
      exact Nat.lt_succ_self _
    · rw [hpart hx] at hq
      rw [Function.update_of_ne hx]
      exact hdepth x q t hq ht

/-- The loop gives up its reference to a part; whoever gives up the last one frees the part. -/
theorem Counted.decrement (hcard : Fintype.card W ≤ 2 ^ 61) (h : Counted s)
    (hw : s.word w = .releasing r) (hs : next s (.decrement w) = some s') : Counted s' := by
  have hpos : 0 < s.refs r := refs_of_word (w := w) (by rw [hw]; rfl)
  obtain ⟨p, hp⟩ := h.live r hpos
  have hrc := h.rc r p hp
  have hlt := refs_lt hcard s r
  have hcount : (p.rc + 2 ^ 64 - 1) % 2 ^ 64 = s.refs r - 1 := by omega
  have hzero : (s.rcZero || p.rc == 0) = s.rcZero := by
    rw [beq_false_of_ne (by omega), Bool.or_false]
  set u : Use W := .reading r p.rc with hu
  have hs' : s' = (s.setPart r (some { p with rc := s.refs r - 1 })).setWord w u := by
    simp only [next, hw, hp, State.dropRef, hcount, Option.some.injEq] at hs
    rw [← hs]
    simp only [State.setWord, State.setPart, hzero]
    rfl
  have hutarget : u.target = none := rfl
  have hrefs (x : W) : s'.refs x + (if r = x then 1 else 0) = s.refs x := by
    have hx := refs_setWord (s := s.setPart r (some { p with rc := s.refs r - 1 })) (w := w)
      (u := u) x
    rw [refs_setRc hp, hutarget, setPart_word, hw, ← hs'] at hx
    simpa [Use.target] using hx
  have hpart {x : W} (hx : x ≠ r) : s'.part x = s.part x := by rw [hs', set_part_of_ne hx]
  have hself : s'.part r = some { p with rc := s.refs r - 1 } := by rw [hs', set_part_self]
  have hword {v x : W} (hv : (s'.word v).frees = some x) :
      (v ≠ w ∧ (s.word v).frees = some x ∧ x ≠ r) ∨ (v = w ∧ x = r ∧ p.rc ≤ 1) := by
    rw [hs'] at hv
    rcases frees_setWord hv with ⟨hvw, hlast⟩ | ⟨hvw, hv⟩
    · obtain ⟨hle, hx⟩ := Option.ite_none_right_eq_some.mp hlast
      exact .inr ⟨hvw, (Option.some.inj hx).symm, hle⟩
    · refine .inl ⟨hvw, hv, ?_⟩
      rintro rfl
      have := (h.freeing v x hv).1
      omega
  have hfreeing {x v : W} (hv : (s.word v).frees = some x) : (s'.word v).frees = some x := by
    rw [hs']
    exact frees_set hv (by simp [hw, Use.frees])
  refine ⟨fun x q hq => ?_, fun x hx => ?_, fun x q hq => ?_, fun v x hv => ?_,
    fun v v' x hv hv' => ?_, fun v x prev q hv hq => ?_, ?_, ?_⟩
  · have hx := hrefs x
    by_cases hxr : x = r
    · subst hxr
      obtain rfl := Option.some.inj (hself.symm.trans hq)
      rw [if_pos rfl] at hx
      change s.refs x - 1 = _
      omega
    · rw [hpart hxr] at hq
      rw [if_neg (Ne.symm hxr)] at hx
      rw [h.rc x q hq, ← hx, Nat.add_zero]
  · by_cases hxr : x = r
    · exact hxr ▸ ⟨_, hself⟩
    · have hold := hrefs x
      obtain ⟨q, hq⟩ := h.live x (by omega)
      exact ⟨q, (hpart hxr).trans hq⟩
  · have hx := hrefs x
    by_cases hxr : x = r
    · subst hxr
      rw [if_pos rfl] at hx
      rcases Nat.lt_or_ge 0 (s'.refs x) with hleft | hnone
      · exact .inl hleft
      · refine .inr ⟨w, ?_⟩
        rw [hs', setWord_word, Function.update_self, hu, Use.frees, if_pos (by omega)]
    · rw [hpart hxr] at hq
      rw [if_neg (Ne.symm hxr)] at hx
      refine (h.held x q hq).imp (fun hpos => ?_) fun ⟨v, hv⟩ => ⟨v, hfreeing hv⟩
      omega
  · have hx := hrefs x
    rcases hword hv with ⟨-, hv, hxr⟩ | ⟨-, rfl, hle⟩
    · obtain ⟨hzero, q, hq⟩ := h.freeing v x hv
      exact ⟨by omega, q, (hpart hxr).trans hq⟩
    · rw [if_pos rfl] at hx
      exact ⟨by omega, _, hself⟩
  · rcases hword hv with ⟨-, hv, hxr⟩ | ⟨rfl, rfl, -⟩
    · rcases hword hv' with ⟨-, hv', -⟩ | ⟨-, hx, -⟩
      · exact h.once v v' x hv hv'
      · exact absurd hx hxr
    · rcases hword hv' with ⟨-, -, hxr⟩ | ⟨rfl, -, -⟩
      · exact absurd rfl hxr
      · rfl
  · rw [hs'] at hv
    rcases setWord_freeing hv with ⟨-, hv⟩ | ⟨hvw, hv⟩
    · rw [hu] at hv
      cases hv
    · by_cases hxr : x = r
      · subst hxr
        obtain rfl := Option.some.inj (hself.symm.trans hq)
        exact h.read v x prev p hv hp
      · rw [hpart hxr] at hq
        exact h.read v x prev q hv hq
  · obtain ⟨depth, hdepth⟩ := h.acyclic
    refine ⟨depth, fun x q t hq ht => ?_⟩
    by_cases hxr : x = r
    · subst hxr
      obtain rfl := Option.some.inj (hself.symm.trans hq)
      exact hdepth x p t hp ht
    · rw [hpart hxr] at hq
      exact hdepth x q t hq ht
  · rw [hs']
    exact h.clean

/-- The `prev` of a part that the call is going to free is read while the part is there; any
other is not used. -/
theorem Counted.readPrev (h : Counted s) {rc : ℕ} (hw : s.word w = .reading r rc)
    (hs : next s (.readPrev w) = some s') : Counted s' := by
  simp only [Paths.next, hw] at hs
  split at hs
  · rename_i hle
    have hlast : (s.word w).frees = some r := by rw [hw, Use.frees, if_pos hle]
    obtain ⟨-, p, hp⟩ := h.freeing w r hlast
    have hsame : s' = s.setWord w (.freeing r p.prev) := by
      simp only [hp, Option.isNone_some, Bool.or_false, Option.bind_some, Option.some.injEq] at hs
      exact hs.symm
    rw [hsame]
    refine h.sameWord (by rw [hw]; rfl) hlast fun x prev q hu hq => ?_
    obtain ⟨rfl, rfl⟩ := Use.freeing.inj hu
    rw [hp] at hq
    rw [Option.some.inj hq]
  · rename_i hmore
    obtain rfl := Option.some.inj hs
    have hword := h.sameWord (w := w) (u := .free) (by rw [hw]; rfl)
      (by rw [hw, Use.frees, if_neg hmore]; rfl) fun r prev p hu => nomatch hu
    exact ⟨hword.rc, hword.live, hword.held, hword.freeing, hword.once, hword.read,
      hword.acyclic, hword.clean⟩

/-- A part without references is freed; the loop takes over its reference to its
predecessor. -/
theorem Counted.freePart (h : Counted s) {prev : Option W} (hw : s.word w = .freeing r prev)
    (hs : next s (.freePart w) = some s') : Counted s' := by
  have hlast : (s.word w).frees = some r := by rw [hw]; rfl
  obtain ⟨hzero, p, hp⟩ := h.freeing w r hlast
  have hprev : p.prev = prev := h.read w r prev p hw hp
  set u : Use W := prev.elim .free .releasing with hu
  have hs' : s' = (s.setPart r none).setWord w u := by
    simp only [next, hw, hp, Option.some.injEq] at hs
    exact hs.symm
  have hutarget : u.target = p.prev := by
    rw [hu, hprev]
    cases prev <;> rfl
  have hufrees : u.frees = none := by
    rw [hu]
    cases prev <;> rfl
  have hrefs (x : W) : s'.refs x = s.refs x := by
    have hx := refs_setWord (s := s.setPart r none) (w := w) (u := u) x
    have hy := refs_setPart (s := s) (r := r) (p := none) x
    rw [hutarget, setPart_word, hw, ← hs'] at hx
    rw [hp] at hy
    simp only [Use.target, reduceCtorEq, if_false, Nat.add_zero] at hx
    simp only [Option.bind_some, Option.bind_none, reduceCtorEq, if_false, Nat.add_zero] at hy
    omega
  have hpart {x : W} (hx : x ≠ r) : s'.part x = s.part x := by rw [hs', set_part_of_ne hx]
  have hself : s'.part r = none := by rw [hs', set_part_self]
  have hof {x : W} {q : StringPart W} (hq : s'.part x = some q) : x ≠ r ∧ s.part x = some q := by
    have hxr : x ≠ r := by
      rintro rfl
      rw [hself] at hq
      cases hq
    exact ⟨hxr, hpart hxr ▸ hq⟩
  have hword {v x : W} (hv : (s'.word v).frees = some x) :
      v ≠ w ∧ (s.word v).frees = some x := by
    rw [hs'] at hv
    rcases frees_setWord hv with ⟨-, hv⟩ | hv
    · rw [hufrees] at hv
      cases hv
    · exact hv
  refine ⟨fun x q hq => ?_, fun x hx => ?_, fun x q hq => ?_, fun v x hv => ?_,
    fun v v' x hv hv' => h.once v v' x (hword hv).2 (hword hv').2, fun v x prev q hv hq => ?_, ?_,
    ?_⟩
  · rw [hrefs]
    exact h.rc x q (hof hq).2
  · rw [hrefs] at hx
    obtain ⟨q, hq⟩ := h.live x hx
    refine ⟨q, (hpart ?_).trans hq⟩
    rintro rfl
    omega
  · obtain ⟨hxr, hq⟩ := hof hq
    rw [hrefs]
    refine (h.held x q hq).imp_right fun ⟨v, hv⟩ => ⟨v, ?_⟩
    rw [hs']
    exact frees_set hv fun hx => hxr (Option.some.inj (hx.symm.trans hlast))
  · obtain ⟨hvw, hv⟩ := hword hv
    obtain ⟨hzero, q, hq⟩ := h.freeing v x hv
    refine ⟨(hrefs x).trans hzero, q, (hpart ?_).trans hq⟩
    rintro rfl
    exact hvw (h.once v w x hv hlast)
  · rw [hs'] at hv
    rcases setWord_freeing hv with ⟨-, hv⟩ | ⟨-, hv⟩
    · rw [hv] at hufrees
      cases hufrees
    · exact h.read v x prev q hv (hof hq).2
  · obtain ⟨depth, hdepth⟩ := h.acyclic
    exact ⟨depth, fun x q t hq ht => hdepth x q t (hof hq).2 ht⟩
  · rw [hs']
    exact h.clean

theorem Counted.next (hcard : Fintype.card W ≤ 2 ^ 61) (h : Counted s) {a : Act W}
    (hs : next s a = some s') : Counted s' := by
  cases a with
  | inc v k w =>
    simp only [Paths.next] at hs
    split at hs
    · cases hs
    · rename_i t ht
      obtain ⟨hfree, hs⟩ := Option.ite_none_right_eq_some.mp hs
      obtain rfl := Option.some.inj hs
      exact h.take hcard (refs_tipOf ht) hfree rfl rfl
  | start tip w =>
    cases tip with
    | none =>
      obtain ⟨hfree, hs⟩ := Option.ite_none_right_eq_some.mp hs
      obtain rfl := Option.some.inj hs
      exact h.sameWord (by rw [hfree]; rfl) (by rw [hfree]; rfl) fun r prev p hu => nomatch hu
    | some x =>
      simp only [Paths.next] at hs
      split at hs
      · cases hs
      · rename_i t ht
        obtain ⟨hfree, hs⟩ := Option.ite_none_right_eq_some.mp hs
        obtain rfl := Option.some.inj hs
        exact h.take hcard (refs_tipOf ht) hfree rfl rfl
  | finish w r data =>
    simp only [Paths.next] at hs
    split at hs
    · rename_i tip hw hr
      obtain rfl := Option.some.inj hs
      exact h.finish hw hr data
    · cases hs
  | release w =>
    simp only [Paths.next] at hs
    split at hs
    · rename_i p hw
      obtain rfl := Option.some.inj hs
      exact h.sameWord (by rw [hw]; rfl) (by rw [hw]; rfl) fun r prev p hu => nomatch hu
    · cases hs
  | decrement w =>
    cases hw : s.word w with
    | releasing r => exact h.decrement hcard hw hs
    | _ =>
      simp only [Paths.next, hw] at hs
      cases hs
  | readPrev w =>
    cases hw : s.word w with
    | reading r rc => exact h.readPrev hw hs
    | _ =>
      simp only [Paths.next, hw] at hs
      cases hs
  | freePart w =>
    cases hw : s.word w with
    | freeing r prev => exact h.freePart hw hs
    | _ =>
      simp only [Paths.next, hw] at hs
      cases hs

/-- Without handles and calls there are no parts: the deepest one would have no reference. -/
theorem Counted.none_left (h : Counted s) (hfree : ∀ w, s.word w = .free) (r : W) :
    s.part r = none := by
  by_contra hr
  obtain ⟨depth, hdepth⟩ := h.acyclic
  let live := Finset.univ.filter fun r => (s.part r).isSome = true
  have hmem {x : W} : x ∈ live ↔ ∃ q, s.part x = some q := by
    simp [live, Option.isSome_iff_exists]
  obtain ⟨x, hx, hmax⟩ := live.exists_max_image depth
    ⟨r, hmem.mpr (Option.ne_none_iff_exists'.mp hr)⟩
  obtain ⟨p, hp⟩ := hmem.mp hx
  rcases h.held x p hp with hpos | ⟨w, hw⟩
  · obtain ⟨i, hi⟩ := exists_of_refs_pos hpos
    cases i with
    | inl w =>
      rw [State.target, Sum.elim_inl, hfree w] at hi
      cases hi
    | inr y =>
      obtain ⟨q, hq, hprev⟩ := Option.bind_eq_some_iff.mp hi
      exact absurd (hdepth y q x hq hprev) (Nat.not_lt.mpr (hmax y (hmem.mpr ⟨q, hq⟩)))
  · rw [hfree w] at hw
    cases hw

theorem Counted.reach (hcard : Fintype.card W ≤ 2 ^ 61)
    (h : (system W).Reach (fun _ _ => True) s) : Counted s := by
  refine h.invariant ?_ fun _ _ _ hi _ hnext => hi.next hcard hnext
  rintro _ rfl
  exact .init

end Invariant

end Copy2.Paths
