import Copy2.Paths.Counted

/-! # Releasing path parts

Without handles and calls no part is left, every release can be brought to its end, and none
frees a part that is in use. -/
namespace Copy2.Paths
open Lib

variable {W : Type}

section Progress
variable [DecidableEq W] [Fintype W] {s s' : State W} {r w : W}

/-- The steps that give up handles and bring the calls of `stringPartRelease` to their end. -/
def Act.GivesUp : Act W → Prop
  | .release _ | .decrement _ | .readPrev _ | .freePart _ => True
  | .inc _ _ _ | .start _ _ | .finish _ _ _ => False

/-- How many of these steps a word has before it, as long as `freePart` meets no predecessor. -/
def Use.weight : Use W → ℕ
  | .free => 0
  | .freeing _ _ => 1
  | .reading _ _ => 2
  | .releasing _ => 3
  | .handle _ | .building _ => 4

def State.parts (s : State W) : ℕ := count fun r => (s.part r).isSome

/-- What remains to be done: a part that is freed pays for going on with its predecessor. -/
def State.remaining (s : State W) : ℕ := 4 * s.parts + ∑ w, (s.word w).weight

theorem parts_setPart_some {p q : StringPart W} (hp : s.part r = some p) :
    (s.setPart r (some q)).parts = s.parts := by
  refine congrArg count (funext fun x => ?_)
  by_cases hx : x = r
  · rw [hx, setPart_part, Function.update_self, hp]
    rfl
  · rw [setPart_part, Function.update_of_ne hx]

theorem parts_setPart_none {p : StringPart W} (hp : s.part r = some p) :
    (s.setPart r none).parts + 1 = s.parts := by
  have hupdate : (fun x => ((s.setPart r none).part x).isSome) =
      Function.update (fun x => (s.part x).isSome) r false := by
    funext x
    by_cases hx : x = r
    · rw [hx, setPart_part, Function.update_self, Function.update_self]
      rfl
    · rw [setPart_part, Function.update_of_ne hx, Function.update_of_ne hx]
  rw [State.parts, hupdate]
  exact count_update_false (p := fun x => (s.part x).isSome) (by rw [hp]; rfl)

/-- A step of a release puts one word to another use and lowers what remains to be done. -/
theorem Counted.givesUp (h : Counted s) {a : Act W} (ha : a.GivesUp)
    (hs : Paths.next s a = some s') :
    ∃ w u, s'.word = Function.update s.word w u ∧ (∀ tip, u ≠ .building tip) ∧
      4 * s'.parts + u.weight < 4 * s.parts + (s.word w).weight := by
  cases a with
  | inc v k w => exact ha.elim
  | start tip w => exact ha.elim
  | finish w r data => exact ha.elim
  | release w =>
    simp only [Paths.next] at hs
    split at hs
    · rename_i p hw
      obtain rfl := Option.some.inj hs
      refine ⟨w, .releasing p, rfl, (fun tip hu => by cases hu), ?_⟩
      rw [hw]
      exact Nat.lt_succ_self _
    · cases hs
  | decrement w =>
    cases hw : s.word w with
    | releasing r =>
      obtain ⟨p, hp⟩ := h.live r (refs_of_word (w := w) (by rw [hw]; rfl))
      simp only [Paths.next, hw, hp] at hs
      obtain rfl := Option.some.inj hs
      refine ⟨w, .reading r p.rc, rfl, (fun tip hu => by cases hu), ?_⟩
      have hparts := parts_setPart_some (q := { p with rc := (p.rc + 2 ^ 64 - 1) % 2 ^ 64 }) hp
      change 4 * (s.setPart r (some { p with rc := (p.rc + 2 ^ 64 - 1) % 2 ^ 64 })).parts + 2 < _
      rw [hparts, hw]
      exact Nat.lt_succ_self _
    | _ =>
      simp only [Paths.next, hw] at hs
      cases hs
  | readPrev w =>
    cases hw : s.word w with
    | reading r rc =>
      simp only [Paths.next, hw] at hs
      split at hs
      · obtain rfl := Option.some.inj hs
        refine ⟨w, _, rfl, (fun tip hu => by cases hu), ?_⟩
        rw [hw]
        exact Nat.lt_succ_self _
      · obtain rfl := Option.some.inj hs
        refine ⟨w, .free, rfl, (fun tip hu => by cases hu), ?_⟩
        rw [hw]
        exact Nat.lt_add_of_pos_right Nat.two_pos
    | _ =>
      simp only [Paths.next, hw] at hs
      cases hs
  | freePart w =>
    cases hw : s.word w with
    | freeing r prev =>
      obtain ⟨-, p, hp⟩ := h.freeing w r (by rw [hw]; rfl)
      simp only [Paths.next, hw, hp] at hs
      obtain rfl := Option.some.inj hs
      have hparts := parts_setPart_none hp
      refine ⟨w, prev.elim .free .releasing, rfl, fun tip hu => ?_, ?_⟩
      · cases prev <;> cases hu
      · have hweight : (prev.elim Use.free Use.releasing).weight ≤ 3 := by
          cases prev <;> simp [Use.weight]
        change 4 * (s.setPart r none).parts + _ < _
        rw [hw, ← hparts]
        change _ < _ + 1
        omega
    | _ =>
      simp only [Paths.next, hw] at hs
      cases hs

theorem Counted.remaining_lt (h : Counted s) {a : Act W} (ha : a.GivesUp)
    (hs : Paths.next s a = some s') : s'.remaining < s.remaining := by
  obtain ⟨w, u, hword, -, hlt⟩ := h.givesUp ha hs
  have hsum := sum_add_of_one (f := fun v => (s.word v).weight)
    (g := fun v => (s'.word v).weight) w fun v hv => by
      rw [hword, Function.update_of_ne hv]
  rw [show (s'.word w).weight = u.weight by rw [hword, Function.update_self]] at hsum
  rw [State.remaining, State.remaining]
  omega

omit [Fintype W] in
/-- No call of `stringPartRelease` is ever stuck, and no handle. -/
theorem exists_givesUp (hfree : s.word w ≠ .free) (hbuilding : ∀ tip, s.word w ≠ .building tip) :
    ∃ a s', a.GivesUp ∧ Paths.next s a = some s' := by
  cases hw : s.word w with
  | free => exact absurd hw hfree
  | building tip => exact absurd hw (hbuilding tip)
  | handle p => exact ⟨.release w, _, trivial, by simp only [Paths.next, hw]; rfl⟩
  | releasing r =>
    cases hp : s.part r with
    | none => exact ⟨.decrement w, _, trivial, by simp only [Paths.next, hw, hp]; rfl⟩
    | some p => exact ⟨.decrement w, _, trivial, by simp only [Paths.next, hw, hp]; rfl⟩
  | reading r rc =>
    by_cases hle : rc ≤ 1
    · exact ⟨.readPrev w, _, trivial, by simp only [Paths.next, hw, if_pos hle]; rfl⟩
    · exact ⟨.readPrev w, _, trivial, by simp only [Paths.next, hw, if_neg hle]; rfl⟩
  | freeing r prev => exact ⟨.freePart w, _, trivial, by simp only [Paths.next, hw]; rfl⟩

/-- Where no path is being built, every handle can be given up and every release be brought to
its end. -/
theorem Counted.release_all (hcard : Fintype.card W ≤ 2 ^ 61) (h : Counted s)
    (hbuilding : ∀ w tip, s.word w ≠ .building tip) :
    ∃ t, (system W).Run (fun _ a => a.GivesUp) s t ∧ (∀ w, t.word w = .free) ∧
      ∀ r, t.part r = none := by
  induction hn : s.remaining using Nat.strong_induction_on generalizing s with
  | _ n ih =>
    by_cases hfree : ∀ w, s.word w = .free
    · exact ⟨s, .nil s, hfree, h.none_left hfree⟩
    · push Not at hfree
      obtain ⟨w, hw⟩ := hfree
      obtain ⟨a, s', ha, hs⟩ := exists_givesUp hw (hbuilding w)
      obtain ⟨v, u, hword, hu, -⟩ := h.givesUp ha hs
      have hstill (x : W) (tip : Option W) : s'.word x ≠ .building tip := by
        rw [hword]
        by_cases hx : x = v
        · rw [hx, Function.update_self]
          exact hu tip
        · rw [Function.update_of_ne hx]
          exact hbuilding x tip
      obtain ⟨t, hrun, hend⟩ := ih _ (hn ▸ h.remaining_lt ha hs) (h.next hcard hs) hstill rfl
      have hstep : (system W).Run (fun _ a => a.GivesUp) s s' := .single ha hs
      exact ⟨t, hstep.trans hrun, hend⟩

omit [Fintype W] in
theorem exists_finish {tip : Option W} (data : List UInt8) (hw : s.word w = .building tip)
    (hr : s.part r = none) : ∃ t, Paths.next s (.finish w r data) = some t ∧
      t.word w = .handle r ∧ t.part r = some { prev := tip, data } := by
  refine ⟨(s.setPart r (some { prev := tip, data })).setWord w (.handle r), ?_, ?_, ?_⟩
  · simp only [Paths.next, hw, hr]
  · rw [setWord_word, Function.update_self]
  · rw [setWord_part, setPart_part, Function.update_self]

/-- `toStringPart` extends the path of a handle, or begins one. -/
theorem Counted.build (h : Counted s) {tip : Option W} (data : List UInt8)
    (htip : ∀ p ∈ tip, ∃ v, s.word v = .handle p) (hw : s.word w = .free) (hr : s.part r = none) :
    ∃ t, (system W).Run (fun _ _ => True) s t ∧ t.word w = .handle r ∧
      t.part r = some { prev := tip, data } := by
  obtain ⟨a, u, hstart, hword, hnone⟩ : ∃ a u, (system W).next s a = some u ∧
      u.word w = .building tip ∧ u.part r = none := by
    cases tip with
    | none =>
      refine ⟨.start none w, s.setWord w (.building none), if_pos hw, ?_, hr⟩
      rw [setWord_word, Function.update_self]
    | some p =>
      obtain ⟨v, hv⟩ := htip p rfl
      obtain ⟨q, hq⟩ := h.live p (refs_of_word (w := v) (by rw [hv]; rfl))
      have hpr : r ≠ p := by
        rintro rfl
        rw [hr] at hq
        cases hq
      refine ⟨.start (some (v, 0)) w, (s.addRef p).setWord w (.building (some p)), ?_, ?_, ?_⟩
      · simp only [system, Paths.next, State.tipOf, hv, State.ancestor, if_pos hw]
      · rw [setWord_word, Function.update_self]
      · rw [setWord_part, State.addRef, hq]
        exact (Function.update_of_ne hpr ..).trans hr
  obtain ⟨t, ht, hend⟩ := exists_finish data hword hnone
  have hrun : (system W).Run (fun _ _ => True) u t := .single (a := .finish w r data) trivial ht
  exact ⟨t, (TransitionSystem.Run.single trivial hstart).trans hrun, hend⟩

end Progress

abbrev Word := Fin (2 ^ 61)

/-- Whatever threads do with paths, in whatever order: the parts that a handle leads to are in
memory, no part is freed when it is not, no count is found to be zero, no count is changed and
no `prev` is followed in a part that has been freed. Every part in memory is referred to or
about to be freed, so that none is left without handles and calls. Paths can be built on every
handle, and when no path is being built, all handles can be released to the last part. A call
that has given up a reference that was not the last reads `prev` once more without using it,
and the part may be freed by then: this is `lateRead`. -/
theorem parts_freed_when_unused {s : State Word} (h : (system Word).Reach (fun _ _ => True) s) :
    (∀ v p k t, s.word v = .handle p → s.ancestor k p = some t → ∃ q, s.part t = some q) ∧
      s.freedTwice = false ∧ s.rcZero = false ∧ s.touchedFreed = false ∧
      (∀ r q, s.part r = some q → 0 < s.refs r ∨ ∃ w, (s.word w).frees = some r) ∧
      ((∀ w, s.word w = .free) → ∀ r, s.part r = none) ∧
      (∀ w r tip data, s.word w = .free → s.part r = none →
        (∀ p ∈ tip, ∃ v, s.word v = .handle p) →
        ∃ t, (system Word).Run (fun _ _ => True) s t ∧ t.word w = .handle r ∧
          t.part r = some { prev := tip, data }) ∧
      ((∀ w tip, s.word w ≠ .building tip) →
        ∃ t, (system Word).Run (fun _ a => a.GivesUp) s t ∧ (∀ w, t.word w = .free) ∧
          ∀ r, t.part r = none) := by
  have hcard := (Fintype.card_fin (2 ^ 61)).le
  have hc := Counted.reach hcard h
  refine ⟨fun v p k t hv ht => ?_, hc.clean.2.1, hc.clean.1, hc.clean.2.2, hc.held, hc.none_left,
    fun w r tip data hw hr htip => hc.build data htip hw hr, hc.release_all hcard⟩
  exact hc.live t (refs_ancestor ht (refs_of_word (w := v) (by rw [hv]; rfl)))

def shareRun : List (Act Word) :=
  [.start none 0, .finish 0 10 [46], .start (some (0, 0)) 1, .finish 1 20 [47, 97]]

/-- Both paths are released; one thread drops the last reference to `.` through the part that it has
freed, and the other reads `prev` of `.` after that. -/
def dropRun : List (Act Word) :=
  [.release 0, .release 1, .decrement 1, .decrement 0, .readPrev 1, .freePart 1, .decrement 1,
    .readPrev 1, .freePart 1, .readPrev 0]

theorem parts_freed_sample : ∃ s t : State Word, (system Word).Reach (fun _ _ => True) s ∧
    s.word 0 = .handle 10 ∧ s.word 1 = .handle 20 ∧
    s.part 10 = some { rc := 2, prev := none, data := [46] } ∧
    s.part 20 = some { rc := 1, prev := some 10, data := [47, 97] } ∧
    (system Word).Run (fun _ a => a.GivesUp) s t ∧ t.word 0 = .free ∧ t.word 1 = .free ∧
    t.part 10 = none ∧ t.part 20 = none ∧ t.lateRead = true ∧
    t.freedTwice = false ∧ t.rcZero = false ∧ t.touchedFreed = false := by
  obtain ⟨s, hs⟩ := Option.isSome_iff_exists.mp (show ((system Word).exec (fun _ _ => true) {}
    shareRun).isSome = true by decide +kernel)
  have hbuilt : ((system Word).exec (fun _ _ => true) {} shareRun).map
      (fun s => (s.word 0, s.word 1, s.part 10, s.part 20)) = some (.handle 10, .handle 20,
        some { rc := 2, prev := none, data := [46] },
        some { rc := 1, prev := some 10, data := [47, 97] }) := by decide +kernel
  obtain ⟨t, ht⟩ := Option.isSome_iff_exists.mp (show (((system Word).exec (fun _ _ => true) {}
    shareRun).bind fun s => (system Word).exec (fun _ _ => true) s dropRun).isSome = true by
      decide +kernel)
  have hdone : (((system Word).exec (fun _ _ => true) {} shareRun).bind fun s =>
      (system Word).exec (fun _ _ => true) s dropRun).map
        (fun t => (t.word 0, t.word 1, t.part 10, t.part 20, t.lateRead)) =
      some (.free, .free, none, none, true) := by decide +kernel
  rw [hs] at hbuilt ht hdone
  rw [Option.bind_some] at ht hdone
  rw [ht] at hdone
  simp only [Option.map_some, Option.some.injEq, Prod.mk.injEq] at hbuilt hdone
  have hreach : (system Word).Reach (fun _ _ => True) s :=
    (TransitionSystem.Reach.init rfl).run (.of_exec _ (fun _ _ _ _ => trivial) hs)
  have hdrop : (system Word).Run (fun _ a => a.GivesUp) s t := by
    refine .of_exec _ (fun a ha _ _ => ?_) ht
    simp only [dropRun, List.mem_cons, List.not_mem_nil, or_false] at ha
    rcases ha with rfl | rfl | rfl | rfl | rfl | rfl | rfl | rfl | rfl | rfl <;> trivial
  have hall := parts_freed_when_unused (hreach.run (hdrop.mono fun _ _ _ => trivial))
  exact ⟨s, t, hreach, hbuilt.1, hbuilt.2.1, hbuilt.2.2.1, hbuilt.2.2.2, hdrop, hdone.1, hdone.2.1,
    hdone.2.2.1, hdone.2.2.2.1, hdone.2.2.2.2, hall.2.1, hall.2.2.1, hall.2.2.2.1⟩

end Copy2.Paths
