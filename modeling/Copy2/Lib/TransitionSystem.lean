import Mathlib.Logic.Relation
import Mathlib.Tactic

/-! # Labelled transition systems with guarded runs

A system is a predicate for its initial states and a function that answers a
label with the next state, or refuses it. All nondeterminism sits in the labels.
A run may be restricted by a guard on each label and the state it leaves, so that
"every run whose steps all meet the condition" is one induction.
-/
namespace Copy2.Lib

universe u v

/-! Numerals of the index types of small systems. -/

instance neZero_one : NeZero 1 := ⟨one_ne_zero⟩

instance neZero_two : NeZero 2 := ⟨two_ne_zero⟩

instance neZero_three : NeZero 3 := ⟨three_ne_zero⟩

structure TransitionSystem (σ : Type u) (α : Type v) where
  init : σ → Prop
  next : σ → α → Option σ

namespace TransitionSystem
variable {σ : Type u} {α : Type v} (T : TransitionSystem σ α) {C D : σ → α → Prop}

/-- Steps lead from one state to another, and each of them meets the guard. -/
inductive Run (C : σ → α → Prop) : σ → σ → Prop
  | nil (s : σ) : Run C s s
  | snoc {s t u : σ} {a : α} : Run C s t → C t a → T.next t a = some u → Run C s u

/-- The states that guarded steps reach from an initial state. -/
def Reach (C : σ → α → Prop) (s : σ) : Prop := ∃ i, T.init i ∧ T.Run C i s

variable {T}

theorem Run.single {s t : σ} {a : α} (hc : C s a) (h : T.next s a = some t) : T.Run C s t :=
  .snoc (.nil s) hc h

theorem Run.trans {s t u : σ} (h₁ : T.Run C s t) (h₂ : T.Run C t u) : T.Run C s u := by
  induction h₂ with
  | nil => exact h₁
  | snoc _ hc hn ih => exact .snoc ih hc hn

theorem Run.mono (hCD : ∀ s a, C s a → D s a) {s t : σ} (h : T.Run C s t) : T.Run D s t := by
  induction h with
  | nil => exact .nil _
  | snoc _ hc hn ih => exact .snoc ih (hCD _ _ hc) hn

theorem Reach.init {s : σ} (h : T.init s) : T.Reach C s := ⟨s, h, .nil s⟩

theorem Reach.step {s t : σ} {a : α} (h : T.Reach C s) (hc : C s a)
    (hn : T.next s a = some t) : T.Reach C t := by
  obtain ⟨i, hi, hr⟩ := h
  exact ⟨i, hi, .snoc hr hc hn⟩

theorem Reach.run {s t : σ} (h : T.Reach C s) (hr : T.Run C s t) : T.Reach C t := by
  obtain ⟨i, hi, hs⟩ := h
  exact ⟨i, hi, hs.trans hr⟩

theorem Reach.mono (hCD : ∀ s a, C s a → D s a) {s : σ} (h : T.Reach C s) : T.Reach D s := by
  obtain ⟨i, hi, hr⟩ := h
  exact ⟨i, hi, hr.mono hCD⟩

/-- What every guarded step preserves, a guarded run preserves. -/
theorem Run.invariant {I : σ → Prop}
    (hstep : ∀ s a t, I s → C s a → T.next s a = some t → I t)
    {s t : σ} (h : T.Run C s t) (hs : I s) : I t := by
  induction h with
  | nil => exact hs
  | snoc _ hc hn ih => exact hstep _ _ _ ih hc hn

/-- An inductive invariant of the guarded steps holds wherever they lead. -/
theorem Reach.invariant {I : σ → Prop} (hinit : ∀ s, T.init s → I s)
    (hstep : ∀ s a t, I s → C s a → T.next s a = some t → I t)
    {s : σ} (h : T.Reach C s) : I s := by
  obtain ⟨i, hi, hr⟩ := h
  exact hr.invariant hstep (hinit i hi)

/-- An invariant may use one that has been established before it. -/
theorem Reach.invariant_with {I J : σ → Prop} (hJ : ∀ s, T.Reach C s → J s)
    (hinit : ∀ s, T.init s → I s)
    (hstep : ∀ s a t, I s → J s → C s a → T.next s a = some t → I t)
    {s : σ} (h : T.Reach C s) : I s := by
  obtain ⟨i, hi, hr⟩ := h
  induction hr with
  | nil => exact hinit _ hi
  | snoc hr hc hn ih => exact hstep _ _ _ ih (hJ _ ⟨i, hi, hr⟩) hc hn

/-! A record follows the steps of a system: no step reads it. -/
section Observe
variable {τ : Type*}

def observe (T : TransitionSystem σ α) (start : τ) (record : σ → α → τ → τ) :
    TransitionSystem (σ × τ) α where
  init x := T.init x.1 ∧ x.2 = start
  next x a := (T.next x.1 a).map fun s => (s, record x.1 a x.2)

variable {start : τ} {record : σ → α → τ → τ}

theorem observe_next {x y : σ × τ} {a : α} (h : (T.observe start record).next x a = some y) :
    T.next x.1 a = some y.1 ∧ y.2 = record x.1 a x.2 := by
  obtain ⟨s, hs, rfl⟩ := Option.map_eq_some_iff.mp h
  exact ⟨hs, rfl⟩

/-- Taking the record away leaves a run of the system. -/
theorem Reach.of_observe {x : σ × τ}
    (h : (T.observe start record).Reach (fun y a => C y.1 a) x) : T.Reach C x.1 := by
  obtain ⟨i, hi, hr⟩ := h
  refine ⟨i.1, hi.1, ?_⟩
  induction hr with
  | nil => exact .nil _
  | snoc _ hc hn ih => exact .snoc ih hc (observe_next hn).1

/-- Every run of the system can be followed. -/
theorem Reach.exists_record {s : σ} (h : T.Reach C s) :
    ∃ r, (T.observe start record).Reach (fun y a => C y.1 a) (s, r) := by
  obtain ⟨i, hi, hr⟩ := h
  induction hr with
  | nil => exact ⟨start, .init ⟨hi, rfl⟩⟩
  | @snoc t _ a _ hc hn ih =>
    obtain ⟨r, hr⟩ := ih
    exact ⟨record t a r, hr.step hc (by simp [observe, hn])⟩

end Observe

/-- Play a list of labels in order, as long as each of them passes a check. -/
def exec (T : TransitionSystem σ α) (check : σ → α → Bool) : σ → List α → Option σ
  | s, [] => some s
  | s, a :: as => if check s a then (T.next s a).bind fun t => T.exec check t as else none

theorem Run.of_exec (check : σ → α → Bool) {s t : σ} {as : List α}
    (hC : ∀ a ∈ as, ∀ u, check u a = true → C u a) (h : T.exec check s as = some t) :
    T.Run C s t := by
  induction as generalizing s with
  | nil =>
    obtain rfl : s = t := by simpa [exec] using h
    exact .nil s
  | cons a as ih =>
    rw [exec, Option.ite_none_right_eq_some] at h
    obtain ⟨hcheck, h⟩ := h
    obtain ⟨u, hu, ht⟩ := Option.bind_eq_some_iff.mp h
    exact (Run.single (hC a (by simp) s hcheck) hu).trans (ih (fun b hb => hC b (by simp [hb])) ht)

end TransitionSystem
end Copy2.Lib
