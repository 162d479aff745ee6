import Copy2.Lib.Effect
import Copy2.Lib.TransitionSystem
import Mathlib.Algebra.BigOperators.Group.Multiset.Basic

/-! # Programs that run side by side

A pool holds programs and a world. Any of them may make its next call, which the world
answers or refuses; some calls start another program. What a program still owes can be
told in advance when the world only grows: a call accounts for a part of it, and a
program that a call starts takes over another part. -/
namespace Copy2.Lib

variable {I : Interface} {σ α β γ : Type}

/-- The world answers calls, and some calls start a program. -/
structure Pool (I : Interface) (σ : Type) where
  step : σ → I.Event → Option σ
  spawn : I.Call → Option (Prog I Unit)

namespace Pool

structure Config (I : Interface) (σ : Type) where
  world : σ
  tasks : List (Prog I Unit)
  past : List I.Event := []

/-- Nothing is left to run. -/
def Config.Ended (s : Config I σ) : Prop := ∀ p ∈ s.tasks, ∃ a, p = .ret a

instance (p : Prog I α) : Decidable (∃ a, p = .ret a) :=
  match p with
  | .ret a => isTrue ⟨a, rfl⟩
  | .call .. => isFalse fun ⟨_, h⟩ => nomatch h

instance (s : Config I σ) : Decidable s.Ended :=
  inferInstanceAs (Decidable (∀ p ∈ s.tasks, ∃ a, p = .ret a))

def next [DecidableEq I.Call] (P : Pool I σ) (s : Config I σ) (x : ℕ × I.Event) :
    Option (Config I σ) :=
  match s.tasks[x.1]? with
  | some (.call c k) =>
    if h : x.2.1 = c then
      (P.step s.world x.2).map fun w =>
        { world := w
          tasks := s.tasks.set x.1 (k (h ▸ x.2.2)) ++ (P.spawn c).toList
          past := s.past ++ [x.2] }
    else none
  | _ => none

def system [DecidableEq I.Call] (P : Pool I σ) (start : Config I σ) :
    TransitionSystem (Config I σ) (ℕ × I.Event) where
  init s := s = start
  next := P.next

/-- How calls are accounted for, and what a program that a call starts owes. -/
structure Account (P : Pool I σ) (β : Type) where
  here : I.Call → Multiset β
  owes : I.Call → σ → Multiset β → Prop

variable {P : Pool I σ} (A : P.Account β)

/-- What the program that the call starts, if there is one, owes from then on. -/
def Account.Starts (c : I.Call) (w : σ) (S : Multiset β) : Prop :=
  match P.spawn c with
  | none => S = 0
  | some _ => A.owes c w S

structure Silent (A : P.Account β) (c : I.Call) : Prop where
  here : A.here c = 0
  spawn : P.spawn c = none

theorem Silent.starts {c : I.Call} {w : σ} (h : Silent A c) : A.Starts c w 0 := by
  rw [Account.Starts, h.spawn]

variable [Preorder σ]

/-- Whatever happens in a world that has grown since, the program accounts for exactly what it
owes, or what is left is owed after its result. -/
def Yields (Q : α → σ → Multiset β → Prop) : Prog I α → σ → Multiset β → Prop
  | .ret a, w, F => Q a w F
  | .call c k, w, F => ∀ w₁, w ≤ w₁ → ∀ r w₂, P.step w₁ ⟨c, r⟩ = some w₂ →
    ∃ S F', F = A.here c + S + F' ∧ A.Starts c w₂ S ∧ (Yields Q (k r)) w₂ F'

def Paid : α → σ → Multiset β → Prop := fun _ _ F => F = 0

variable {A} {Q : α → σ → Multiset β → Prop} {R : γ → σ → Multiset β → Prop} {p : Prog I α}
  {f : α → Prog I γ} {w : σ} {F : Multiset β}

theorem Yields.bind (h : Yields A (fun a w F => Yields A R (f a) w F) p w F) :
    Yields A R (p >>= f) w F := by
  induction p generalizing w F with
  | ret a => exact h
  | call c k ih =>
    intro w₁ hw r w₂ hs
    obtain ⟨S, F', hF, hS, hk⟩ := h w₁ hw r w₂ hs
    exact ⟨S, F', hF, hS, ih r hk⟩

theorem Yields.mono {Q' : α → σ → Multiset β → Prop} (h : Yields A Q p w F)
    (hQ : ∀ a w F, Q a w F → Q' a w F) : Yields A Q' p w F := by
  induction p generalizing w F with
  | ret a => exact hQ a w F h
  | call c k ih =>
    intro w₁ hw r w₂ hs
    obtain ⟨S, F', hF, hS, hk⟩ := h w₁ hw r w₂ hs
    exact ⟨S, F', hF, hS, ih r hk⟩

/-- What is owed in a world is owed in every world that has grown from it. -/
theorem Yields.grow {w' : σ} (h : Yields A Paid p w F) (hw : w ≤ w') : Yields A Paid p w' F := by
  cases p with
  | ret a => exact h
  | call c k => exact fun w₁ hw₁ => h w₁ (hw.trans hw₁)

theorem Yields.silent {c : I.Call} {k : I.Answer c → Prog I α} (hc : Silent A c)
    (h : ∀ w₁, w ≤ w₁ → ∀ r w₂, P.step w₁ ⟨c, r⟩ = some w₂ → Yields A Q (k r) w₂ F) :
    Yields A Q (.call c k) w F := fun w₁ hw r w₂ hs =>
  ⟨0, F, by simp [hc.here], hc.starts, h w₁ hw r w₂ hs⟩

/-- A program all of whose calls are silent may be passed over. -/
theorem Yields.of_ensures (hp : p.Ensures (Silent A) fun _ => True)
    (hgrow : ∀ w e w', P.step w e = some w' → w ≤ w') (hQ : ∀ a w', w ≤ w' → Q a w' F) :
    Yields A Q p w F := by
  induction p generalizing w with
  | ret a => exact hQ a w le_rfl
  | call c k ih =>
    refine .silent hp.1 fun w₁ hw r w₂ hs => ih r (hp.2 r) fun a w' hw' => hQ a w' ?_
    exact hw.trans ((hgrow _ _ _ hs).trans hw')

def Owed (A : P.Account β) (w : σ) : List (Prog I Unit) → Multiset β → Prop
  | [], F => F = 0
  | p :: ps, F => ∃ F₁ F₂, F = F₁ + F₂ ∧ Yields A Paid p w F₁ ∧ Owed A w ps F₂

theorem owed_append {ps qs : List (Prog I Unit)} :
    Owed A w (ps ++ qs) F ↔ ∃ F₁ F₂, F = F₁ + F₂ ∧ Owed A w ps F₁ ∧ Owed A w qs F₂ := by
  induction ps generalizing F with
  | nil => exact ⟨fun h => ⟨0, F, by simp, rfl, h⟩, fun ⟨F₁, F₂, hF, h₁, h₂⟩ => by
      rw [hF, show F₁ = 0 from h₁, zero_add]
      exact h₂⟩
  | cons p ps ih =>
    constructor
    · rintro ⟨F₁, F₂, rfl, hp, hps⟩
      obtain ⟨G₁, G₂, rfl, h₁, h₂⟩ := ih.mp hps
      exact ⟨F₁ + G₁, G₂, (add_assoc _ _ _).symm, ⟨F₁, G₁, rfl, hp, h₁⟩, h₂⟩
    · rintro ⟨_, F₂, rfl, ⟨G₁, G₂, rfl, hp, hps⟩, h₂⟩
      exact ⟨G₁, G₂ + F₂, add_assoc _ _ _, hp, ih.mpr ⟨G₂, F₂, rfl, hps, h₂⟩⟩

theorem Owed.grow {w' : σ} {ps : List (Prog I Unit)} (h : Owed A w ps F) (hw : w ≤ w') :
    Owed A w' ps F := by
  induction ps generalizing F with
  | nil => exact h
  | cons p ps ih =>
    obtain ⟨F₁, F₂, hF, hp, hps⟩ := h
    exact ⟨F₁, F₂, hF, hp.grow hw, ih hps⟩

theorem Owed.ended {ps : List (Prog I Unit)} (h : Owed A w ps F)
    (hend : ∀ p ∈ ps, ∃ a, p = .ret a) : F = 0 := by
  induction ps generalizing F with
  | nil => exact h
  | cons p ps ih =>
    obtain ⟨F₁, F₂, rfl, hp, hps⟩ := h
    obtain ⟨a, rfl⟩ := hend p List.mem_cons_self
    rw [show F₁ = 0 from hp, ih hps fun q hq => hend q (List.mem_cons_of_mem _ hq), zero_add]

def Account.paid (A : P.Account β) (l : List I.Event) : Multiset β :=
  (l.map fun e => A.here e.1).sum

/-- What the tasks owe, and what has been accounted for, make up the whole. -/
def Balance (A : P.Account β) (total : Multiset β) (s : Config I σ) : Prop :=
  ∃ F, Owed A s.world s.tasks F ∧ A.paid s.past + F = total

/-- The world only grows, and a program that a call starts pays what it owes. -/
structure Account.Sound (A : P.Account β) : Prop where
  grow : ∀ w e w', P.step w e = some w' → w ≤ w'
  spawn : ∀ c p w S, P.spawn c = some p → A.owes c w S → Yields A Paid p w S

theorem Account.Sound.starts (hA : A.Sound) {c : I.Call} {S : Multiset β}
    (h : A.Starts c w S) : Owed A w (P.spawn c).toList S := by
  rw [Account.Starts] at h
  cases hp : P.spawn c with
  | none =>
    rw [hp] at h
    exact h
  | some p =>
    rw [hp] at h
    exact ⟨S, 0, (add_zero S).symm, hA.spawn c p w S hp h, rfl⟩

/-- When nothing is left to run, the whole has been accounted for. -/
theorem Balance.ended {s : Config I σ} {total : Multiset β} (hb : Balance A total s) (hend : s.Ended) :
    A.paid s.past = total := by
  obtain ⟨F, howed, htotal⟩ := hb
  rw [← htotal, howed.ended hend, add_zero]

section run
variable [DecidableEq I.Call] {total : Multiset β}

theorem Balance.next {s t : Config I σ} {x : ℕ × I.Event} (hA : A.Sound)
    (hb : Balance A total s) (h : P.next s x = some t) : Balance A total t := by
  obtain ⟨F, howed, htotal⟩ := hb
  obtain ⟨i, e⟩ := x
  rw [Pool.next] at h
  split at h
  · rename_i c k hi
    dsimp only at h hi
    split at h
    · rename_i hc
      subst hc
      obtain ⟨w, hw, rfl⟩ := Option.map_eq_some_iff.mp h
      obtain ⟨hlt, hget⟩ := List.getElem?_eq_some_iff.mp hi
      have htasks : s.tasks = s.tasks.take i ++ .call e.1 k :: s.tasks.drop (i + 1) := by
        rw [← hget, List.getElem_cons_drop, List.take_append_drop]
      rw [htasks] at howed
      obtain ⟨F₁, _, rfl, h₁, F₂, F₃, rfl, hp, h₃⟩ := owed_append.mp howed
      obtain ⟨S, F', rfl, hS, hk⟩ := hp s.world le_rfl e.2 w hw
      have hgrow := hA.grow _ _ _ hw
      refine ⟨F₁ + (F' + F₃) + S, ?_, ?_⟩
      · refine owed_append.mpr ⟨_, S, rfl, ?_, hA.starts hS⟩
        rw [List.set_eq_take_append_cons_drop, if_pos hlt]
        exact owed_append.mpr ⟨F₁, _, rfl, h₁.grow hgrow, F', F₃, rfl, hk, h₃.grow hgrow⟩
      · rw [← htotal, Account.paid, Account.paid, List.map_append, List.sum_append]
        simp only [List.map_cons, List.map_nil, List.sum_cons, List.sum_nil]
        abel
    · cases h
  · cases h

theorem balance_of_reach {start s : Config I σ} {C : Config I σ → ℕ × I.Event → Prop}
    (hA : A.Sound) (hstart : Balance A total start) (h : (P.system start).Reach C s) :
    Balance A total s := by
  refine h.invariant ?_ fun s x t hb _ hn => hb.next hA hn
  rintro _ rfl
  exact hstart

end run
end Pool
end Copy2.Lib
