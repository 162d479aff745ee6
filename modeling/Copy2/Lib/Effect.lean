import Mathlib.Tactic

/-! # Programs that call their environment

A program either returns or makes a call and goes on with the answer. An environment
answers every call, and may look at the whole past when it does. What a program can
ever do, whatever it is answered, is a predicate on its calls. -/
namespace Copy2.Lib

structure Interface where
  Call : Type
  Answer : Call → Type

abbrev Interface.Event (I : Interface) := (c : I.Call) × I.Answer c

abbrev Interface.Environment (I : Interface) := List I.Event → (c : I.Call) → I.Answer c

inductive Prog (I : Interface) (α : Type)
  | ret (a : α)
  | call (c : I.Call) (next : I.Answer c → Prog I α)

namespace Prog
variable {I : Interface} {α β : Type}

def bind : Prog I α → (α → Prog I β) → Prog I β
  | ret a, f => f a
  | call c next, f => call c fun r => (next r).bind f

instance : Monad (Prog I) where
  pure := ret
  bind := bind

def perform (c : I.Call) : Prog I (I.Answer c) := call c ret

@[simp] theorem pure_eq (a : α) : (pure a : Prog I α) = ret a := rfl
@[simp] theorem ret_bind (a : α) (f : α → Prog I β) : ret a >>= f = f a := rfl
@[simp] theorem call_bind (c : I.Call) (next : I.Answer c → Prog I α) (f : α → Prog I β) :
    call c next >>= f = call c fun r => next r >>= f := rfl
@[simp] theorem perform_bind (c : I.Call) (f : I.Answer c → Prog I β) :
    perform c >>= f = call c f := rfl

/-- Every call of the program is carried out by a program of another interface. -/
def expand {J : Interface} (f : (c : I.Call) → Prog J (I.Answer c)) : Prog I α → Prog J α
  | ret a => ret a
  | call c next => f c >>= fun r => (next r).expand f

section expand
variable {J : Interface} {f : (c : I.Call) → Prog J (I.Answer c)}

@[simp] theorem expand_ret (a : α) : (ret a : Prog I α).expand f = ret a := rfl

@[simp] theorem expand_call (c : I.Call) (next : I.Answer c → Prog I α) :
    (call c next).expand f = f c >>= fun r => (next r).expand f := rfl

theorem bind_assoc {γ : Type} (p : Prog I α) (g : α → Prog I β) (k : β → Prog I γ) :
    p >>= g >>= k = p >>= fun a => g a >>= k := by
  induction p with
  | ret a => rfl
  | call c next ih => exact congrArg (call c) (funext fun r => ih r)

theorem expand_bind (p : Prog I α) (g : α → Prog I β) :
    (p >>= g).expand f = p.expand f >>= fun a => (g a).expand f := by
  induction p with
  | ret a => rfl
  | call c next ih =>
    rw [call_bind, expand_call, expand_call, bind_assoc]
    exact congrArg _ (funext fun r => ih r)

end expand

/-- The result of a program and the events after it, when `h` happened before. -/
def run (env : I.Environment) : Prog I α → List I.Event → α × List I.Event
  | ret a, h => (a, h)
  | call c next, h => (next (env h c)).run env (h ++ [⟨c, env h c⟩])

variable {env : I.Environment} {p : Prog I α} {f : α → Prog I β} {h : List I.Event}

@[simp] theorem run_ret (a : α) : (ret a : Prog I α).run env h = (a, h) := rfl

@[simp] theorem run_call (c : I.Call) (next : I.Answer c → Prog I α) :
    (call c next).run env h = (next (env h c)).run env (h ++ [⟨c, env h c⟩]) := rfl

/-- Every call the program can make has the property `P`, and every result `Q`. -/
def Ensures (P : I.Call → Prop) (Q : α → Prop) : Prog I α → Prop
  | ret a => Q a
  | call c next => P c ∧ ∀ r, (next r).Ensures P Q

variable {P : I.Call → Prop} {Q : α → Prop} {R : β → Prop}

@[simp] theorem ensures_ret {a : α} : (ret a : Prog I α).Ensures P Q ↔ Q a := Iff.rfl

@[simp] theorem ensures_call {c : I.Call} {next : I.Answer c → Prog I α} :
    (call c next).Ensures P Q ↔ P c ∧ ∀ r, (next r).Ensures P Q := Iff.rfl

theorem Ensures.bind (hp : p.Ensures P Q) (hf : ∀ a, Q a → (f a).Ensures P R) :
    (p >>= f).Ensures P R := by
  induction p with
  | ret a => exact hf a hp
  | call c next ih => exact ⟨hp.1, fun r => ih r (hp.2 r)⟩

theorem Ensures.weaken {P' : I.Call → Prop} (hp : p.Ensures P Q) (h : ∀ c, P c → P' c) :
    p.Ensures P' Q := by
  induction p with
  | ret a => exact hp
  | call c next ih => exact ⟨h c hp.1, fun r => ih r (hp.2 r)⟩

/-- Every result the program can return comes with events that have the property. -/
def Every (Q : α → List I.Event → Prop) : Prog I α → Prop
  | ret a => Q a []
  | call c next => ∀ r, (next r).Every fun a l => Q a (⟨c, r⟩ :: l)

variable {S : α → List I.Event → Prop} {T : β → List I.Event → Prop}

theorem Every.of_forall (p : Prog I α) (h : ∀ a l, S a l) : p.Every S := by
  induction p generalizing S with
  | ret a => exact h a []
  | call c next ih => exact fun r => ih r fun a l => h a _

theorem Every.mono {S' : α → List I.Event → Prop} (hp : p.Every S)
    (h : ∀ a l, S a l → S' a l) : p.Every S' := by
  induction p generalizing S S' with
  | ret a => exact h a [] hp
  | call c next ih => exact fun r => ih r (hp r) fun a l => h a (⟨c, r⟩ :: l)

theorem Every.bind (hp : p.Every S)
    (hf : ∀ a l, S a l → (f a).Every fun b l' => T b (l ++ l')) : (p >>= f).Every T := by
  induction p generalizing S T with
  | ret a => exact hf a [] hp
  | call c next ih => exact fun r => ih r (hp r) fun a l h => hf a (⟨c, r⟩ :: l) h

theorem Ensures.every (hp : p.Ensures P Q) : p.Every fun a l => Q a ∧ ∀ e ∈ l, P e.1 := by
  induction p with
  | ret a => exact ⟨hp, by simp⟩
  | call c next ih =>
    refine fun r => (ih r (hp.2 r)).mono fun a l h => ⟨h.1, fun e he => ?_⟩
    rcases List.mem_cons.mp he with rfl | he
    · exact hp.1
    · exact h.2 e he

/-- A run adds events to the past, and no others than the program can leave. -/
theorem Every.run (hp : p.Every S) :
    ∃ l, (p.run env h).2 = h ++ l ∧ S (p.run env h).1 l := by
  induction p generalizing S h with
  | ret a => exact ⟨[], by simp, hp⟩
  | call c next ih =>
    obtain ⟨l, heq, hl⟩ := ih (env h c) (hp (env h c)) (h := h ++ [⟨c, env h c⟩])
    exact ⟨⟨c, env h c⟩ :: l, by simp [heq], hl⟩

theorem Every.run_nil (hp : p.Every S) : S (p.run env []).1 (p.run env []).2 := by
  obtain ⟨l, heq, hl⟩ := @Every.run _ _ env _ [] _ hp
  rwa [heq]

/-- A program run in any environment makes no other calls than those it ensures. -/
theorem Ensures.run_calls (hp : p.Ensures P Q) : ∀ e ∈ (p.run env []).2, P e.1 :=
  hp.every.run_nil.2

end Prog
end Copy2.Lib
