import Copy2.Lib.Effect

/-! # Programs that follow a protocol

A protocol is a partial step function on phases: which events may come in which phase,
and where they lead. A program follows it if it never makes a call that the protocol does
not allow, whatever the answers are. A relation between phases and states of the world
that every allowed event keeps then holds at every point of every run. -/
namespace Copy2.Lib

abbrev Protocol (I : Interface) (φ : Type) := φ → I.Event → Option φ

namespace Protocol
variable {I : Interface} {φ σ : Type} (A : Protocol I φ)

def after : φ → List I.Event → Option φ
  | s, [] => some s
  | s, e :: l => (A s e).bind fun s' => after s' l

variable {A} {s s' : φ} {e : I.Event} {l l' : List I.Event}

theorem after_append : A.after s (l ++ l') = (A.after s l).bind fun s' => A.after s' l' := by
  induction l generalizing s with
  | nil => rfl
  | cons e l ih =>
    rw [List.cons_append, after, after, Option.bind_assoc]
    exact congrArg _ (funext fun s' => ih)

theorem after_snoc : A.after s (l ++ [e]) = (A.after s l).bind fun s' => A s' e := by
  rw [after_append]
  refine congrArg _ (funext fun s' => ?_)
  simp [after]

/-- The protocol has been followed up to any earlier point. -/
theorem after_take (h : A.after s l = some s') (k : ℕ) : ∃ u, A.after s (l.take k) = some u := by
  rw [← List.take_append_drop k l, after_append] at h
  obtain ⟨u, hu, -⟩ := Option.bind_eq_some_iff.mp h
  exact ⟨u, hu⟩

variable (step : σ → I.Event → σ) (ok : σ → I.Event → Prop)

def Consistent : σ → List I.Event → Prop
  | _, [] => True
  | d, e :: l => ok d e ∧ Consistent (step d e) l

variable {step ok} {d : σ}

theorem Consistent.append (h : Consistent step ok d (l ++ l')) :
    Consistent step ok d l ∧ Consistent step ok (l.foldl step d) l' := by
  induction l generalizing d with
  | nil => exact ⟨trivial, h⟩
  | cons e l ih =>
    obtain ⟨h1, h2⟩ := ih h.2
    exact ⟨⟨h.1, h1⟩, h2⟩

/-- What every allowed and possible event keeps, holds after all of them. -/
theorem simulation {R : List I.Event → φ → σ → Prop} (hinit : R [] s d)
    (hstep : ∀ l s d e s', R l s d → A s e = some s' → ok d e → R (l ++ [e]) s' (step d e))
    (hok : Consistent step ok d l) (h : A.after s l = some s') : R l s' (l.foldl step d) := by
  induction l using List.reverseRecOn generalizing s' with
  | nil =>
    obtain rfl := Option.some.inj h
    exact hinit
  | append_singleton l e ih =>
    rw [after_snoc] at h
    obtain ⟨u, hu, he⟩ := Option.bind_eq_some_iff.mp h
    obtain ⟨h1, h2⟩ := hok.append
    rw [List.foldl_append]
    exact hstep l u _ e s' (ih h1 hu) he h2.1

end Protocol

namespace Prog
variable {I : Interface} {α β φ : Type} {A : Protocol I φ}

/-- The program makes only calls that the protocol allows, and ends well. -/
def Follows (A : Protocol I φ) (Q : α → φ → Prop) : Prog I α → φ → Prop
  | ret a, s => Q a s
  | call c next, s => ∀ r, ∃ s', A s ⟨c, r⟩ = some s' ∧ (next r).Follows A Q s'

variable {Q : α → φ → Prop} {R : β → φ → Prop} {p : Prog I α} {f : α → Prog I β} {s : φ}

@[simp] theorem follows_ret {a : α} : (ret a : Prog I α).Follows A Q s ↔ Q a s := Iff.rfl

@[simp] theorem follows_call {c : I.Call} {next : I.Answer c → Prog I α} :
    (call c next).Follows A Q s ↔ ∀ r, ∃ s', A s ⟨c, r⟩ = some s' ∧ (next r).Follows A Q s' :=
  Iff.rfl

theorem Follows.bind (hp : p.Follows A Q s) (hf : ∀ a s', Q a s' → (f a).Follows A R s') :
    (p >>= f).Follows A R s := by
  induction p generalizing s with
  | ret a => exact hf a s hp
  | call c next ih =>
    intro r
    obtain ⟨s', hs', hr⟩ := hp r
    exact ⟨s', hs', ih r hr⟩

theorem Follows.mono {Q' : α → φ → Prop} (hp : p.Follows A Q s) (h : ∀ a s', Q a s' → Q' a s') :
    p.Follows A Q' s := by
  induction p generalizing s with
  | ret a => exact h a s hp
  | call c next ih =>
    intro r
    obtain ⟨s', hs', hr⟩ := hp r
    exact ⟨s', hs', ih r hr⟩

theorem Follows.expand_bind {J : Interface} {B : Protocol J φ}
    {g : (c : I.Call) → Prog J (I.Answer c)} (hp : (p.expand g).Follows B Q s)
    (hf : ∀ a s', Q a s' → ((f a).expand g).Follows B R s') :
    ((p >>= f).expand g).Follows B R s := by
  rw [Prog.expand_bind]
  exact hp.bind hf

/-- A protocol may allow more. -/
theorem Follows.weaken {B : Protocol I φ} (hp : p.Follows A Q s)
    (h : ∀ s e s', A s e = some s' → B s e = some s') : p.Follows B Q s := by
  induction p generalizing s with
  | ret a => exact hp
  | call c next ih =>
    intro r
    obtain ⟨s', hs', hr⟩ := hp r
    exact ⟨s', h s _ s' hs', ih r hr⟩

/-- The events of a run follow the protocol. -/
theorem Follows.every (hp : p.Follows A Q s) :
    p.Every fun a l => ∃ s', A.after s l = some s' ∧ Q a s' := by
  induction p generalizing s with
  | ret a => exact ⟨s, rfl, hp⟩
  | call c next ih =>
    intro r
    obtain ⟨s', hs', hr⟩ := hp r
    refine (ih r hr).mono fun a l ⟨u, hu, hq⟩ => ⟨u, ?_, hq⟩
    rw [Protocol.after, hs', Option.bind_some, hu]

/-! Whether a run ends well may be decided on its way, by events that are good or not in the
state in which they come. -/

/-- Every possible run ends in a result, a state, and the proposition that all its events have
been good, which `Q` relates. -/
def Judged {σ : Type} (step : σ → I.Event → σ) (ok good : σ → I.Event → Prop)
    (Q : α → Prop → σ → Prop) : Prog I α → Prop → σ → Prop
  | ret a, b, d => Q a b d
  | call c next, b, d => ∀ r, ok d ⟨c, r⟩ →
      (next r).Judged step ok good Q (b ∧ good d ⟨c, r⟩) (step d ⟨c, r⟩)

section Judged
variable {σ : Type} {step : σ → I.Event → σ} {ok good : σ → I.Event → Prop}
  {U : α → Prop → σ → Prop} {V : β → Prop → σ → Prop} {b : Prop} {d : σ}

theorem Judged.bind (hp : p.Judged step ok good U b d)
    (hf : ∀ a b d, U a b d → (f a).Judged step ok good V b d) :
    (p >>= f).Judged step ok good V b d := by
  induction p generalizing b d with
  | ret a => exact hf a b d hp
  | call c next ih => exact fun r hr => ih r (hp r hr)

theorem Judged.mono {U' : α → Prop → σ → Prop} (hp : p.Judged step ok good U b d)
    (h : ∀ a b d, U a b d → U' a b d) : p.Judged step ok good U' b d := by
  induction p generalizing b d with
  | ret a => exact h a b d hp
  | call c next ih => exact fun r hr => ih r (hp r hr)

/-- A call whose event is good. -/
theorem Judged.pass {c : I.Call} {next : I.Answer c → Prog I α} (h : ∀ r, ok d ⟨c, r⟩ →
      good d ⟨c, r⟩ ∧ (next r).Judged step ok good U b (step d ⟨c, r⟩)) :
    (call c next).Judged step ok good U b d := fun r hr => by
  rw [and_iff_left (h r hr).1]
  exact (h r hr).2

/-- Calls that are good and leave the state as it is. -/
theorem Ensures.judged {P : I.Call → Prop} {Q : α → Prop} (hp : p.Ensures P Q)
    (h : ∀ c r, P c → good d ⟨c, r⟩ ∧ step d ⟨c, r⟩ = d) :
    p.Judged step ok good (fun a b' d' => Q a ∧ b' = b ∧ d' = d) b d := by
  induction p with
  | ret a => exact ⟨hp, rfl, rfl⟩
  | call c next ih =>
    refine Judged.pass fun r _ => ⟨(h c r hp.1).1, ?_⟩
    rw [(h c r hp.1).2]
    exact ih r (hp.2 r)

theorem Judged.every_and (hp : p.Judged step ok good U b d) :
    p.Every fun a l => Protocol.Consistent step ok d l →
      U a (b ∧ Protocol.Consistent step good d l) (l.foldl step d) := by
  induction p generalizing b d with
  | ret a =>
    intro _
    rw [show (b ∧ Protocol.Consistent step good d []) ↔ b from and_iff_left trivial]
    exact hp
  | call c next ih =>
    intro r
    by_cases hr : ok d ⟨c, r⟩
    · refine (ih r (hp r hr)).mono fun a l h hl => ?_
      have hu := h hl.2
      rwa [and_assoc] at hu
    · exact .of_forall _ fun a l hl => absurd hl.1 hr

/-- The events of a possible run are judged one by one. -/
theorem Judged.every (hp : p.Judged step ok good U True d) :
    p.Every fun a l => Protocol.Consistent step ok d l →
      U a (Protocol.Consistent step good d l) (l.foldl step d) :=
  hp.every_and.mono fun a l h hl => by
    have hu := h hl
    rwa [true_and] at hu

/-! A second verdict may be carried along, to be compared with the first. -/

/-- The state, and whether all events so far have had the property. -/
def watch (step : σ → I.Event → σ) (P : σ → I.Event → Prop) (x : σ × Prop) (e : I.Event) :
    σ × Prop :=
  (step x.1 e, x.2 ∧ P x.1 e)

theorem foldl_watch {P : σ → I.Event → Prop} (l : List I.Event) (x : σ × Prop) :
    l.foldl (watch step P) x = (l.foldl step x.1, x.2 ∧ Protocol.Consistent step P x.1 l) := by
  induction l generalizing x with
  | nil => exact Prod.ext rfl (propext (and_iff_left trivial)).symm
  | cons e l ih =>
    rw [List.foldl_cons, ih]
    exact Prod.ext rfl (propext and_assoc)

theorem consistent_watch {P R : σ → I.Event → Prop} (l : List I.Event) (x : σ × Prop) :
    Protocol.Consistent (watch step P) (fun x e => R x.1 e) x l ↔
      Protocol.Consistent step R x.1 l := by
  induction l generalizing x with
  | nil => exact Iff.rfl
  | cons e l ih => exact and_congr Iff.rfl (ih _)

/-- A call whose event is good, and has the property. -/
theorem Judged.watched (ok good P : σ → I.Event → Prop) {V : α → Prop → σ × Prop → Prop}
    {v : Prop} {c : I.Call} {next : I.Answer c → Prog I α} (h : ∀ r, ok d ⟨c, r⟩ →
      good d ⟨c, r⟩ ∧ P d ⟨c, r⟩ ∧ (next r).Judged (watch step P) (fun x e => ok x.1 e)
        (fun x e => good x.1 e) V b (step d ⟨c, r⟩, v)) :
    (call c next).Judged (watch step P) (fun x e => ok x.1 e) (fun x e => good x.1 e) V b
      (d, v) := by
  refine Judged.pass fun r hr => ⟨(h r hr).1, ?_⟩
  have hv : watch step P (d, v) ⟨c, r⟩ = (step d ⟨c, r⟩, v) :=
    Prod.ext rfl (propext (and_iff_left (h r hr).2.1))
  rw [hv]
  exact (h r hr).2.2

/-- The program shows the property at all its events exactly if they are good. -/
def Shows (step : σ → I.Event → σ) (ok good P : σ → I.Event → Prop) (p : Prog I α) (d : σ) :
    Prop :=
  p.Every fun _ l => Protocol.Consistent step ok d l →
    (Protocol.Consistent step P d l ↔ Protocol.Consistent step good d l)

theorem Shows.of_judged {P : σ → I.Event → Prop} (h : p.Judged (watch step P)
      (fun x e => ok x.1 e) (fun x e => good x.1 e) (fun _ b x => x.2 ↔ b) True (d, True)) :
    p.Shows step ok good P d := by
  refine h.every.mono fun a l h hl => ?_
  have hv := h ((consistent_watch l (d, True)).mpr hl)
  rwa [foldl_watch, true_and, consistent_watch] at hv

end Judged

end Prog
end Copy2.Lib
