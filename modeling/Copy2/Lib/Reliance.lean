import Copy2.Lib.Effect

/-! # Programs that rely on their environment

What a program does may depend on promises about the answers: as long as they are kept, every
call has a property, and so has the result. -/
namespace Copy2.Lib.Prog

variable {I : Interface} {α β : Type} {R : I.Event → Prop} {P : I.Call → Prop}
variable {Q : α → Prop} {Q' : β → Prop} {p : Prog I α} {f : α → Prog I β}

def Relying (R : I.Event → Prop) (P : I.Call → Prop) (Q : α → Prop) : Prog I α → Prop
  | ret a => Q a
  | call c next => P c ∧ ∀ r, R ⟨c, r⟩ → (next r).Relying R P Q

/-- A program that needs no promise. -/
theorem Ensures.relying (hp : p.Ensures P Q) : p.Relying R P Q := by
  induction p with
  | ret a => exact hp
  | call c next ih => exact ⟨hp.1, fun r _ => ih r (hp.2 r)⟩

theorem Relying.bind (hp : p.Relying R P Q) (hf : ∀ a, Q a → (f a).Relying R P Q') :
    (p >>= f).Relying R P Q' := by
  induction p with
  | ret a => exact hf a hp
  | call c next ih => exact ⟨hp.1, fun r hr => ih r (hp.2 r hr)⟩

/-- In a run in which the promises are kept, every call has the property. -/
theorem Relying.run {env : I.Environment} {h : List I.Event} (hp : p.Relying R P Q)
    (hR : ∀ e ∈ (p.run env h).2, R e) : ∀ e ∈ (p.run env h).2, e ∈ h ∨ P e.1 := by
  induction p generalizing h with
  | ret a => exact fun e he => .inl he
  | call c next ih =>
    obtain ⟨l, heq, -⟩ := @Every.run _ _ env (next (env h c)) (h ++ [⟨c, env h c⟩])
      (fun _ _ => True) (.of_forall _ fun _ _ => trivial)
    have hmem : (⟨c, env h c⟩ : I.Event) ∈ ((call c next).run env h).2 := by
      change _ ∈ ((next (env h c)).run env (h ++ [⟨c, env h c⟩])).2
      rw [heq]
      simp
    intro e he
    rcases ih (env h c) (hp.2 _ (hR _ hmem)) hR e he with hpast | hsafe
    · rcases List.mem_append.mp hpast with hpast | hnow
      · exact .inl hpast
      · rw [List.mem_singleton.mp hnow]
        exact .inr hp.1
    · exact .inr hsafe

/-- An environment that always keeps its promises. -/
theorem run_kept {env : I.Environment} {h : List I.Event} (hR : ∀ past c, R ⟨c, env past c⟩) :
    ∀ e ∈ (p.run env h).2, e ∈ h ∨ R e := by
  induction p generalizing h with
  | ret a => exact fun e he => .inl he
  | call c next ih =>
    intro e he
    rcases ih (env h c) e he with hpast | hkept
    · rcases List.mem_append.mp hpast with hpast | hnow
      · exact .inl hpast
      · rw [List.mem_singleton.mp hnow]
        exact .inr (hR h c)
    · exact .inr hkept

end Copy2.Lib.Prog
