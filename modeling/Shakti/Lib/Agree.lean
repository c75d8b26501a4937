import Shakti.Lib.Prog

/-!
# Shakti.Lib.Agree

**Programs that make the same calls.** `Agree R p q` says that `p` and `q` issue the same
calls, whatever the answers are, and return values related by `R`. It composes along `bind`,
so an implementation that carries state of its own is compared with its specification one
function at a time; programs that agree up to equality are equal (`Agree.eq`).
-/

namespace Effects

namespace Prog

variable {S : Sig} {α β γ δ : Type} {R : α → β → Prop} {T : γ → δ → Prop}

/-- The programs make the same calls and return related values. -/
inductive Agree (R : α → β → Prop) : Prog S α → Prog S β → Prop
  | pure {a : α} {b : β} : R a b → Agree R (.pure a) (.pure b)
  | call {c : S.Call} {k : S.Answer c → Prog S α} {k' : S.Answer c → Prog S β} :
      (∀ r, Agree R (k r) (k' r)) → Agree R (.call c k) (.call c k')

theorem Agree.bind {p : Prog S α} {q : Prog S β} {f : α → Prog S γ} {g : β → Prog S δ}
    (h : Agree R p q) (hfg : ∀ a b, R a b → Agree T (f a) (g b)) :
    Agree T (p >>= f) (q >>= g) := by
  induction h with
  | pure hab => exact hfg _ _ hab
  | call _ ih => exact Agree.call ih

theorem Agree.refl (p : Prog S α) : Agree Eq p p := by
  induction p with
  | pure a => exact Agree.pure rfl
  | call c k ih => exact Agree.call ih

theorem Agree.ite {b : Prop} [Decidable b] {p p' : Prog S α} {q q' : Prog S β}
    (h : b → Agree R p q) (h' : ¬ b → Agree R p' q') :
    Agree R (if b then p else p') (if b then q else q') := by
  split
  · exact h ‹_›
  · exact h' ‹_›

/-- Post-processing the value of the first program makes no call. -/
theorem Agree.map {p : Prog S α} {q : Prog S β} {g : α → γ} {T : γ → β → Prop}
    (h : Agree R p q) (hg : ∀ a b, R a b → T (g a) b) :
    Agree T (p >>= fun a => Pure.pure (g a)) q := by
  induction h with
  | pure hab => exact Agree.pure (hg _ _ hab)
  | call _ ih => exact Agree.call ih

/-- Programs that make the same calls and return the same are equal. -/
theorem Agree.eq {p q : Prog S α} (h : Agree Eq p q) : p = q := by
  induction h with
  | pure hab => rw [hab]
  | call _ ih => exact congrArg _ (funext ih)

/-- A program that returns a function of what another returns is that other, post-processed. -/
theorem Agree.eq_map {p : Prog S α} {q : Prog S β} {g : β → α}
    (h : Agree (fun a b => a = g b) p q) : p = q >>= fun b => Pure.pure (g b) := by
  induction h with
  | pure hab => exact congrArg _ hab
  | call _ ih => exact congrArg _ (funext ih)

end Prog

end Effects
