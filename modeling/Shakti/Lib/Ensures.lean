import Shakti.Lib.Agree
import Shakti.Lib.World

/-!
# Shakti.Lib.Ensures

**Total correctness in a world.** `Ensures W G post s p` says of the program `p`, started in the
state `s` of the world: every call it makes meets the guarantee `G` where it is made, the world
has an answer to it, and whatever the answers are, what `p` returns meets `post`.

It is a recursion on the program and composes along `bind`. Of the runs it says that all their
calls meet `G` (`Ensures.runs`), that a finished one returned what meets `post`
(`Ensures.completed`), and that every unfinished one can be finished (`Ensures.completes`).
-/

namespace Effects

namespace World

variable {S : Sig} {σ α β : Type} {W : World S σ} {G : σ → S.Call → Prop} {s t : σ}

/-- Every call meets `G` and can be answered, and what is returned meets `post`. -/
def Ensures (W : World S σ) (G : σ → S.Call → Prop) (post : σ → α → Prop) : σ → Prog S α → Prop
  | s, .pure a => post s a
  | s, .call c k => ∀ m, W.Waits c s m → G m c ∧ (∃ r s', W.answers m c r s') ∧
      ∀ r s', W.answers m c r s' → Ensures W G post s' (k r)

/-- Nothing moves but the program. -/
def Still (W : World S σ) : Prop := ∀ c s s', ¬ W.other c s s'

theorem Still.waits_eq (hstill : W.Still) {c : S.Call} {m : σ} (h : W.Waits c s m) : m = s := by
  induction h with
  | refl => rfl
  | tail _ hstep _ => exact absurd hstep (hstill _ _ _)

namespace Ensures

/-- A call in a world where nothing else moves. -/
theorem call {post : σ → α → Prop} {c : S.Call} {k : S.Answer c → Prog S α} (hstill : W.Still)
    (hG : G s c) (hanswer : ∃ r s', W.answers s c r s')
    (hk : ∀ r s', W.answers s c r s' → Ensures W G post s' (k r)) :
    Ensures W G post s (.call c k) := by
  intro m hwait
  obtain rfl := hstill.waits_eq hwait
  exact ⟨hG, hanswer, hk⟩

theorem bind {mid : σ → α → Prop} {post : σ → β → Prop} {p : Prog S α} {f : α → Prog S β}
    (hp : Ensures W G mid s p) (hf : ∀ s a, mid s a → Ensures W G post s (f a)) :
    Ensures W G post s (p >>= f) := by
  induction p generalizing s with
  | pure a => exact hf s a hp
  | call c k ih =>
      intro m hwait
      obtain ⟨hG, hanswer, hk⟩ := hp m hwait
      exact ⟨hG, hanswer, fun r s' hans => ih r (hk r s' hans)⟩

/-- A program that makes the same calls ensures what follows for the values it returns. -/
theorem agree {R : α → β → Prop} {post : σ → α → Prop} {post' : σ → β → Prop} {p : Prog S α}
    {q : Prog S β} (hagree : Prog.Agree R p q) (hq : Ensures W G post' s q)
    (h : ∀ s a b, R a b → post' s b → post s a) : Ensures W G post s p := by
  induction hagree generalizing s with
  | pure hab => exact h _ _ _ hab hq
  | call _ ih =>
      intro m hwait
      obtain ⟨hG, hanswer, hk⟩ := hq m hwait
      exact ⟨hG, hanswer, fun r s' hans => ih r (hk r s' hans)⟩

variable {post : σ → α → Prop} {p q : Prog S α} {h : List (Moment S σ)}

/-- Every call of a run meets the guarantee, and what is left to run ensures the rest. -/
theorem runs (hp : Ensures W G post s p) (hrun : Runs W s p h t q) :
    (∀ m ∈ h, G m.state m.event.call) ∧ Ensures W G post t q := by
  induction hrun with
  | nil => exact ⟨by simp, hp⟩
  | other hstep _ ih => exact ih fun m hwait => hp m (.head hstep hwait)
  | call hans _ ih =>
      obtain ⟨hG, -, hk⟩ := hp _ .refl
      obtain ⟨hrest, hq⟩ := ih (hk _ _ hans)
      exact ⟨List.forall_mem_cons.mpr ⟨hG, hrest⟩, hq⟩

theorem completed {a : α} (hp : Ensures W G post s p) (hrun : Completed W s p h t a) : post t a :=
  (hp.runs hrun).2

/-- No run gets stuck, and none goes on without end. -/
theorem completes (hp : Ensures W G post s p) : ∃ h t a, Completed W s p h t a := by
  induction p generalizing s with
  | pure a => exact ⟨[], s, a, Runs.nil _ _⟩
  | call c k ih =>
      obtain ⟨-, ⟨r, s', hans⟩, hk⟩ := hp s .refl
      obtain ⟨h, t, a, hrun⟩ := ih r (hk r s' hans)
      exact ⟨_, t, a, Runs.call hans hrun⟩

end Ensures

end World

end Effects
