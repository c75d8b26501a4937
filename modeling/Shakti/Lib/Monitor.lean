import Shakti.Lib.World

/-!
# Shakti.Lib.Monitor

**Monitors and an assume-guarantee rule.** A monitor reads the history of a run one
moment at a time and keeps a state of its own.

* `Always next P d h` — started in the state `d`, the monitor finds `P` at every moment
  of the history `h`.
* `Guards` — every moment of the program meets the guarantee `G` as long as the moments
  so far met the assumption `A`, whatever the rest of the world did in between; and what
  the program returns meets a postcondition. It is a recursion on the program, so it
  composes along `bind` and is proved one function at a time.
* `Guards.always` — in every run, also in one that is not finished, the assumption at
  every moment gives the guarantee at every moment; and what a finished run returned meets
  the postcondition (`Guards.completed`).
-/

namespace Effects

variable {S : Sig} {σ τ ε α β : Type}

/-- Started in the state `d`, the monitor finds `P` at every entry of the history. -/
def Always (next : τ → ε → τ) (P : τ → ε → Prop) : τ → List ε → Prop
  | _, [] => True
  | d, m :: h => P d m ∧ Always next P (next d m) h

/-- What holds at first and after every entry of the history holds at its end. -/
theorem Always.foldl {next : τ → ε → τ} {I : τ → Prop} {d : τ} {h : List ε} (hd : I d)
    (hh : Always next (fun d m => I (next d m)) d h) : I (h.foldl next d) := by
  induction h generalizing d with
  | nil => exact hd
  | cons m h ih => exact ih hh.1 hh.2

theorem always_true (next : τ → ε → τ) (d : τ) (h : List ε) :
    Always next (fun _ _ => True) d h := by
  induction h generalizing d with
  | nil => exact trivial
  | cons m h ih => exact ⟨trivial, ih _⟩

namespace World

variable {W : World S σ} {next : τ → Moment S σ → τ} {A G : τ → Moment S σ → Prop}
  {post : τ → α → Prop}

/-- Started in the state `d` of the monitor, the program keeps `G` as long as `A` was
kept, and returns what meets `post`. -/
def Guards (W : World S σ) (next : τ → Moment S σ → τ) (A G : τ → Moment S σ → Prop)
    (post : τ → α → Prop) : τ → Prog S α → Prop
  | d, .pure a => post d a
  | d, .call c k => ∀ s r s', W.answers s c r s' → A d ⟨s, ⟨c, r⟩⟩ →
      G d ⟨s, ⟨c, r⟩⟩ ∧ Guards W next A G post (next d ⟨s, ⟨c, r⟩⟩) (k r)

/-- A sequence is guarded when its first part is, with a postcondition that makes its
second part guarded. -/
theorem Guards.bind {mid : τ → α → Prop} {post : τ → β → Prop} {d : τ} {p : Prog S α}
    {f : α → Prog S β} (hp : Guards W next A G mid d p)
    (hf : ∀ d a, mid d a → Guards W next A G post d (f a)) :
    Guards W next A G post d (p >>= f) := by
  induction p generalizing d with
  | pure a => exact hf d a hp
  | call c k ih =>
      intro s r s' hans hA
      obtain ⟨hG, hk⟩ := hp s r s' hans hA
      exact ⟨hG, ih r hk⟩

/-- A weaker postcondition. -/
theorem Guards.mono {post' : τ → α → Prop} {d : τ} {p : Prog S α} (hp : Guards W next A G post d p)
    (h : ∀ d a, post d a → post' d a) : Guards W next A G post' d p := by
  induction p generalizing d with
  | pure a => exact h d a hp
  | call c k ih =>
      intro s r s' hans hA
      obtain ⟨hG, hk⟩ := hp s r s' hans hA
      exact ⟨hG, ih r hk⟩

theorem Guards.ite {d : τ} {b : Prop} [Decidable b] {p q : Prog S α}
    (hp : b → Guards W next A G post d p) (hq : ¬ b → Guards W next A G post d q) :
    Guards W next A G post d (if b then p else q) := by
  split
  · exact hp ‹_›
  · exact hq ‹_›

/-- The assumption at every moment of a run gives the guarantee at every moment. -/
theorem Guards.always {d : τ} {p q : Prog S α} {s t : σ} {h : List (Moment S σ)}
    (hp : Guards W next A G post d p) (hrun : Runs W s p h t q)
    (hA : Always next A d h) : Always next G d h := by
  induction hrun generalizing d with
  | nil => exact trivial
  | other _ _ ih => exact ih hp hA
  | call hans _ ih =>
      obtain ⟨hG, hk⟩ := hp _ _ _ hans hA.1
      exact ⟨hG, ih hk hA.2⟩

/-- What a finished run returned meets the postcondition. -/
theorem Guards.completed {d : τ} {p : Prog S α} {s t : σ} {h : List (Moment S σ)} {a : α}
    (hp : Guards W next A G post d p) (hrun : Completed W s p h t a) (hA : Always next A d h) :
    post (h.foldl next d) a := by
  rw [Completed] at hrun
  generalize hq : Prog.pure a = q at hrun
  induction hrun generalizing d with
  | nil =>
      subst hq
      exact hp
  | other _ _ ih => exact ih hp hA hq
  | call hans _ ih => exact ih (hp _ _ _ hans hA.1).2 hA.2 hq

end World

end Effects
