import Shakti.Lib.Ensures

/-!
# Shakti.Lib.Safe

**Partial correctness in a world.** `Safe W G post s p` says of the program `p`, started in the
state `s` of the world: every call it makes meets the guarantee `G` in the state it finds, and
what `p` returns, if it returns, meets `post`. Nothing is said about whether the calls are
answered.

* `Safe.bind`, `Safe.ite`, `Safe.mono` — the rules of composition. `Safe.bind_returns` also
  hands the second part what is known of the value the first returned.
* `Safe.keeps`, `Safe.frame` — a program that avoids the calls that break an invariant keeps it,
  and one that avoids those that change the state leaves it alone.
* `Safe.runs` — every call of a run met the guarantee, also of one that is not finished, and
  what is left to run is safe from where it stands (`Safe.completed`, `Safe.pending`).

A run in a world that only answers is a run of the program (`Runs.steps`), and it is taken apart
along `bind` (`Runs.bind_inv`).
-/

namespace Effects

namespace World

variable {S : Sig} {σ α β : Type} {W : World S σ} {G : σ → S.Call → Prop} {s t : σ}

/-- Every call meets `G`, and what is returned meets `post`. -/
def Safe (W : World S σ) (G : σ → S.Call → Prop) (post : σ → α → Prop) : σ → Prog S α → Prop
  | s, .pure a => post s a
  | s, .call c k => ∀ m, W.Waits c s m → G m c ∧
      ∀ r s', W.answers m c r s' → Safe W G post s' (k r)

namespace Safe

/-- A call where nothing else moves. -/
theorem call {post : σ → α → Prop} {c : S.Call} {k : S.Answer c → Prog S α} (hW : W.Still)
    (hG : G s c) (hk : ∀ r s', W.answers s c r s' → Safe W G post s' (k r)) :
    Safe W G post s (.call c k) := by
  intro m hwait
  obtain rfl := hW.waits_eq hwait
  exact ⟨hG, hk⟩

/-- The program that only makes a call. -/
theorem ask {c : S.Call} {post : σ → S.Answer c → Prop} (hW : W.Still) (hG : G s c)
    (hpost : ∀ r s', W.answers s c r s' → post s' r) : Safe W G post s (Prog.ask c) :=
  call hW hG hpost

theorem ask_bind {c : S.Call} {k : S.Answer c → Prog S α} {post : σ → α → Prop} (hW : W.Still)
    (hG : G s c) (hk : ∀ r s', W.answers s c r s' → Safe W G post s' (k r)) :
    Safe W G post s (Prog.ask c >>= k) :=
  call hW hG hk

theorem bind {mid : σ → α → Prop} {post : σ → β → Prop} {p : Prog S α} {f : α → Prog S β}
    (hp : Safe W G mid s p) (hf : ∀ t a, mid t a → Safe W G post t (f a)) :
    Safe W G post s (p >>= f) := by
  induction p generalizing s with
  | pure a => exact hf s a hp
  | call c k ih =>
      intro m hwait
      obtain ⟨hG, hk⟩ := hp m hwait
      exact ⟨hG, fun r s' hans => ih r (hk r s' hans)⟩

/-- The value the first part returned is one it returns in some run. -/
theorem bind_returns {mid : σ → α → Prop} {post : σ → β → Prop} {p : Prog S α} {f : α → Prog S β}
    (hp : Safe W G mid s p)
    (hf : ∀ t a tr, mid t a → Prog.Returns p tr a → Safe W G post t (f a)) :
    Safe W G post s (p >>= f) := by
  induction p generalizing s with
  | pure a => exact hf s a [] hp (Prog.Steps.nil _)
  | call c k ih =>
      intro m hwait
      obtain ⟨hG, hk⟩ := hp m hwait
      exact ⟨hG, fun r s' hans => ih r (hk r s' hans) fun t a tr hmid ha =>
        hf t a _ hmid (Prog.Steps.cons ha)⟩

variable {post : σ → α → Prop} {p q : Prog S α}

theorem mono {post' : σ → α → Prop} (hp : Safe W G post s p) (h : ∀ t a, post t a → post' t a) :
    Safe W G post' s p := by
  induction p generalizing s with
  | pure a => exact h s a hp
  | call c k ih =>
      intro m hwait
      obtain ⟨hG, hk⟩ := hp m hwait
      exact ⟨hG, fun r s' hans => ih r (hk r s' hans)⟩

/-- What never returns meets any condition on what it returns. -/
theorem of_not_returns {post' : σ → α → Prop} (hp : Safe W G post s p)
    (h : ∀ tr a, ¬ Prog.Returns p tr a) : Safe W G post' s p := by
  induction p generalizing s with
  | pure a => exact absurd (Prog.Steps.nil _) (h [] a)
  | call c k ih =>
      intro m hwait
      obtain ⟨hG, hk⟩ := hp m hwait
      exact ⟨hG, fun r s' hans => ih r (hk r s' hans) fun tr a ha => h _ a (Prog.Steps.cons ha)⟩

theorem ite {b : Prop} [Decidable b] (hp : b → Safe W G post s p) (hq : ¬ b → Safe W G post s q) :
    Safe W G post s (if b then p else q) := by
  split
  · exact hp ‹_›
  · exact hq ‹_›

/-- A program that avoids the calls `P` keeps an invariant that all other calls keep. -/
theorem keeps {P : S.Call → Prop} {I : σ → Prop} (hW : W.Still) (hp : Prog.Avoids P p)
    (hG : ∀ m c, I m → ¬ P c → G m c)
    (hstep : ∀ m c r s', I m → ¬ P c → W.answers m c r s' → I s') (hs : I s) :
    Safe W G (fun t _ => I t) s p := by
  induction p generalizing s with
  | pure a => exact hs
  | call c k ih =>
      exact call hW (hG s c hs hp.1) fun r s' hans => ih r (hp.2 r) (hstep s c r s' hs hp.1 hans)

/-- It leaves alone what they leave alone. -/
theorem frame {P : S.Call → Prop} (hW : W.Still) (hp : Prog.Avoids P p)
    (hG : ∀ c, ¬ P c → G s c) (hstay : ∀ c r s', ¬ P c → W.answers s c r s' → s' = s) :
    Safe W G (fun t _ => t = s) s p := by
  refine keeps hW hp (fun m c hm hc => ?_) (fun m c r s' hm hc hans => ?_) rfl
  · subst hm
    exact hG c hc
  · subst hm
    exact hstay c r s' hc hans

/-! ### Runs -/

variable {h : List (Moment S σ)}

/-- Every call of a run meets the guarantee, and what is left to run is safe. -/
theorem runs (hp : Safe W G post s p) (hrun : Runs W s p h t q) :
    (∀ m ∈ h, G m.state m.event.call) ∧ Safe W G post t q := by
  induction hrun with
  | nil => exact ⟨by simp, hp⟩
  | other hstep _ ih => exact ih fun m hwait => hp m (.head hstep hwait)
  | call hans _ ih =>
      obtain ⟨hG, hk⟩ := hp _ .refl
      obtain ⟨hrest, hq⟩ := ih (hk _ _ hans)
      exact ⟨List.forall_mem_cons.mpr ⟨hG, hrest⟩, hq⟩

theorem completed {a : α} (hp : Safe W G post s p) (hrun : Completed W s p h t a) : post t a :=
  (hp.runs hrun).2

/-- The call a run has come to meets the guarantee. -/
theorem pending {c : S.Call} {k : S.Answer c → Prog S α} (hp : Safe W G post s p)
    (hrun : Runs W s p h t (.call c k)) : G t c :=
  ((hp.runs hrun).2 t .refl).1

end Safe

/-! ### Total correctness -/

namespace Ensures

theorem ask_bind {c : S.Call} {k : S.Answer c → Prog S α} {post : σ → α → Prop} (hW : W.Still)
    (hG : G s c) (hanswer : ∃ r s', W.answers s c r s')
    (hk : ∀ r s', W.answers s c r s' → Ensures W G post s' (k r)) :
    Ensures W G post s (Prog.ask c >>= k) :=
  call hW hG hanswer hk

theorem mono {post post' : σ → α → Prop} {p : Prog S α} (hp : Ensures W G post s p)
    (h : ∀ t a, post t a → post' t a) : Ensures W G post' s p := by
  induction p generalizing s with
  | pure a => exact h s a hp
  | call c k ih =>
      intro m hwait
      obtain ⟨hG, hanswer, hk⟩ := hp m hwait
      exact ⟨hG, hanswer, fun r s' hans => ih r (hk r s' hans)⟩

theorem ite {post : σ → α → Prop} {p q : Prog S α} {b : Prop} [Decidable b]
    (hp : b → Ensures W G post s p) (hq : ¬ b → Ensures W G post s q) :
    Ensures W G post s (if b then p else q) := by
  split
  · exact hp ‹_›
  · exact hq ‹_›

/-- A program that avoids the calls `P` finishes where all other calls are answered and leave
the state alone. -/
theorem frame {P : S.Call → Prop} {p : Prog S α} (hW : W.Still) (hp : Prog.Avoids P p)
    (hG : ∀ c, ¬ P c → G s c) (hanswer : ∀ c, ¬ P c → ∃ r s', W.answers s c r s')
    (hstay : ∀ c r s', ¬ P c → W.answers s c r s' → s' = s) :
    Ensures W G (fun t _ => t = s) s p := by
  induction p with
  | pure a => exact rfl
  | call c k ih =>
      refine call hW (hG c hp.1) (hanswer c hp.1) fun r s' hans => ?_
      obtain rfl := hstay c r s' hp.1 hans
      exact ih r (hp.2 r)

end Ensures

/-! ### Runs taken apart -/

/-- A run in the world is a run of the program. -/
theorem Runs.steps {p q : Prog S α} {h : List (Moment S σ)} (hrun : Runs W s p h t q) :
    Prog.Steps p (h.map Moment.event) q := by
  induction hrun with
  | nil => exact Prog.Steps.nil _
  | other _ _ ih => exact ih
  | call _ _ ih => exact Prog.Steps.cons ih

/-- A run of a sequence is a run of its first part, or a complete run of it and a run of the
second. -/
theorem Runs.bind_inv {p : Prog S α} {f : α → Prog S β} {h : List (Moment S σ)} {q : Prog S β}
    (hrun : Runs W s (p >>= f) h t q) :
    (∃ p', Runs W s p h t p' ∧ q = p' >>= f) ∨
      ∃ h₁ h₂ m a, h = h₁ ++ h₂ ∧ Completed W s p h₁ m a ∧ Runs W m (f a) h₂ t q := by
  induction p generalizing s h with
  | pure a => exact Or.inr ⟨[], h, s, a, rfl, Runs.nil _ _, hrun⟩
  | call c k ih =>
      generalize hpf : (Prog.call c k >>= f : Prog S β) = pf at hrun
      induction hrun with
      | nil => exact Or.inl ⟨_, Runs.nil _ _, hpf.symm⟩
      | other hstep _ ihrun =>
          have hrest := ihrun ih hpf
          rw [Prog.call_bind] at hpf
          cases hpf
          rcases hrest with ⟨p', hp', rfl⟩ | ⟨h₁, h₂, m, a, rfl, hp, hf⟩
          · exact Or.inl ⟨p', Runs.other hstep hp', rfl⟩
          · exact Or.inr ⟨h₁, h₂, m, a, rfl, Runs.other hstep hp, hf⟩
      | call hans hrest _ =>
          rw [Prog.call_bind] at hpf
          cases hpf
          rcases ih _ hrest with ⟨p', hp', rfl⟩ | ⟨h₁, h₂, m, a, rfl, hp, hf⟩
          · exact Or.inl ⟨p', Runs.call hans hp', rfl⟩
          · exact Or.inr ⟨_ :: h₁, h₂, m, a, rfl, Runs.call hans hp, hf⟩

/-- A run that has come to a call its first part avoids has completed that part. -/
theorem Runs.bind_avoids {P : S.Call → Prop} {p : Prog S α} {f : α → Prog S β}
    {h : List (Moment S σ)} {c : S.Call} {k : S.Answer c → Prog S β}
    (hrun : Runs W s (p >>= f) h t (.call c k)) (hp : Prog.Avoids P p) (hc : P c) :
    ∃ h₁ h₂ m a, h = h₁ ++ h₂ ∧ Completed W s p h₁ m a ∧ Runs W m (f a) h₂ t (.call c k) := by
  rcases hrun.bind_inv with ⟨p', hp', hq⟩ | hdone
  · cases p' with
    | pure a =>
        have hfa : f a = .call c k := hq.symm
        exact ⟨h, [], t, a, by simp, hp', by rw [hfa]; exact Runs.nil _ _⟩
    | call c' k' =>
        rw [Prog.call_bind] at hq
        cases hq
        exact absurd ⟨k', hp'.steps⟩ (hp.not_issues hc)
  · exact hdone

/-- A run that has come to a call its second part avoids is still in the first. -/
theorem Runs.bind_first {P : S.Call → Prop} {p : Prog S α} {f : α → Prog S β}
    {h : List (Moment S σ)} {c : S.Call} {k : S.Answer c → Prog S β}
    (hrun : Runs W s (p >>= f) h t (.call c k)) (hf : ∀ a, Prog.Avoids P (f a)) (hc : P c) :
    ∃ k', Runs W s p h t (.call c k') := by
  rcases hrun.bind_inv with ⟨p', hp', hq⟩ | ⟨h₁, h₂, m, a, -, -, hrest⟩
  · cases p' with
    | pure a =>
        have hfa : f a = .call c k := hq.symm
        have havoid := hf a
        rw [hfa] at havoid
        exact absurd hc havoid.1
    | call c' k' =>
        rw [Prog.call_bind] at hq
        cases hq
        exact ⟨k', hp'⟩
  · exact absurd ⟨k, hrest.steps⟩ ((hf a).not_issues hc)

/-- Where nothing else moves, a run that starts with a call has come to it, or has made it. -/
theorem Runs.ask_bind_inv (hW : W.Still) {c : S.Call} {f : S.Answer c → Prog S α} {q : Prog S α}
    {h : List (Moment S σ)} (hrun : Runs W s (Prog.ask c >>= f) h t q) :
    (h = [] ∧ t = s ∧ q = Prog.ask c >>= f) ∨
      ∃ r s' h', h = ⟨s, ⟨c, r⟩⟩ :: h' ∧ W.answers s c r s' ∧ Runs W s' (f r) h' t q := by
  generalize hp : Prog.ask c >>= f = p at hrun
  cases hrun with
  | nil => exact Or.inl ⟨rfl, rfl, rfl⟩
  | other hstep => exact absurd hstep (hW _ _ _)
  | call hans hrest =>
      cases hp
      exact Or.inr ⟨_, _, _, rfl, hans, hrest⟩

/-- A program played against an oracle that answers as the world does runs in the world. -/
theorem Runs.of_play {o : σ → (c : S.Call) → Option (S.Answer c × σ)} {I : σ → Prop}
    (ho : ∀ s c r s', I s → o s c = some (r, s') → W.answers s c r s' ∧ I s') (hs : I s)
    (p : Prog S α) :
    ∃ h, Runs W s p h (Prog.after o s p) (Prog.play o s p).2 ∧
      h.map Moment.event = (Prog.play o s p).1 := by
  induction p generalizing s with
  | pure a => exact ⟨[], Runs.nil _ _, rfl⟩
  | call c k ih =>
      unfold Prog.play Prog.after
      cases hc : o s c with
      | none => exact ⟨[], Runs.nil _ _, rfl⟩
      | some answer =>
          obtain ⟨r, s'⟩ := answer
          obtain ⟨hans, hs'⟩ := ho s c r s' hs hc
          obtain ⟨h, hrun, hevents⟩ := ih r hs'
          exact ⟨_, Runs.call hans hrun, congrArg (List.cons (⟨c, r⟩ : Event S)) hevents⟩

/-- So it comes to the call it is waiting on. -/
theorem Runs.of_play_pending {o : σ → (c : S.Call) → Option (S.Answer c × σ)} {I : σ → Prop}
    (ho : ∀ s c r s', I s → o s c = some (r, s') → W.answers s c r s' ∧ I s') (hs : I s)
    {p : Prog S α} {c : S.Call} (hc : (Prog.play o s p).2.pending = some c) :
    ∃ h k, Runs W s p h (Prog.after o s p) (.call c k) := by
  obtain ⟨h, hrun, -⟩ := Runs.of_play ho hs p
  generalize (Prog.play o s p).2 = q at hrun hc
  cases q with
  | pure a => cases hc
  | call c' k =>
      cases hc
      exact ⟨h, k, hrun⟩

/-- So it returns what it was played to. -/
theorem Completed.of_play_value {o : σ → (c : S.Call) → Option (S.Answer c × σ)} {I : σ → Prop}
    (ho : ∀ s c r s', I s → o s c = some (r, s') → W.answers s c r s' ∧ I s') (hs : I s)
    {p : Prog S α} {a : α} (ha : (Prog.play o s p).2.value = some a) :
    ∃ h, Completed W s p h (Prog.after o s p) a ∧ h.map Moment.event = (Prog.play o s p).1 := by
  obtain ⟨h, hrun, hevents⟩ := Runs.of_play ho hs p
  generalize (Prog.play o s p).2 = q at hrun ha
  cases q with
  | pure b =>
      cases ha
      exact ⟨h, hrun, hevents⟩
  | call c k => cases ha

end World

end Effects
