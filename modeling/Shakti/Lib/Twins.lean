import Shakti.Lib.Prog

/-!
# Shakti.Lib.Twins

**Two runs that differ in a secret.** A `View` says what an observer makes of a pair of runs: which
calls look alike, which answers differ in the secret only, and what of the past that depends on.

* `Alike V R s p q` — the programs make calls that look alike, whatever answers that look alike
  they are given, and return values related by `R`. It is a relation between trees, composes along
  `bind`, and is proved one function at a time.
* `Blind V p` — the program is alike to itself: an observer learns nothing of the secret from what
  it does, or returns. Programs that are never given a part of the secret are (`blind_of_avoids`).
* `Fed`/`Twins` — of two traces: the answers look alike where the calls do, and both look alike.
* `Alike.twins` — runs of alike programs that are fed alike are twins, and what is left to run is
  alike: the same value, or calls that look alike (`Alike.outcome`).
-/

namespace Effects

/-- What an observer sees of a pair of runs. -/
structure View (S : Sig) (σ : Type) where
  /-- The calls look alike. -/
  call : σ → S.Call → S.Call → Prop
  /-- The answers look alike. -/
  answer : σ → Event S → Event S → Prop
  /-- What is remembered of the first run. -/
  next : σ → Event S → σ

namespace Prog

variable {S : Sig} {σ α β γ δ : Type} {V : View S σ} {R : α → β → Prop} {T : γ → δ → Prop}

/-- The programs make calls that look alike and return related values. -/
inductive Alike (V : View S σ) (R : α → β → Prop) : σ → Prog S α → Prog S β → Prop
  | pure {s : σ} {a : α} {b : β} : R a b → Alike V R s (.pure a) (.pure b)
  | call {s : σ} {c c' : S.Call} {k : S.Answer c → Prog S α} {k' : S.Answer c' → Prog S β} :
      V.call s c c' →
      (∀ r r', V.answer s ⟨c, r⟩ ⟨c', r'⟩ → Alike V R (V.next s ⟨c, r⟩) (k r) (k' r')) →
      Alike V R s (.call c k) (.call c' k')

/-! ### Composition -/

theorem Alike.ask_bind {s : σ} {c c' : S.Call} {f : S.Answer c → Prog S α}
    {g : S.Answer c' → Prog S β} (hcall : V.call s c c')
    (hk : ∀ r r', V.answer s ⟨c, r⟩ ⟨c', r'⟩ → Alike V R (V.next s ⟨c, r⟩) (f r) (g r')) :
    Alike V R s (Prog.ask c >>= f) (Prog.ask c' >>= g) :=
  .call hcall hk

/-- The second parts are to be alike whatever the first have left to be remembered. -/
theorem Alike.bind {s : σ} {p : Prog S α} {q : Prog S β} {f : α → Prog S γ} {g : β → Prog S δ}
    (h : Alike V R s p q) (hfg : ∀ s a b, R a b → Alike V T s (f a) (g b)) :
    Alike V T s (p >>= f) (q >>= g) := by
  induction h with
  | pure hab => exact hfg _ _ _ hab
  | call hcall _ ih => exact .call hcall ih

theorem Alike.ite {s : σ} {b : Prop} [Decidable b] {p p' : Prog S α} {q q' : Prog S β}
    (h : b → Alike V R s p q) (h' : ¬ b → Alike V R s p' q') :
    Alike V R s (if b then p else p') (if b then q else q') := by
  split
  · exact h ‹_›
  · exact h' ‹_›

/-! ### Programs that learn nothing -/

/-- Whatever is remembered, the program is alike to itself. -/
structure Blind (V : View S σ) (p : Prog S α) : Prop where
  alike : ∀ s, Alike V Eq s p p

theorem blind_pure (a : α) : Blind V (Pure.pure a : Prog S α) := ⟨fun _ => .pure rfl⟩

theorem Blind.bind {p : Prog S α} {f : α → Prog S β} (hp : Blind V p)
    (hf : ∀ a, Blind V (f a)) : Blind V (p >>= f) := by
  refine ⟨fun s => (hp.alike s).bind fun t a b hab => ?_⟩
  subst hab
  exact (hf a).alike t

theorem blind_ite {b : Prop} [Decidable b] {p q : Prog S α} (hp : b → Blind V p)
    (hq : ¬ b → Blind V q) : Blind V (if b then p else q) := by
  split
  · exact hp ‹_›
  · exact hq ‹_›

/-- A program is blind that makes no call whose answers may look alike and differ. -/
theorem blind_of_avoids {P : S.Call → Prop} {p : Prog S α} (hp : Avoids P p)
    (hcall : ∀ s c, V.call s c c)
    (hanswer : ∀ s c r r', ¬ P c → V.answer s ⟨c, r⟩ ⟨c, r'⟩ → r = r') : Blind V p := by
  induction p with
  | pure a => exact blind_pure a
  | call c k ih =>
      refine ⟨fun s => .call (hcall s c) fun r r' h => ?_⟩
      obtain rfl := hanswer s c r r' hp.1 h
      exact (ih r (hp.2 r)).alike _

/-- So is any program as long as what is remembered lets no answers differ. -/
theorem alike_self {I : σ → Prop} {s : σ} (p : Prog S α) (hs : I s)
    (hcall : ∀ s c, V.call s c c) (hanswer : ∀ s c r r', I s → V.answer s ⟨c, r⟩ ⟨c, r'⟩ → r = r')
    (hnext : ∀ s e, I s → I (V.next s e)) : Alike V Eq s p p := by
  induction p generalizing s with
  | pure a => exact .pure rfl
  | call c k ih =>
      refine .call (hcall s c) fun r r' h => ?_
      obtain rfl := hanswer s c r r' hs h
      exact ih r (hnext s _ hs)

/-! ### Traces -/

/-- The answers look alike wherever the calls do. -/
def Fed (V : View S σ) : σ → List (Event S) → List (Event S) → Prop
  | s, e :: tr, e' :: tr' =>
      (V.call s e.call e'.call → V.answer s e e') ∧ Fed V (V.next s e) tr tr'
  | _, _, _ => True

/-- The calls and the answers look alike. -/
def Twins (V : View S σ) : σ → List (Event S) → List (Event S) → Prop
  | s, e :: tr, e' :: tr' =>
      V.call s e.call e'.call ∧ V.answer s e e' ∧ Twins V (V.next s e) tr tr'
  | _, [], [] => True
  | _, _, _ => False

/-- Runs of alike programs that are fed alike are twins. -/
theorem Alike.twins {s : σ} {p p' : Prog S α} {q q' : Prog S β} {tr tr' : List (Event S)}
    (h : Alike V R s p q) (hp : Steps p tr p') (hq : Steps q tr' q')
    (hlength : tr.length = tr'.length) (hfed : Fed V s tr tr') :
    Twins V s tr tr' ∧ Alike V R (tr.foldl V.next s) p' q' := by
  induction h generalizing tr tr' with
  | pure hab =>
      cases hp
      cases hq
      exact ⟨trivial, .pure hab⟩
  | call hcall hk ih =>
      cases hp with
      | nil =>
          obtain rfl : tr' = [] := List.length_eq_zero_iff.mp hlength.symm
          cases hq
          exact ⟨trivial, .call hcall hk⟩
      | cons hp =>
          cases hq with
          | nil => exact absurd hlength (Nat.succ_ne_zero _)
          | cons hq =>
              have hanswer := hfed.1 hcall
              obtain ⟨htwins, hrest⟩ :=
                ih _ _ hanswer hp hq (Nat.succ.inj hlength) hfed.2
              exact ⟨⟨hcall, hanswer, htwins⟩, hrest⟩

/-- What is seen of alike programs: related values, or calls that look alike. -/
theorem Alike.outcome {s : σ} {p : Prog S α} {q : Prog S β} (h : Alike V R s p q) :
    (∃ a b, p = .pure a ∧ q = .pure b ∧ R a b) ∨
      ∃ c c' k k', p = .call c k ∧ q = .call c' k' ∧ V.call s c c' := by
  cases h with
  | pure hab => exact Or.inl ⟨_, _, rfl, rfl, hab⟩
  | call hcall _ => exact Or.inr ⟨_, _, _, _, rfl, rfl, hcall⟩

/-- Played against oracles that answer alike, as long as `J` holds of their states, alike programs
are fed alike. -/
theorem Alike.play {τ τ' : Type} {o : τ → (c : S.Call) → Option (S.Answer c × τ)}
    {o' : τ' → (c : S.Call) → Option (S.Answer c × τ')} {J : σ → τ → τ' → Prop}
    (ho : ∀ s t t' c c', J s t t' → V.call s c c' →
      (o t c = none ∧ o' t' c' = none) ∨
      ∃ r r' u u', o t c = some (r, u) ∧ o' t' c' = some (r', u') ∧
        V.answer s ⟨c, r⟩ ⟨c', r'⟩ ∧ J (V.next s ⟨c, r⟩) u u')
    {s : σ} {p : Prog S α} {q : Prog S β} (h : Alike V R s p q) {t : τ} {t' : τ'} (ht : J s t t') :
    (play o t p).1.length = (play o' t' q).1.length ∧
      Fed V s (play o t p).1 (play o' t' q).1 := by
  induction h generalizing t t' with
  | pure => exact ⟨rfl, trivial⟩
  | @call s c c' k k' hcall _ ih =>
      rcases ho s t t' c c' ht hcall with ⟨hnone, hnone'⟩ | ⟨r, r', u, u', hr, hr', hans, hu⟩
      · simp only [Prog.play, hnone, hnone']
        exact ⟨trivial, trivial⟩
      · obtain ⟨hlength, hfed⟩ := ih r r' hans hu
        simp only [Prog.play, hr, hr', List.length_cons, hlength]
        exact ⟨trivial, fun _ => hans, hfed⟩

end Prog

end Effects
