import Mathlib.Logic.Relation
import Shakti.Lib.Prog

/-!
# Shakti.Lib.World

**Programs in a world that moves on its own.** A program's calls are answered from a
state, and before each of them the rest of the world may take steps.

* `World` — the states, the answers to calls, and the steps of the rest of the world
  while a program waits to make a call.
* `Runs`/`Completed` — the interleavings of a program's calls with such steps. A run
  records a `Moment` for each call: the state the call found, and its answer.

A run is inverted along `bind` and one call at a time (`completed_bind_iff`,
`completed_call_iff`). What a condition on the steps of a run guarantees is a statement
about the runs of the world whose steps meet it.
-/

namespace Effects

variable {S : Sig} {σ α β : Type}

/-- A world with states in `σ` that answers the calls of `S`. -/
structure World (S : Sig) (σ : Type) where
  /-- In the first state the call may be answered so, which leads to the second. -/
  answers : σ → (c : S.Call) → S.Answer c → σ → Prop
  /-- A step of the rest of the world, while a program waits to make a call. -/
  other : S.Call → σ → σ → Prop

/-- An answered call and the state it found. -/
structure Moment (S : Sig) (σ : Type) where
  state : σ
  event : Event S

namespace World

variable {W : World S σ}

/-- The steps of the world that meet a condition on the calls and one on the steps of the
rest of the world. -/
def restrict (W : World S σ) (okCall : S.Call → σ → Prop) (okOther : S.Call → σ → σ → Prop) :
    World S σ where
  answers s c r s' := W.answers s c r s' ∧ okCall c s
  other c s s' := W.other c s s' ∧ okOther c s s'

/-- The steps the rest of the world took while the call was waiting. -/
def Waits (W : World S σ) (c : S.Call) : σ → σ → Prop := Relation.ReflTransGen (W.other c)

/-- From the state `s` the program `p` made the calls of `h`, interleaved with the rest
of the world; `q` is left to run from the state `t`. -/
inductive Runs (W : World S σ) : σ → Prog S α → List (Moment S σ) → σ → Prog S α → Prop
  /-- Nothing has happened yet. -/
  | nil (s : σ) (p : Prog S α) : Runs W s p [] s p
  /-- The rest of the world moves before the pending call. -/
  | other {s s' t : σ} {c : S.Call} {k : S.Answer c → Prog S α} {h : List (Moment S σ)}
      {q : Prog S α} :
      W.other c s s' → Runs W s' (.call c k) h t q → Runs W s (.call c k) h t q
  /-- The pending call is answered. -/
  | call {s s' t : σ} {c : S.Call} {k : S.Answer c → Prog S α} {r : S.Answer c}
      {h : List (Moment S σ)} {q : Prog S α} :
      W.answers s c r s' → Runs W s' (k r) h t q →
      Runs W s (.call c k) (⟨s, ⟨c, r⟩⟩ :: h) t q

/-- The run returned `a`. -/
def Completed (W : World S σ) (s : σ) (p : Prog S α) (h : List (Moment S σ)) (t : σ) (a : α) :
    Prop :=
  Runs W s p h t (.pure a)

theorem Runs.trans {s m t : σ} {p p' q : Prog S α} {h h' : List (Moment S σ)}
    (hrun : Runs W s p h m p') (hrun' : Runs W m p' h' t q) : Runs W s p (h ++ h') t q := by
  induction hrun with
  | nil => exact hrun'
  | other hstep _ ih => exact Runs.other hstep (ih hrun')
  | call hans _ ih => exact Runs.call hans (ih hrun')

/-- A pending call may wait. -/
theorem Runs.waits {s m t : σ} {c : S.Call} {k : S.Answer c → Prog S α}
    {h : List (Moment S σ)} {q : Prog S α} (hwait : W.Waits c s m)
    (hrun : Runs W m (.call c k) h t q) : Runs W s (.call c k) h t q := by
  induction hwait using Relation.ReflTransGen.head_induction_on with
  | refl => exact hrun
  | head hstep _ ih => exact Runs.other hstep ih

/-- A run of a program that avoids a kind of call makes no such call. -/
theorem Runs.avoids {P : S.Call → Prop} {s t : σ} {p q : Prog S α} {h : List (Moment S σ)}
    (hrun : Runs W s p h t q) (hp : Prog.Avoids P p) : ∀ m ∈ h, ¬ P m.event.call := by
  induction hrun with
  | nil => simp
  | other _ _ ih => exact ih hp
  | call _ _ ih =>
      intro m hm
      rcases List.mem_cons.mp hm with rfl | hm
      · exact hp.1
      · exact ih (hp.2 _) m hm

/-- What follows a moment of a run is a run from the state its answer led to. -/
theorem Runs.split {s t : σ} {p q : Prog S α} {h₁ h₂ : List (Moment S σ)} {m : Moment S σ}
    (hrun : Runs W s p (h₁ ++ m :: h₂) t q) :
    ∃ s' p', W.answers m.state m.event.call m.event.answer s' ∧ Runs W s' p' h₂ t q := by
  generalize hh : h₁ ++ m :: h₂ = h at hrun
  induction hrun generalizing h₁ with
  | nil => simp at hh
  | other _ _ ih => exact ih hh
  | call hanswer hrest ih =>
      cases h₁ with
      | nil =>
          cases hh
          exact ⟨_, _, hanswer, hrest⟩
      | cons m' h₁ => exact ih (List.cons.inj hh).2

theorem completed_pure_iff {s t : σ} {a b : α} {h : List (Moment S σ)} :
    Completed W s (Pure.pure a) h t b ↔ h = [] ∧ t = s ∧ b = a := by
  constructor
  · intro hrun
    cases hrun
    exact ⟨rfl, rfl, rfl⟩
  · rintro ⟨rfl, rfl, rfl⟩
    exact Runs.nil _ _

/-- A pending call waits, is answered, and the rest runs on. -/
theorem completed_call_iff {s t : σ} {c : S.Call} {k : S.Answer c → Prog S α}
    {h : List (Moment S σ)} {a : α} :
    Completed W s (.call c k) h t a ↔
      ∃ m r s' h', W.Waits c s m ∧ W.answers m c r s' ∧ h = ⟨m, ⟨c, r⟩⟩ :: h' ∧
        Completed W s' (k r) h' t a := by
  constructor
  · intro hrun
    rw [Completed] at hrun
    generalize hp : Prog.call c k = p at hrun
    generalize hq : Prog.pure a = q at hrun
    induction hrun with
    | nil =>
        rw [← hq] at hp
        cases hp
    | other hstep _ ih =>
        cases hp
        obtain ⟨m, r, s', h', hwait, hrest⟩ := ih rfl hq
        exact ⟨m, r, s', h', hwait.head hstep, hrest⟩
    | call hans hrun _ =>
        cases hp
        subst hq
        exact ⟨_, _, _, _, Relation.ReflTransGen.refl, hans, rfl, hrun⟩
  · rintro ⟨m, r, s', h', hwait, hans, rfl, hrun⟩
    exact Runs.waits hwait (Runs.call hans hrun)

theorem completed_ask_bind_iff {s t : σ} {c : S.Call} {f : S.Answer c → Prog S β}
    {h : List (Moment S σ)} {b : β} :
    Completed W s (Prog.ask c >>= f) h t b ↔
      ∃ m r s' h', W.Waits c s m ∧ W.answers m c r s' ∧ h = ⟨m, ⟨c, r⟩⟩ :: h' ∧
        Completed W s' (f r) h' t b :=
  completed_call_iff

/-- A sequence runs its first part to the end, then its second. -/
theorem completed_bind_iff {s t : σ} {p : Prog S α} {f : α → Prog S β}
    {h : List (Moment S σ)} {b : β} :
    Completed W s (p >>= f) h t b ↔
      ∃ h₁ h₂ m a, h = h₁ ++ h₂ ∧ Completed W s p h₁ m a ∧ Completed W m (f a) h₂ t b := by
  induction p generalizing s h with
  | pure a =>
      constructor
      · intro hrun
        exact ⟨[], h, s, a, rfl, Runs.nil _ _, hrun⟩
      · rintro ⟨h₁, h₂, m, a', rfl, hp, hf⟩
        obtain ⟨rfl, rfl, rfl⟩ := completed_pure_iff.mp hp
        exact hf
  | call c k ih =>
      constructor
      · intro hrun
        obtain ⟨m, r, s', h', hwait, hans, rfl, hrest⟩ := completed_call_iff.mp hrun
        obtain ⟨h₁, h₂, m', a, rfl, hp, hf⟩ := (ih r).mp hrest
        exact ⟨_ :: h₁, h₂, m', a, rfl,
          completed_call_iff.mpr ⟨m, r, s', h₁, hwait, hans, rfl, hp⟩, hf⟩
      · rintro ⟨h₁, h₂, m', a, rfl, hp, hf⟩
        obtain ⟨m, r, s', h', hwait, hans, rfl, hrun⟩ := completed_call_iff.mp hp
        exact completed_call_iff.mpr ⟨m, r, s', h' ++ h₂, hwait, hans, rfl,
          (ih r).mpr ⟨h', h₂, m', a, rfl, hrun, hf⟩⟩

/-- Post-processing a value makes no call. -/
theorem completed_map_iff {s t : σ} {p : Prog S α} {g : α → β} {h : List (Moment S σ)} {b : β} :
    Completed W s (p >>= fun a => Pure.pure (g a)) h t b ↔
      ∃ a, Completed W s p h t a ∧ b = g a := by
  rw [completed_bind_iff]
  constructor
  · rintro ⟨h₁, h₂, m, a, rfl, hp, hg⟩
    obtain ⟨rfl, rfl, rfl⟩ := completed_pure_iff.mp hg
    exact ⟨a, by simpa using hp, rfl⟩
  · rintro ⟨a, hp, rfl⟩
    exact ⟨h, [], t, a, by simp, hp, Runs.nil _ _⟩

end World

end Effects
