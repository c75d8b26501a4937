import Mathlib.Data.List.Infix

/-!
# Shakti.Lib.Prog

**Programs over a signature of calls.** A program either returns a value or
issues a call and continues with whatever answer comes back. Nothing is assumed
about the answers: a program is the tree of everything it may do, over all of
them.

* `Steps p tr q` — the small-step semantics: `p` issued the calls recorded in
  `tr`, was given the recorded answers, and `q` is what is left to run.
* `Returns`/`Issues` — the two shapes `q` can have: a value, or a pending call.
* `Avoids` — a program none of whose runs issues a call of a given kind. It
  composes along `bind`, so a long program is inverted by discarding the parts
  that avoid the call in question (`Issues.bind_avoids`).
* `Did tr p a` — some contiguous part of the trace `tr` is a complete run of
  `p` that returned `a` (`Did.mono` carries it to longer traces).
* `Begins p tr a rest` — the trace `tr` begins with such a part, and `rest` follows. A
  trace determines what it begins with (`Begins.unique`), so that a condition on what
  the parts of a run returned is read off the run in order (`Starts`).

A call whose answer type is empty never returns: process exit is such a call,
so "does not return" needs no separate outcome.
-/

namespace Effects

/-- The calls a program may issue, and what each of them answers. -/
structure Sig where
  Call : Type
  Answer : Call → Type

/-- A program over `S` that computes an `α`. -/
inductive Prog (S : Sig) (α : Type) where
  /-- The program has returned. -/
  | pure (a : α)
  /-- Issue `c`, then continue with its answer. -/
  | call (c : S.Call) (k : S.Answer c → Prog S α)

/-- An answered call. -/
structure Event (S : Sig) where
  call : S.Call
  answer : S.Answer call

namespace Prog

variable {S : Sig} {α β : Type}

/-- Sequencing: run `p`, hand its value to `f`. -/
def bind (p : Prog S α) (f : α → Prog S β) : Prog S β :=
  match p with
  | .pure a => f a
  | .call c k => .call c (fun r => (k r).bind f)

instance : Monad (Prog S) where
  pure := Prog.pure
  bind := Prog.bind

/-- The program that issues one call and returns its answer. -/
def ask (c : S.Call) : Prog S (S.Answer c) := .call c .pure

@[simp] theorem call_bind (c : S.Call) (k : S.Answer c → Prog S α) (f : α → Prog S β) :
    (Prog.call c k : Prog S α) >>= f = .call c (fun r => k r >>= f) := rfl

/-! ### Runs -/

/-- `p` issued the calls of `tr`, received the recorded answers, and `q` is left
to run. -/
inductive Steps : Prog S α → List (Event S) → Prog S α → Prop
  /-- Nothing has happened yet. -/
  | nil (p : Prog S α) : Steps p [] p
  /-- The pending call is answered by `r`. -/
  | cons {c : S.Call} {k : S.Answer c → Prog S α} {r : S.Answer c}
      {tr : List (Event S)} {q : Prog S α} :
      Steps (k r) tr q → Steps (.call c k) (⟨c, r⟩ :: tr) q

/-- The run `tr` of `p` returned `a`. -/
def Returns (p : Prog S α) (tr : List (Event S)) (a : α) : Prop := Steps p tr (.pure a)

/-- After the run `tr`, the program `p` issues `c`. -/
def Issues (p : Prog S α) (tr : List (Event S)) (c : S.Call) : Prop :=
  ∃ k, Steps p tr (.call c k)

theorem returns_pure_iff {a b : α} {tr : List (Event S)} :
    Returns (Pure.pure a : Prog S α) tr b ↔ tr = [] ∧ b = a := by
  constructor
  · intro h
    cases h
    exact ⟨rfl, rfl⟩
  · rintro ⟨rfl, rfl⟩
    exact Steps.nil _

theorem returns_call_iff {c : S.Call} {k : S.Answer c → Prog S α} {tr : List (Event S)}
    {a : α} : Returns (.call c k) tr a ↔ ∃ r tr', tr = ⟨c, r⟩ :: tr' ∧ Returns (k r) tr' a := by
  constructor
  · intro h
    cases h with
    | cons h => exact ⟨_, _, rfl, h⟩
  · rintro ⟨r, tr', rfl, h⟩
    exact Steps.cons h

/-- A single call returns its answer. -/
theorem returns_ask_iff {c : S.Call} {tr : List (Event S)} {r : S.Answer c} :
    Returns (ask c) tr r ↔ tr = [⟨c, r⟩] := by
  constructor
  · intro h
    obtain ⟨r', tr', rfl, hr⟩ := returns_call_iff.mp h
    obtain ⟨rfl, rfl⟩ := returns_pure_iff.mp hr
    rfl
  · intro h
    subst h
    exact Steps.cons (Steps.nil _)

theorem returns_ask_bind_iff {c : S.Call} {f : S.Answer c → Prog S β} {tr : List (Event S)}
    {b : β} :
    Returns (ask c >>= f) tr b ↔ ∃ r tr', tr = ⟨c, r⟩ :: tr' ∧ Returns (f r) tr' b :=
  returns_call_iff

theorem issues_call_iff {c c' : S.Call} {k : S.Answer c → Prog S α} {tr : List (Event S)} :
    Issues (.call c k) tr c' ↔
      (tr = [] ∧ c' = c) ∨ ∃ r tr', tr = ⟨c, r⟩ :: tr' ∧ Issues (k r) tr' c' := by
  constructor
  · rintro ⟨k', h⟩
    cases h with
    | nil => exact Or.inl ⟨rfl, rfl⟩
    | cons h => exact Or.inr ⟨_, _, rfl, _, h⟩
  · rintro (⟨rfl, rfl⟩ | ⟨r, tr', rfl, k', h⟩)
    · exact ⟨k, Steps.nil _⟩
    · exact ⟨k', Steps.cons h⟩

theorem not_issues_pure {a : α} {tr : List (Event S)} {c : S.Call} :
    ¬ Issues (Pure.pure a : Prog S α) tr c := by
  rintro ⟨k, h⟩
  cases h

theorem Steps.trans {p q q' : Prog S α} {tr tr' : List (Event S)}
    (h : Steps p tr q) (h' : Steps q tr' q') : Steps p (tr ++ tr') q' := by
  induction h with
  | nil => exact h'
  | cons _ ih => exact Steps.cons (ih h')

theorem Steps.bind {p q : Prog S α} {tr : List (Event S)} (h : Steps p tr q)
    (f : α → Prog S β) : Steps (p >>= f) tr (q >>= f) := by
  induction h with
  | nil => exact Steps.nil _
  | cons _ ih => exact Steps.cons ih

theorem Returns.bind {p : Prog S α} {f : α → Prog S β} {tr tr' : List (Event S)} {a : α}
    {b : β} (h : Returns p tr a) (h' : Returns (f a) tr' b) :
    Returns (p >>= f) (tr ++ tr') b :=
  (Steps.bind h f).trans h'

/-- A run of `p >>= f` is a run of `p`, or a complete run of `p` followed by a run of
its continuation. -/
theorem Steps.bind_inv {p : Prog S α} {f : α → Prog S β} {tr : List (Event S)}
    {q : Prog S β} (h : Steps (p >>= f) tr q) :
    (∃ p', Steps p tr p' ∧ q = p' >>= f) ∨
      ∃ tr₁ tr₂ a, tr = tr₁ ++ tr₂ ∧ Returns p tr₁ a ∧ Steps (f a) tr₂ q := by
  induction p generalizing tr with
  | pure a => exact Or.inr ⟨[], tr, a, rfl, Steps.nil _, h⟩
  | call c k ih =>
      cases h with
      | nil => exact Or.inl ⟨_, Steps.nil _, rfl⟩
      | cons h =>
          rcases ih _ h with ⟨p', hp', rfl⟩ | ⟨tr₁, tr₂, a, rfl, hp, hf⟩
          · exact Or.inl ⟨p', Steps.cons hp', rfl⟩
          · exact Or.inr ⟨_ :: tr₁, tr₂, a, rfl, Steps.cons hp, hf⟩

theorem returns_bind_iff {p : Prog S α} {f : α → Prog S β} {tr : List (Event S)} {b : β} :
    Returns (p >>= f) tr b ↔
      ∃ tr₁ tr₂ a, tr = tr₁ ++ tr₂ ∧ Returns p tr₁ a ∧ Returns (f a) tr₂ b := by
  constructor
  · intro h
    rcases Steps.bind_inv h with ⟨p', hp', hq⟩ | h'
    · cases p' with
      | pure a =>
          have hfa : f a = .pure b := hq.symm
          exact ⟨tr, [], a, by simp, hp', by rw [Returns, hfa]; exact Steps.nil _⟩
      | call c k => exact absurd hq (by simp)
    · exact h'
  · rintro ⟨tr₁, tr₂, a, rfl, h, h'⟩
    exact h.bind h'

/-- Post-processing a value issues no call. -/
theorem returns_map_iff {p : Prog S α} {g : α → β} {tr : List (Event S)} {b : β} :
    Returns (p >>= fun a => Pure.pure (g a)) tr b ↔ ∃ a, Returns p tr a ∧ b = g a := by
  rw [returns_bind_iff]
  constructor
  · rintro ⟨tr₁, tr₂, a, rfl, h, h'⟩
    obtain ⟨rfl, rfl⟩ := returns_pure_iff.mp h'
    exact ⟨a, by simpa using h, rfl⟩
  · rintro ⟨a, h, rfl⟩
    exact ⟨tr, [], a, by simp, h, Steps.nil _⟩

/-- A run determines what it returned. -/
theorem Returns.unique {p : Prog S α} {tr : List (Event S)} {a b : α} (h : Returns p tr a)
    (h' : Returns p tr b) : a = b := by
  induction p generalizing tr with
  | pure c =>
      obtain ⟨-, rfl⟩ := returns_pure_iff.mp h
      exact (returns_pure_iff.mp h').2.symm
  | call c k ih =>
      obtain ⟨r, tr', rfl, hr⟩ := returns_call_iff.mp h
      obtain ⟨r', tr'', heq, hr'⟩ := returns_call_iff.mp h'
      cases heq
      exact ih r hr hr'

/-- The call pending after a run of `p >>= f` is pending in `p`, or in the
continuation of a value `p` returned. -/
theorem issues_bind_iff {p : Prog S α} {f : α → Prog S β} {tr : List (Event S)}
    {c : S.Call} :
    Issues (p >>= f) tr c ↔
      Issues p tr c ∨
        ∃ tr₁ tr₂ a, tr = tr₁ ++ tr₂ ∧ Returns p tr₁ a ∧ Issues (f a) tr₂ c := by
  constructor
  · rintro ⟨k, h⟩
    rcases Steps.bind_inv h with ⟨p', hp', hq⟩ | ⟨tr₁, tr₂, a, rfl, hp, hf⟩
    · cases p' with
      | pure a =>
          have hfa : f a = .call c k := hq.symm
          exact Or.inr ⟨tr, [], a, by simp, hp', k, by rw [hfa]; exact Steps.nil _⟩
      | call c' k' =>
          rw [call_bind] at hq
          cases hq
          exact Or.inl ⟨k', hp'⟩
    · exact Or.inr ⟨tr₁, tr₂, a, rfl, hp, k, hf⟩
  · rintro (⟨k, h⟩ | ⟨tr₁, tr₂, a, rfl, hp, k, hf⟩)
    · exact ⟨_, Steps.bind h f⟩
    · exact ⟨k, (Steps.bind hp f).trans hf⟩

/-- Nothing more happens: the program has returned, or waits on a call that never
returns. -/
def Final (q : Prog S α) : Prop := ∀ tr q', Steps q tr q' → tr = []

/-- A program that waits for good waits on a call without an answer. -/
theorem Final.isEmpty {c : S.Call} {k : S.Answer c → Prog S α}
    (h : Final (Prog.call c k)) : IsEmpty (S.Answer c) := by
  refine ⟨fun r => ?_⟩
  have hnil := h [⟨c, r⟩] (k r) (Steps.cons (Steps.nil _))
  simp at hnil

/-! ### Programs that avoid a kind of call -/

/-- No run of the program issues a call satisfying `P`. -/
def Avoids (P : S.Call → Prop) : Prog S α → Prop
  | .pure _ => True
  | .call c k => ¬ P c ∧ ∀ r, Avoids P (k r)

variable {P : S.Call → Prop}

@[simp] theorem avoids_pure (a : α) : Avoids P (Pure.pure a : Prog S α) := trivial

@[simp] theorem avoids_call (c : S.Call) (k : S.Answer c → Prog S α) :
    Avoids P (.call c k) ↔ ¬ P c ∧ ∀ r, Avoids P (k r) := Iff.rfl

@[simp] theorem avoids_ask (c : S.Call) :
    @Avoids S (no_index (S.Answer c)) P (ask c) ↔ ¬ P c :=
  ⟨fun h => h.1, fun h => ⟨h, fun _ => trivial⟩⟩

/-- A sequence avoids what its first part avoids, and its second part after every
value the first may return. -/
@[simp] theorem avoids_bind {p : Prog S α} {f : α → Prog S β} :
    Avoids P (p >>= f) ↔ Avoids P p ∧ ∀ tr a, Returns p tr a → Avoids P (f a) := by
  induction p with
  | pure a =>
      constructor
      · intro h
        refine ⟨trivial, fun tr b hb => ?_⟩
        obtain ⟨-, rfl⟩ := returns_pure_iff.mp hb
        exact h
      · rintro ⟨-, h⟩
        exact h [] a (Steps.nil _)
  | call c k ih =>
      constructor
      · rintro ⟨hc, hk⟩
        refine ⟨⟨hc, fun r => ((ih r).mp (hk r)).1⟩, fun tr a ha => ?_⟩
        obtain ⟨r, tr', -, hr⟩ := returns_call_iff.mp ha
        exact ((ih r).mp (hk r)).2 tr' a hr
      · rintro ⟨⟨hc, hk⟩, hf⟩
        exact ⟨hc, fun r => (ih r).mpr ⟨hk r, fun tr a ha => hf _ a (Steps.cons ha)⟩⟩

theorem Avoids.bind {p : Prog S α} {f : α → Prog S β} (hp : Avoids P p)
    (hf : ∀ a, Avoids P (f a)) : Avoids P (p >>= f) :=
  avoids_bind.mpr ⟨hp, fun _ a _ => hf a⟩

@[simp] theorem avoids_ite {c : Prop} [Decidable c] {p q : Prog S α} :
    Avoids P (if c then p else q) ↔ (c → Avoids P p) ∧ (¬ c → Avoids P q) := by
  split
  · simp [*]
  · simp [*]

/-- Avoiding more calls is the stronger property. -/
theorem Avoids.mono {Q : S.Call → Prop} {p : Prog S α} (hp : Avoids P p)
    (h : ∀ c, Q c → P c) : Avoids Q p := by
  induction p with
  | pure a => trivial
  | call c k ih => exact ⟨fun hc => hp.1 (h c hc), fun r => ih r (hp.2 r)⟩

theorem Avoids.not_issues {p : Prog S α} (hp : Avoids P p) {tr : List (Event S)}
    {c : S.Call} (hc : P c) : ¬ Issues p tr c := by
  rintro ⟨k, h⟩
  generalize hq : Prog.call c k = q at h
  induction h with
  | nil => exact absurd hc (hq ▸ hp).1
  | cons _ ih => exact ih (hp.2 _) hq

/-- A complete run of a program that avoids a kind of call has no such event. -/
theorem Avoids.returns {p : Prog S α} (hp : Avoids P p) {tr : List (Event S)} {a : α}
    (h : Returns p tr a) : ∀ e ∈ tr, ¬ P e.call := by
  induction p generalizing tr with
  | pure b =>
      obtain ⟨rfl, -⟩ := returns_pure_iff.mp h
      simp
  | call c k ih =>
      obtain ⟨r, tr', rfl, hr⟩ := returns_call_iff.mp h
      exact List.forall_mem_cons.mpr ⟨hp.1, ih r (hp.2 r) hr⟩

/-- Inverting a run that reached a call its first part avoids: the first part
returned, and its continuation reached the call. -/
theorem Issues.bind_avoids {p : Prog S α} {f : α → Prog S β} {tr : List (Event S)}
    {c : S.Call} (h : Issues (p >>= f) tr c) (hp : Avoids P p) (hc : P c) :
    ∃ tr₁ tr₂ a, tr = tr₁ ++ tr₂ ∧ Returns p tr₁ a ∧ Issues (f a) tr₂ c :=
  (issues_bind_iff.mp h).resolve_left (hp.not_issues hc)

/-- A call its continuation avoids is the first one. -/
theorem Issues.ask_bind_only {c' : S.Call} {f : S.Answer c' → Prog S β} {tr : List (Event S)}
    {c : S.Call} (h : Issues (ask c' >>= f) tr c) (hf : ∀ r, Avoids P (f r)) (hc : P c) :
    tr = [] ∧ c = c' := by
  rcases issues_call_iff.mp h with hfirst | ⟨r, _, -, h⟩
  · exact hfirst
  · exact absurd h ((hf r).not_issues hc)

/-! ### What happened within a run -/

/-- Within the run `tr`, the sub-program `p` ran and returned `a`. -/
def Did (tr : List (Event S)) (p : Prog S α) (a : α) : Prop :=
  ∃ mid, mid <:+: tr ∧ Returns p mid a

theorem Returns.did {p : Prog S α} {tr : List (Event S)} {a : α} (h : Returns p tr a) :
    Did tr p a :=
  ⟨tr, List.infix_rfl, h⟩

/-- What happened within a part of a run happened within the run. -/
theorem Did.mono {p : Prog S α} {tr tr' : List (Event S)} {a : α} (h : Did tr p a)
    (hsub : tr <:+: tr') : Did tr' p a := by
  obtain ⟨mid, hmid, hp⟩ := h
  exact ⟨mid, hmid.trans hsub, hp⟩

theorem Did.left {p : Prog S α} {tr : List (Event S)} {a : α} (h : Did tr p a)
    (tr' : List (Event S)) : Did (tr ++ tr') p a :=
  h.mono (List.prefix_append tr tr').isInfix

theorem Did.right {p : Prog S α} {tr : List (Event S)} {a : α} (h : Did tr p a)
    (tr' : List (Event S)) : Did (tr' ++ tr) p a :=
  h.mono (List.suffix_append tr' tr).isInfix

/-! ### What a run begins with -/

/-- The run `tr` begins with a complete run of `p`, which returned `a`; `rest` follows. -/
def Begins (p : Prog S α) (tr : List (Event S)) (a : α) (rest : List (Event S)) : Prop :=
  ∃ t, tr = t ++ rest ∧ Returns p t a

/-- A run begins with at most one complete run of a program. -/
theorem Begins.unique {p : Prog S α} {tr rest rest' : List (Event S)} {a a' : α}
    (h : Begins p tr a rest) (h' : Begins p tr a' rest') : a = a' ∧ rest = rest' := by
  obtain ⟨t, rfl, ht⟩ := h
  obtain ⟨t', heq, ht'⟩ := h'
  induction p generalizing t t' with
  | pure b =>
      obtain ⟨rfl, rfl⟩ := returns_pure_iff.mp ht
      obtain ⟨rfl, rfl⟩ := returns_pure_iff.mp ht'
      exact ⟨rfl, heq⟩
  | call c k ih =>
      obtain ⟨r, u, rfl, hr⟩ := returns_call_iff.mp ht
      obtain ⟨r', u', rfl, hr'⟩ := returns_call_iff.mp ht'
      rw [List.cons_append, List.cons_append] at heq
      obtain ⟨hev, htail⟩ := List.cons.inj heq
      cases hev
      exact ih r u hr u' htail hr'

/-- What follows the complete run of `p` at the beginning of a run of `p >>= f` is a run of
`f`. -/
theorem Begins.steps {p : Prog S α} {f : α → Prog S β} {tr rest : List (Event S)} {a : α}
    {q : Prog S β} (h : Begins p tr a rest) (hrun : Steps (p >>= f) tr q) :
    Steps (f a) rest q := by
  obtain ⟨t, rfl, ht⟩ := h
  induction p generalizing t with
  | pure b =>
      obtain ⟨rfl, rfl⟩ := returns_pure_iff.mp ht
      exact hrun
  | call c k ih =>
      obtain ⟨r, u, rfl, hr⟩ := returns_call_iff.mp ht
      cases hrun with
      | cons hrun => exact ih r u hr hrun

/-- The run starts with a complete run of `p`, and `Q` holds of what that returned and of
what follows. -/
def Starts (p : Prog S α) (Q : α → List (Event S) → Prop) (tr : List (Event S)) : Prop :=
  ∃ a rest, Begins p tr a rest ∧ Q a rest

theorem Begins.starts_iff {p : Prog S α} {Q : α → List (Event S) → Prop}
    {tr rest : List (Event S)} {a : α} (h : Begins p tr a rest) : Starts p Q tr ↔ Q a rest := by
  constructor
  · rintro ⟨a', rest', h', hQ⟩
    obtain ⟨rfl, rfl⟩ := h.unique h'
    exact hQ
  · exact fun hQ => ⟨a, rest, h, hQ⟩

/-! ### Playing a program against an oracle -/

/-- Run a program against an oracle, which answers from a state of its own or
declines; a declined call stays pending. -/
def play {σ : Type} (o : σ → (c : S.Call) → Option (S.Answer c × σ)) :
    σ → Prog S α → List (Event S) × Prog S α
  | _, .pure a => ([], .pure a)
  | s, .call c k =>
      match o s c with
      | none => ([], .call c k)
      | some (r, s') => (⟨c, r⟩ :: (play o s' (k r)).1, (play o s' (k r)).2)

theorem play_steps {σ : Type} (o : σ → (c : S.Call) → Option (S.Answer c × σ)) :
    ∀ (s : σ) (p : Prog S α), Steps p (play o s p).1 (play o s p).2
  | _, .pure a => Steps.nil _
  | s, .call c k => by
      unfold play
      cases o s c with
      | none => exact Steps.nil _
      | some rs => exact Steps.cons (play_steps o rs.2 (k rs.1))

/-- From the state `s` the oracle gives the answers of `tr`, and is then in the state `t`. -/
inductive Given {σ : Type} (o : σ → (c : S.Call) → Option (S.Answer c × σ)) :
    σ → List (Event S) → σ → Prop
  /-- Nothing has been asked. -/
  | nil (s : σ) : Given o s [] s
  /-- The oracle answers the first call, and goes on from its new state. -/
  | cons {s s' t : σ} {c : S.Call} {r : S.Answer c} {tr : List (Event S)} :
      o s c = some (r, s') → Given o s' tr t → Given o s (⟨c, r⟩ :: tr) t

section Given

variable {σ : Type} {o : σ → (c : S.Call) → Option (S.Answer c × σ)} {s t : σ}

theorem given_nil_iff : Given o s [] t ↔ t = s := by
  constructor
  · intro h
    cases h
    rfl
  · intro h
    subst h
    exact Given.nil _

theorem given_cons_iff {e : Event S} {tr : List (Event S)} :
    Given o s (e :: tr) t ↔ ∃ s', o s e.call = some (e.answer, s') ∧ Given o s' tr t := by
  constructor
  · intro h
    cases h with
    | cons he htr => exact ⟨_, he, htr⟩
  · intro h
    obtain ⟨s', he, htr⟩ := h
    exact Given.cons he htr

theorem given_append_iff {tr tr' : List (Event S)} :
    Given o s (tr ++ tr') t ↔ ∃ m, Given o s tr m ∧ Given o m tr' t := by
  induction tr generalizing s with
  | nil => simp [given_nil_iff]
  | cons e tr ih =>
      simp only [List.cons_append, given_cons_iff, ih]
      constructor
      · intro h
        obtain ⟨s', he, m, htr, htr'⟩ := h
        exact ⟨m, ⟨s', he, htr⟩, htr'⟩
      · intro h
        obtain ⟨m, ⟨s', he, htr⟩, htr'⟩ := h
        exact ⟨s', he, m, htr, htr'⟩

/-- A run of a sequence is answered part by part. -/
theorem Given.of_bind {p : Prog S α} {f : α → Prog S β} {tr : List (Event S)} {b : β}
    (hg : Given o s tr t) (h : Returns (p >>= f) tr b) :
    ∃ tr₁ tr₂ m a, Given o s tr₁ m ∧ Returns p tr₁ a ∧ Given o m tr₂ t ∧ Returns (f a) tr₂ b := by
  obtain ⟨tr₁, tr₂, a, rfl, hp, hf⟩ := returns_bind_iff.mp h
  obtain ⟨m, hg₁, hg₂⟩ := given_append_iff.mp hg
  exact ⟨tr₁, tr₂, m, a, hg₁, hp, hg₂, hf⟩

/-- A value that is returned at once leaves the oracle as it is. -/
theorem Given.of_pure {a b : α} {tr : List (Event S)} (hg : Given o s tr t)
    (h : Returns (Pure.pure a : Prog S α) tr b) : t = s ∧ b = a := by
  obtain ⟨rfl, rfl⟩ := returns_pure_iff.mp h
  exact ⟨given_nil_iff.mp hg, rfl⟩

/-- The state the oracle is left in. -/
def after (o : σ → (c : S.Call) → Option (S.Answer c × σ)) : σ → Prog S α → σ
  | s, .pure _ => s
  | s, .call c k =>
      match o s c with
      | none => s
      | some (r, s') => after o s' (k r)

theorem play_given (o : σ → (c : S.Call) → Option (S.Answer c × σ)) :
    ∀ (s : σ) (p : Prog S α), Given o s (play o s p).1 (after o s p)
  | s, .pure _ => Given.nil s
  | s, .call c k => by
      unfold play after
      cases h : o s c with
      | none => exact Given.nil s
      | some rs => exact Given.cons h (play_given o rs.2 (k rs.1))

end Given

/-- The call a program is waiting on, if any. -/
def pending : Prog S α → Option S.Call
  | .pure _ => none
  | .call c _ => some c

/-- The value a program has returned, if it has. -/
def value : Prog S α → Option α
  | .pure a => some a
  | .call _ _ => none

theorem play_issues {σ : Type} {o : σ → (c : S.Call) → Option (S.Answer c × σ)} {s : σ}
    {p : Prog S α} {c : S.Call} (h : (play o s p).2.pending = some c) :
    Issues p (play o s p).1 c := by
  have hs := play_steps o s p
  cases hq : (play o s p).2 with
  | pure a => rw [hq] at h; simp [pending] at h
  | call c' k =>
      rw [hq] at h hs
      obtain rfl : c' = c := by simpa [pending] using h
      exact ⟨k, hs⟩

theorem play_returns {σ : Type} {o : σ → (c : S.Call) → Option (S.Answer c × σ)} {s : σ}
    {p : Prog S α} {a : α} (h : (play o s p).2.value = some a) :
    Returns p (play o s p).1 a := by
  have hs := play_steps o s p
  cases hq : (play o s p).2 with
  | pure b =>
      rw [hq] at h hs
      obtain rfl : b = a := by simpa [value] using h
      exact hs
  | call c' k => rw [hq] at h; simp [value] at h

end Prog

end Effects
