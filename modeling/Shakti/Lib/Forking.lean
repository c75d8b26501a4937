import Shakti.Lib.Safe

/-!
# Shakti.Lib.Forking

**A process and its child, in any interleaving.** A `Forking` machine answers the calls of both; a
fork makes the child, a call with which the child is over (an exit, the execution of another
program) removes it, and the rest of the machine moves in between.

* `Forking.Reaches` — the states of the two that are reached from one in which the process is alone.
* `Forking.view` — what one of the two sees: the other is a part of the world, of which it only
  relies on a relation.
* `Reaches.safe` — what is proved of the program in the views holds in all interleavings, if each
  of the two keeps to what the other relies on. `Safe` follows a fork on both sides, so that one
  proof is about the parent and about the child.
-/

namespace Effects

variable {S : Sig} {σ α : Type}

/-- A machine on which a process and its child run. -/
structure Forking (S : Sig) (σ : Type) where
  /-- The parent's call may be answered so. -/
  parent : σ → (c : S.Call) → S.Answer c → σ → Prop
  /-- So may the child's. -/
  child : σ → (c : S.Call) → S.Answer c → σ → Prop
  /-- The call makes a child; the first answer is the parent's, the second the child's. -/
  forks : σ → (c : S.Call) → S.Answer c → S.Answer c → σ → Prop
  /-- The child, which waits on the call, is over. -/
  ends : σ → S.Call → σ → Prop
  /-- A step of the rest of the machine. -/
  other : σ → σ → Prop

namespace Forking

variable {M : Forking S σ}

/-- One step of the two. -/
inductive Step (M : Forking S σ) :
    σ × Prog S α × Option (Prog S α) → σ × Prog S α × Option (Prog S α) → Prop
  | parent {s s' : σ} {c : S.Call} {k : S.Answer c → Prog S α} {r : S.Answer c}
      {kid : Option (Prog S α)} :
      M.parent s c r s' → Step M (s, .call c k, kid) (s', k r, kid)
  | child {s s' : σ} {p : Prog S α} {c : S.Call} {k : S.Answer c → Prog S α} {r : S.Answer c} :
      M.child s c r s' → Step M (s, p, some (.call c k)) (s', p, some (k r))
  | fork {s s' : σ} {c : S.Call} {k : S.Answer c → Prog S α} {r r' : S.Answer c} :
      M.forks s c r r' s' → Step M (s, .call c k, none) (s', k r, some (k r'))
  | ends {s s' : σ} {p : Prog S α} {c : S.Call} {k : S.Answer c → Prog S α} :
      M.ends s c s' → Step M (s, p, some (.call c k)) (s', p, none)
  | other {s s' : σ} {p : Prog S α} {kid : Option (Prog S α)} :
      M.other s s' → Step M (s, p, kid) (s', p, kid)

/-- The two are reached from a process that is alone. -/
def Reaches (M : Forking S σ) (s : σ) (p : Prog S α) (t : σ) (q : Prog S α)
    (kid : Option (Prog S α)) : Prop :=
  Relation.ReflTransGen M.Step (s, p, none) (t, q, kid)

/-- Whose view it is. -/
inductive Role
  | parent
  | child
  deriving DecidableEq

/-- What is answered to one of the two. A fork is answered to the parent, and the child goes on
from the same call. -/
inductive View (M : Forking S σ) : σ × Role → (c : S.Call) → S.Answer c → σ × Role → Prop
  | parent {s s' : σ} {c : S.Call} {r : S.Answer c} :
      M.parent s c r s' → View M (s, .parent) c r (s', .parent)
  | forked {s s' : σ} {c : S.Call} {r r' : S.Answer c} :
      M.forks s c r r' s' → View M (s, .parent) c r (s', .parent)
  | born {s s' : σ} {c : S.Call} {r r' : S.Answer c} :
      M.forks s c r r' s' → View M (s, .parent) c r' (s', .child)
  | child {s s' : σ} {c : S.Call} {r : S.Answer c} :
      M.child s c r s' → View M (s, .child) c r (s', .child)

theorem View.child_inv {s : σ} {c : S.Call} {r : S.Answer c} {v : σ × Role}
    (h : M.View (s, .child) c r v) : ∃ t, v = (t, .child) ∧ M.child s c r t := by
  generalize hu : (s, Role.child) = u at h
  cases h with
  | child hans =>
      cases hu
      exact ⟨_, rfl, hans⟩
  | parent _ => cases hu
  | forked _ => cases hu
  | born _ => cases hu

theorem View.parent_inv {s : σ} {c : S.Call} {r : S.Answer c} {v : σ × Role}
    (h : M.View (s, .parent) c r v) :
    (∃ t, v = (t, .parent) ∧ (M.parent s c r t ∨ ∃ r', M.forks s c r r' t)) ∨
      ∃ t r', v = (t, .child) ∧ M.forks s c r' r t := by
  generalize hu : (s, Role.parent) = u at h
  cases h with
  | child _ => cases hu
  | parent hans =>
      cases hu
      exact Or.inl ⟨_, rfl, Or.inl hans⟩
  | forked hforks =>
      cases hu
      exact Or.inl ⟨_, rfl, Or.inr ⟨_, hforks⟩⟩
  | born hforks =>
      cases hu
      exact Or.inr ⟨_, _, rfl, hforks⟩

/-- The world as one of the two sees it, if it relies on `R`. -/
def view (M : Forking S σ) (R : Role → σ → σ → Prop) : World S (σ × Role) where
  answers := M.View
  other _ s s' := s'.2 = s.2 ∧ R s.2 s.1 s'.1

/-- Each of the two keeps to what the other relies on, where its calls meet `G`, and so does the
rest of the machine. -/
structure Compatible (M : Forking S σ) (R : Role → σ → σ → Prop)
    (G : σ × Role → S.Call → Prop) : Prop where
  parent : ∀ s c r s', G (s, .parent) c → M.parent s c r s' → R .child s s'
  child : ∀ s c r s', G (s, .child) c → M.child s c r s' → R .parent s s'
  ends : ∀ s c s', G (s, .child) c → M.ends s c s' → R .parent s s'
  other : ∀ role s s', M.other s s' → R role s s'

end Forking

namespace World

variable {W : World S σ} {G : σ → S.Call → Prop} {post : σ → α → Prop} {s s' : σ}

/-- A call in a world that keeps `P` while the call is waiting. -/
theorem Safe.call_while {P : σ → Prop} {c : S.Call} {k : S.Answer c → Prog S α}
    (hkeeps : ∀ m m', P m → W.other c m m' → P m') (hs : P s) (hG : ∀ m, P m → G m c)
    (hk : ∀ m r m', P m → W.answers m c r m' → Safe W G post m' (k r)) :
    Safe W G post s (.call c k) := by
  intro m hwait
  have hm : P m := by
    induction hwait with
    | refl => exact hs
    | tail _ hstep ih => exact hkeeps _ _ ih hstep
  exact ⟨hG m hm, fun r m' => hk m r m' hm⟩

end World

namespace Forking

open World

variable {M : Forking S σ} {R : Role → σ → σ → Prop} {G : σ × Role → S.Call → Prop}
  {post : σ × Role → α → Prop} {s t : σ}

/-- What is safe stays so while the other moves. -/
theorem safe_moves {role : Role} {p : Prog S α} (hp : Safe (M.view R) G post (s, role) p)
    (hpost : ∀ a, post (s, role) a → post (t, role) a) (hR : R role s t) :
    Safe (M.view R) G post (t, role) p := by
  cases p with
  | pure a => exact hpost a hp
  | call c k =>
      have hmove : (M.view R).other c (s, role) (t, role) := ⟨rfl, hR⟩
      exact fun m hwait => hp m (.head hmove hwait)

/-- **What is proved in the views holds of the two together.** -/
theorem Reaches.safe (hM : M.Compatible R G)
    (hpost : ∀ role s s' a, post (s, role) a → R role s s' → post (s', role) a)
    {p q : Prog S α} {kid : Option (Prog S α)} (hp : Safe (M.view R) G post (s, .parent) p)
    (h : M.Reaches s p t q kid) :
    Safe (M.view R) G post (t, .parent) q ∧
      ∀ q', kid = some q' → Safe (M.view R) G post (t, .child) q' := by
  have moves {role : Role} {u u' : σ} {p' : Prog S α}
      (hu : Safe (M.view R) G post (u, role) p') (hR : R role u u') :
      Safe (M.view R) G post (u', role) p' :=
    safe_moves hu (fun a ha => hpost _ _ _ a ha hR) hR
  have key : ∀ c d : σ × Prog S α × Option (Prog S α), M.Step c d →
      (Safe (M.view R) G post (c.1, .parent) c.2.1 ∧
        ∀ q', c.2.2 = some q' → Safe (M.view R) G post (c.1, .child) q') →
      Safe (M.view R) G post (d.1, .parent) d.2.1 ∧
        ∀ q', d.2.2 = some q' → Safe (M.view R) G post (d.1, .child) q' := by
    intro c d hstep hc
    obtain ⟨hparent, hkid⟩ := hc
    cases hstep with
    | parent hans =>
        obtain ⟨hG, hk⟩ := hparent _ .refl
        exact ⟨hk _ _ (.parent hans), fun q' hq' => moves (hkid q' hq') (hM.parent _ _ _ _ hG hans)⟩
    | child hans =>
        obtain ⟨hG, hk⟩ := hkid _ rfl _ .refl
        refine ⟨moves hparent (hM.child _ _ _ _ hG hans), ?_⟩
        intro q' hq'
        cases hq'
        exact hk _ _ (.child hans)
    | fork hforks =>
        obtain ⟨-, hk⟩ := hparent _ .refl
        refine ⟨hk _ _ (.forked hforks), ?_⟩
        intro q' hq'
        cases hq'
        exact hk _ _ (.born hforks)
    | ends hends =>
        obtain ⟨hG, -⟩ := hkid _ rfl _ .refl
        exact ⟨moves hparent (hM.ends _ _ _ hG hends), by simp⟩
    | other hmove =>
        exact ⟨moves hparent (hM.other _ _ _ hmove),
          fun q' hq' => moves (hkid q' hq') (hM.other _ _ _ hmove)⟩
  unfold Reaches at h
  generalize hd : (t, q, kid) = d at h
  induction h generalizing t q kid with
  | refl =>
      cases hd
      exact ⟨hp, by simp⟩
  | tail _ hstep ih =>
      cases hd
      exact key _ _ hstep (ih rfl)

theorem Reaches.parent_step {p : Prog S α} {c : S.Call} {k : S.Answer c → Prog S α}
    {kid : Option (Prog S α)} (h : M.Reaches s p t (.call c k) kid) (r : S.Answer c) {u : σ}
    (hans : M.parent t c r u) : M.Reaches s p u (k r) kid :=
  h.tail (.parent hans)

theorem Reaches.forked {p : Prog S α} {c : S.Call} {k : S.Answer c → Prog S α}
    (h : M.Reaches s p t (.call c k) none) (r r' : S.Answer c) {u : σ}
    (hforks : M.forks t c r r' u) : M.Reaches s p u (k r) (some (k r')) :=
  h.tail (.fork hforks)

/-- The child is over with the call it waits on. -/
theorem Reaches.child_ends {p q q' : Prog S α} (h : M.Reaches s p t q (some q')) {c : S.Call}
    (hc : q'.pending = some c) {u : σ} (hends : M.ends t c u) : M.Reaches s p u q none := by
  cases q' with
  | pure a => cases hc
  | call c' k =>
      cases hc
      exact h.tail (.ends hends)

theorem Reaches.returned {p q : Prog S α} {kid : Option (Prog S α)} (h : M.Reaches s p t q kid)
    {a : α} (ha : q.value = some a) : M.Reaches s p t (.pure a) kid := by
  cases q with
  | pure b =>
      cases ha
      exact h
  | call c k => cases ha

/-- The parent goes on as an oracle has it that answers as the machine does. -/
theorem Reaches.parent_play {o : σ → (c : S.Call) → Option (S.Answer c × σ)}
    (ho : ∀ u c r u', o u c = some (r, u') → M.parent u c r u') {p q : Prog S α}
    {kid : Option (Prog S α)} (h : M.Reaches s p t q kid) :
    M.Reaches s p (Prog.after o t q) (Prog.play o t q).2 kid := by
  induction q generalizing t with
  | pure a => exact h
  | call c k ih =>
      unfold Prog.play Prog.after
      cases hc : o t c with
      | none => exact h
      | some answer => exact ih answer.1 (h.tail (.parent (ho t c answer.1 answer.2 hc)))

/-- So does the child. -/
theorem Reaches.child_play {o : σ → (c : S.Call) → Option (S.Answer c × σ)}
    (ho : ∀ u c r u', o u c = some (r, u') → M.child u c r u') {p q q' : Prog S α}
    (h : M.Reaches s p t q (some q')) :
    M.Reaches s p (Prog.after o t q') q (some (Prog.play o t q').2) := by
  induction q' generalizing t with
  | pure a => exact h
  | call c k ih =>
      unfold Prog.play Prog.after
      cases hc : o t c with
      | none => exact h
      | some answer => exact ih answer.1 (h.tail (.child (ho t c answer.1 answer.2 hc)))

end Forking

end Effects
