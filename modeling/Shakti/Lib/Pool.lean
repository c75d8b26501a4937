import Mathlib.Data.Set.Insert
import Shakti.Lib.World

/-!
# Shakti.Lib.Pool

**Any number of processes in one world.** A `Shared` world answers the calls of all of them, in any
order; processes are started at any time from a set of programs, and they fork.

* `Thread` — a process: the program it was started with, what it has done, and what is left to run.
  A forked child has its parent's past.
* `Shared.Step`, `Shared.Reaches` — one step of a pool, and the pools that are reached from an empty
  one.
* `Reaches.each` — what holds of each process; of what it has done, that it is a run of a program
  that may be started (`Reaches.sound`), and that what only grows has grown (`Reaches.grows`).
* `Reaches.invariant` — a condition on the world and on all that was ever done in it holds in every
  reachable pool, if it holds at first and no call that a started program can issue, after
  whatever run, breaks it. The condition is the ghost state of the proof: it speaks of the moments
  of all processes.
-/

namespace Effects

variable {S : Sig} {σ α : Type}

/-- A run goes through what is left after each of its parts. -/
theorem Prog.Steps.split {p q : Prog S α} {tr tr' : List (Event S)}
    (h : Prog.Steps p (tr ++ tr') q) : ∃ m, Prog.Steps p tr m ∧ Prog.Steps m tr' q := by
  induction tr generalizing p with
  | nil => exact ⟨p, Prog.Steps.nil _, h⟩
  | cons e tr ih =>
      cases h with
      | cons h =>
          obtain ⟨m, hm, hrest⟩ := ih h
          exact ⟨m, Prog.Steps.cons hm, hrest⟩

/-- A world that processes share. -/
structure Shared (S : Sig) (σ α : Type) where
  /-- In the first state the call may be answered so, which leads to the second. -/
  answers : σ → (c : S.Call) → S.Answer c → σ → Prop
  /-- A step of the rest of the world. -/
  other : σ → σ → Prop
  /-- The programs that processes are started with. -/
  starts : Prog S α → Prop
  /-- The call makes a child: what the parent is answered, and the child. -/
  forks : (c : S.Call) → S.Answer c → S.Answer c → Prop

/-- A process. -/
structure Thread (S : Sig) (σ α : Type) where
  program : Prog S α
  past : List (Moment S σ)
  rest : Prog S α

/-- What the process has been answered, without the states of the world. -/
def Thread.trace (th : Thread S σ α) : List (Event S) := th.past.map Moment.event

/-- The process goes on after a call. -/
def Thread.goesOn (th : Thread S σ α) (m : Moment S σ) (q : Prog S α) : Thread S σ α :=
  { th with past := th.past ++ [m], rest := q }

namespace Shared

variable {W : Shared S σ α} {s t : σ} {threads : List (Thread S σ α)}

/-- One step of a pool of processes. -/
inductive Step (W : Shared S σ α) :
    σ × List (Thread S σ α) → σ × List (Thread S σ α) → Prop
  /-- The rest of the world moves. -/
  | other {s s' : σ} {threads : List (Thread S σ α)} :
      W.other s s' → Step W (s, threads) (s', threads)
  /-- A process is started. -/
  | start {s : σ} {threads : List (Thread S σ α)} {p : Prog S α} :
      W.starts p → Step W (s, threads) (s, ⟨p, [], p⟩ :: threads)
  /-- The call a process waits on is answered. -/
  | call {s s' : σ} {before after : List (Thread S σ α)} {th : Thread S σ α} {c : S.Call}
      {k : S.Answer c → Prog S α} {r : S.Answer c} :
      th.rest = .call c k → W.answers s c r s' →
      Step W (s, before ++ th :: after) (s', before ++ th.goesOn ⟨s, ⟨c, r⟩⟩ (k r) :: after)
  /-- A process forks. -/
  | fork {s : σ} {before after : List (Thread S σ α)} {th : Thread S σ α} {c : S.Call}
      {k : S.Answer c → Prog S α} {r r' : S.Answer c} :
      th.rest = .call c k → W.forks c r r' →
      Step W (s, before ++ th :: after)
        (s, before ++ th.goesOn ⟨s, ⟨c, r⟩⟩ (k r) :: th.goesOn ⟨s, ⟨c, r'⟩⟩ (k r') :: after)

/-- The pool is reached from a world in which nothing runs. -/
def Reaches (W : Shared S σ α) (s t : σ) (threads : List (Thread S σ α)) : Prop :=
  Relation.ReflTransGen W.Step (s, []) (t, threads)

end Shared

namespace Thread

variable {W : Shared S σ α} {th : Thread S σ α}

/-- What the process has done is a run of a program that may be started. -/
structure Sound (W : Shared S σ α) (th : Thread S σ α) : Prop where
  started : W.starts th.program
  steps : Prog.Steps th.program th.trace th.rest

theorem trace_goesOn (m : Moment S σ) (q : Prog S α) :
    (th.goesOn m q).trace = th.trace ++ [m.event] := List.map_append

theorem Sound.goesOn {s : σ} {c : S.Call} {k : S.Answer c → Prog S α} (h : th.Sound W)
    (hrest : th.rest = .call c k) (r : S.Answer c) :
    (th.goesOn ⟨s, ⟨c, r⟩⟩ (k r)).Sound W := by
  refine ⟨h.started, ?_⟩
  rw [trace_goesOn]
  exact h.steps.trans (hrest ▸ Prog.Steps.cons (Prog.Steps.nil _))

/-- The call a process waits on is issued after its past. -/
theorem Sound.issues {c : S.Call} {k : S.Answer c → Prog S α} (h : th.Sound W)
    (hrest : th.rest = .call c k) : Prog.Issues th.program th.trace c :=
  ⟨k, hrest ▸ h.steps⟩

/-- Each of its calls was issued after what the process had done before. -/
theorem Sound.issued {h₁ h₂ : List (Moment S σ)} {m : Moment S σ} (h : th.Sound W)
    (hpast : th.past = h₁ ++ m :: h₂) :
    Prog.Issues th.program (h₁.map Moment.event) m.event.call := by
  have hsteps := h.steps
  rw [trace, hpast, List.map_append] at hsteps
  obtain ⟨p, hp, hrest⟩ := hsteps.split
  rw [List.map_cons] at hrest
  obtain ⟨u, e⟩ := m
  cases hrest with
  | cons hrest => exact ⟨_, hp⟩

end Thread

/-- All that the processes have done. -/
def moments (threads : List (Thread S σ α)) : Set (Moment S σ) :=
  {m | ∃ th ∈ threads, m ∈ th.past}

theorem mem_moments {threads : List (Thread S σ α)} {m : Moment S σ} :
    m ∈ moments threads ↔ ∃ th ∈ threads, m ∈ th.past := Iff.rfl

theorem moments_start (p : Prog S α) (threads : List (Thread S σ α)) :
    moments (⟨p, [], p⟩ :: threads) = moments threads := by
  ext m
  simp [mem_moments]

theorem moments_call (before after : List (Thread S σ α)) (th : Thread S σ α) (m : Moment S σ)
    (q : Prog S α) :
    moments (before ++ th.goesOn m q :: after) = insert m (moments (before ++ th :: after)) := by
  ext m'
  simp only [mem_moments, Set.mem_insert_iff, List.mem_append, List.mem_cons]
  constructor
  · intro h
    obtain ⟨th', hin | rfl | hin, hm⟩ := h
    · exact Or.inr ⟨th', Or.inl hin, hm⟩
    · rcases List.mem_append.mp hm with hm | hm
      · exact Or.inr ⟨th, Or.inr (Or.inl rfl), hm⟩
      · exact Or.inl (List.mem_singleton.mp hm)
    · exact Or.inr ⟨th', Or.inr (Or.inr hin), hm⟩
  · intro h
    rcases h with rfl | ⟨th', hin | rfl | hin, hm⟩
    · exact ⟨_, Or.inr (Or.inl rfl), List.mem_append_right _ (List.mem_singleton.mpr rfl)⟩
    · exact ⟨th', Or.inl hin, hm⟩
    · exact ⟨_, Or.inr (Or.inl rfl), List.mem_append_left _ hm⟩
    · exact ⟨th', Or.inr (Or.inr hin), hm⟩

theorem moments_insert (before after : List (Thread S σ α)) (th th' : Thread S σ α) :
    moments (before ++ th :: th' :: after) =
      {m | m ∈ th'.past} ∪ moments (before ++ th :: after) := by
  ext m
  simp only [mem_moments, Set.mem_union, Set.mem_ofPred_eq, List.mem_append, List.mem_cons]
  constructor
  · intro h
    obtain ⟨u, hin | rfl | rfl | hin, hm⟩ := h
    · exact Or.inr ⟨u, Or.inl hin, hm⟩
    · exact Or.inr ⟨u, Or.inr (Or.inl rfl), hm⟩
    · exact Or.inl hm
    · exact Or.inr ⟨u, Or.inr (Or.inr hin), hm⟩
  · intro h
    rcases h with hm | ⟨u, hin | rfl | hin, hm⟩
    · exact ⟨th', Or.inr (Or.inr (Or.inl rfl)), hm⟩
    · exact ⟨u, Or.inl hin, hm⟩
    · exact ⟨u, Or.inr (Or.inl rfl), hm⟩
    · exact ⟨u, Or.inr (Or.inr (Or.inr hin)), hm⟩

theorem moments_fork (before after : List (Thread S σ α)) (th : Thread S σ α)
    (m m' : Moment S σ) (q q' : Prog S α) :
    moments (before ++ th.goesOn m q :: th.goesOn m' q' :: after) =
      insert m (insert m' (moments (before ++ th :: after))) := by
  rw [moments_insert, moments_call]
  have hpast : ∀ x ∈ th.past, x ∈ moments (before ++ th :: after) := fun x hx =>
    ⟨th, List.mem_append_right _ (List.mem_cons_self ..), hx⟩
  ext x
  simp only [Thread.goesOn, Set.mem_union, Set.mem_ofPred_eq, Set.mem_insert_iff, List.mem_append,
    List.mem_singleton]
  have := hpast x
  tauto

namespace Shared

variable {W : Shared S σ α} {s t : σ} {threads : List (Thread S σ α)}

/-- **What holds of each process of a pool.** It holds of a process that is started, what the world
does meanwhile keeps it, and so does each call that the process itself makes. -/
theorem Reaches.each {Q : σ → Thread S σ α → Prop}
    (hstart : ∀ u p, W.starts p → Q u ⟨p, [], p⟩)
    (hother : ∀ u u' th, W.other u u' → Q u th → Q u' th)
    (hanswer : ∀ u c r u' th, W.answers u c r u' → Q u th → Q u' th)
    (hcall : ∀ u c r u' k th, th.rest = .call c k → W.answers u c r u' → Q u th →
      Q u' (th.goesOn ⟨u, ⟨c, r⟩⟩ (k r)))
    (hfork : ∀ u c r r' k th, th.rest = .call c k → W.forks c r r' → Q u th →
      Q u (th.goesOn ⟨u, ⟨c, r⟩⟩ (k r)) ∧ Q u (th.goesOn ⟨u, ⟨c, r'⟩⟩ (k r')))
    (h : W.Reaches s t threads) : ∀ th ∈ threads, Q t th := by
  have key : ∀ c d : σ × List (Thread S σ α), W.Step c d → (∀ th ∈ c.2, Q c.1 th) →
      ∀ th ∈ d.2, Q d.1 th := by
    intro c d hstep hc
    cases hstep with
    | other hmove => exact fun th hth => hother _ _ _ hmove (hc th hth)
    | start hp => exact List.forall_mem_cons.mpr ⟨hstart _ _ hp, hc⟩
    | call hrest hans =>
        simp only [List.forall_mem_append, List.forall_mem_cons] at hc ⊢
        obtain ⟨hbefore, hth, hafter⟩ := hc
        exact ⟨fun th hin => hanswer _ _ _ _ _ hans (hbefore th hin),
          hcall _ _ _ _ _ _ hrest hans hth, fun th hin => hanswer _ _ _ _ _ hans (hafter th hin)⟩
    | fork hrest hforks =>
        simp only [List.forall_mem_append, List.forall_mem_cons] at hc ⊢
        obtain ⟨hbefore, hth, hafter⟩ := hc
        obtain ⟨hparent, hchild⟩ := hfork _ _ _ _ _ _ hrest hforks hth
        exact ⟨hbefore, hparent, hchild, hafter⟩
  unfold Reaches at h
  generalize hd : (t, threads) = d at h
  induction h generalizing t threads with
  | refl =>
      cases hd
      simp
  | tail _ hstep ih =>
      cases hd
      exact key _ _ hstep (ih rfl)

/-- What the processes of a pool have done are runs of programs that may be started. -/
theorem Reaches.sound (h : W.Reaches s t threads) : ∀ th ∈ threads, th.Sound W :=
  h.each (Q := fun _ th => th.Sound W) (fun _ _ hp => ⟨hp, Prog.Steps.nil _⟩)
    (fun _ _ _ _ hth => hth) (fun _ _ _ _ _ _ hth => hth)
    (fun _ _ r _ _ _ hrest _ hth => hth.goesOn hrest r)
    (fun _ _ r r' _ _ hrest _ hth => ⟨hth.goesOn hrest r, hth.goesOn hrest r'⟩)

/-- What only grows in the world has grown along what each process has done. -/
theorem Reaches.grows {β : Type} [Preorder β] {f : σ → β}
    (hother : ∀ u u', W.other u u' → f u ≤ f u')
    (hanswer : ∀ u c r u', W.answers u c r u' → f u ≤ f u')
    (h : W.Reaches s t threads) :
    ∀ th ∈ threads, th.past.Pairwise (fun m m' => f m.state ≤ f m'.state) ∧
      ∀ m ∈ th.past, f m.state ≤ f t := by
  have hlater : ∀ u u' (th : Thread S σ α), f u ≤ f u' →
      th.past.Pairwise (fun m m' => f m.state ≤ f m'.state) ∧ (∀ m ∈ th.past, f m.state ≤ f u) →
      th.past.Pairwise (fun m m' => f m.state ≤ f m'.state) ∧ ∀ m ∈ th.past, f m.state ≤ f u' :=
    fun u u' th hle hth => ⟨hth.1, fun m hm => (hth.2 m hm).trans hle⟩
  have hnext : ∀ u u' e q (th : Thread S σ α), f u ≤ f u' →
      th.past.Pairwise (fun m m' => f m.state ≤ f m'.state) ∧ (∀ m ∈ th.past, f m.state ≤ f u) →
      (th.goesOn ⟨u, e⟩ q).past.Pairwise (fun m m' => f m.state ≤ f m'.state) ∧
        ∀ m ∈ (th.goesOn ⟨u, e⟩ q).past, f m.state ≤ f u' := by
    intro u u' e q th hle hth
    refine ⟨List.pairwise_append.mpr ⟨hth.1, List.pairwise_singleton _ _, ?_⟩, ?_⟩
    · intro m hm m' hm'
      rw [List.mem_singleton.mp hm']
      exact hth.2 m hm
    · intro m hm
      rcases List.mem_append.mp hm with hm | hm
      · exact (hth.2 m hm).trans hle
      · rw [List.mem_singleton.mp hm]
        exact hle
  exact h.each (Q := fun u th => th.past.Pairwise (fun m m' => f m.state ≤ f m'.state) ∧
      ∀ m ∈ th.past, f m.state ≤ f u)
    (fun _ _ _ => ⟨List.Pairwise.nil, by simp⟩)
    (fun u u' th hmove hth => hlater u u' th (hother u u' hmove) hth)
    (fun u c r u' th hans hth => hlater u u' th (hanswer u c r u' hans) hth)
    (fun u c r u' _ th _ hans hth => hnext u u' _ _ th (hanswer u c r u' hans) hth)
    (fun u _ _ _ _ th _ _ hth => ⟨hnext u u _ _ th le_rfl hth, hnext u u _ _ th le_rfl hth⟩)

/-- A process that is answered by an oracle as the world answers goes on as the oracle has it. -/
theorem Reaches.play {τ : Type} {o : τ → (c : S.Call) → Option (S.Answer c × τ)} {view : τ → σ}
    {I : τ → Prop}
    (ho : ∀ u c r u', I u → o u c = some (r, u') → W.answers (view u) c r (view u') ∧ I u')
    {u : τ} (hu : I u) {p q : Prog S α} {past : List (Moment S σ)}
    (h : W.Reaches s (view u) (⟨p, past, q⟩ :: threads)) :
    ∃ past', past'.map Moment.event = past.map Moment.event ++ (Prog.play o u q).1 ∧
      W.Reaches s (view (Prog.after o u q)) (⟨p, past', (Prog.play o u q).2⟩ :: threads) := by
  induction q generalizing u past with
  | pure a => exact ⟨past, (List.append_nil _).symm, h⟩
  | call c k ih =>
      unfold Prog.play Prog.after
      cases hc : o u c with
      | none => exact ⟨past, (List.append_nil _).symm, h⟩
      | some answer =>
          obtain ⟨r, u'⟩ := answer
          obtain ⟨hans, hu'⟩ := ho u c r u' hu hc
          have hstep : W.Reaches s (view u')
              (⟨p, past ++ [⟨view u, ⟨c, r⟩⟩], k r⟩ :: threads) :=
            h.tail (show W.Step (view u, [] ++ _ :: threads) _ from Step.call rfl hans)
          obtain ⟨past', hpast', hreach⟩ := ih r hu' hstep
          refine ⟨past', ?_, hreach⟩
          rw [hpast', List.map_append, List.append_assoc]
          rfl

/-- A process is started, and goes on to the call it is played to. -/
theorem Reaches.start_play {τ : Type} {o : τ → (c : S.Call) → Option (S.Answer c × τ)}
    (view : τ → σ)
    (ho : ∀ u c r u', o u c = some (r, u') → W.answers (view u) c r (view u')) {u : τ}
    {p : Prog S α} (hp : W.starts p) {c : S.Call}
    (hc : (Prog.play o u p).2.pending = some c) (h : W.Reaches s (view u) threads) :
    ∃ past k, W.Reaches s (view (Prog.after o u p)) (⟨p, past, .call c k⟩ :: threads) := by
  obtain ⟨past, -, hreach⟩ := Reaches.play (I := fun _ => True)
    (fun u c r u' _ hans => ⟨ho u c r u' hans, trivial⟩) trivial (h.tail (Step.start hp))
  generalize (Prog.play o u p).2 = q at hc hreach
  cases q with
  | pure a => cases hc
  | call c' k =>
      cases hc
      exact ⟨past, k, hreach⟩

/-- A call that some process may make after some run. -/
def MayIssue (W : Shared S σ α) (c : S.Call) : Prop :=
  ∃ p tr, W.starts p ∧ Prog.Issues p tr c

/-- **Invariants of a pool.** -/
theorem Reaches.invariant {I : σ → Set (Moment S σ) → Prop} (hstart : I s ∅)
    (hother : ∀ u u' M, I u M → W.other u u' → I u' M)
    (hcall : ∀ u c r u' M, I u M → W.MayIssue c → W.answers u c r u' →
      I u' (insert ⟨u, ⟨c, r⟩⟩ M))
    (hfork : ∀ u c r r' M, I u M → W.MayIssue c → W.forks c r r' →
      I u (insert ⟨u, ⟨c, r⟩⟩ (insert ⟨u, ⟨c, r'⟩⟩ M)))
    (h : W.Reaches s t threads) : I t (moments threads) := by
  have key : ∀ c d : σ × List (Thread S σ α), W.Step c d → (∀ th ∈ c.2, th.Sound W) →
      I c.1 (moments c.2) → I d.1 (moments d.2) := by
    intro c d hstep hsound hc
    cases hstep with
    | other hmove => exact hother _ _ _ hc hmove
    | start hp =>
        rw [moments_start]
        exact hc
    | call hrest hans =>
        have hth := hsound _ (List.mem_append_right _ (List.mem_cons_self ..))
        rw [moments_call]
        exact hcall _ _ _ _ _ hc ⟨_, _, hth.started, hth.issues hrest⟩ hans
    | fork hrest hforks =>
        have hth := hsound _ (List.mem_append_right _ (List.mem_cons_self ..))
        rw [moments_fork]
        exact hfork _ _ _ _ _ hc ⟨_, _, hth.started, hth.issues hrest⟩ hforks
  unfold Reaches at h
  generalize hd : (t, threads) = d at h
  induction h generalizing t threads with
  | refl =>
      cases hd
      have hnone : moments ([] : List (Thread S σ α)) = ∅ := by
        ext m
        simp [mem_moments]
      rw [hnone]
      exact hstart
  | tail hreach hstep ih =>
      cases hd
      exact key _ _ hstep (Reaches.sound hreach) (ih rfl)

end Shared

end Effects
