import Shakti.Alterations

/-!
# Shakti.Children

The children of a run. `shk_run` forks to let `su` check a password, and to run a command on a
pseudo-terminal.

* `Family` — which process a run is followed in, and the children it has made and not reaped.
* `Orderly` — what holds at each call: a child goes on to its `execve` or to an exit and does
  nothing that is the parent's, and the parent has one child at a time, waits for that one, and
  does not go away before it is reaped.

Between the two places that fork a run is alone, so that all other calls are orderly without
further ado (`Alone.frame`).
-/

namespace Shakti

open Effects Effects.World

/-- A process, and its children that it has not reaped. -/
structure Family where
  child : Bool
  running : List Int

/-- What becomes of it. The program handles no signal, so that nothing interrupts a wait. -/
def Family.Answers (s : Family) : Event sysSig → Family → Prop
  | ⟨.fork, (r : Int)⟩, t =>
      t = if r < 0 then s else if r = 0 then ⟨true, []⟩ else { s with running := r :: s.running }
  | ⟨.waitpid pid, _⟩, t => t = { s with running := s.running.erase pid }
  | _, t => t = s

/-- The family as a world, in which nothing moves by itself. -/
def familyWorld : World sysSig Family where
  answers s c r t := s.Answers ⟨c, r⟩ t
  other _ _ _ := False

theorem still_familyWorld : familyWorld.Still := fun _ _ _ => id

/-- The original process, without a child. -/
def Family.alone : Family := ⟨false, []⟩

/-- A child of it. -/
def Family.forked : Family := ⟨true, []⟩

/-- The calls that are not for a child: reading the terminal, asking PAM, the trail and the log,
making and removing timestamps, making session logs, the relay, and the command as root or as the
caller. -/
@[simp] def OfParent : SysCall → Prop
  | .read _ _ | .pamUnixAuthenticate _ _ | .appendLocked _ _ | .sakshiSetLevel | .sakshiInfo _
  | .sakshiWarn _ | .mkdir _ _ | .unlink _ | .openat _ _ _ _ | .poll _ | .signalfd _
  | .sigprocmask _ _ | .pipe | .fork | .waitpid _ | .execve .execTarget _ _ _ => True
  | .open _ flags _ => Making flags
  | _ => False

/-- The flags with which `/dev/null` and an exec attribute are opened. -/
@[simp] theorem not_making_oWronly : ¬ Making oWronly := by decide

/-- The calls that are for a child. -/
@[simp] def OfChild : SysCall → Prop
  | .execve .suAuthenticate _ _ _ | .execve .execTargetPty _ _ _ => True
  | _ => False

/-- What holds at a call. -/
structure Orderly (s : Family) (c : SysCall) : Prop where
  parent : OfParent c → s.child = false
  child : OfChild c → s.child = true
  one : c = .fork → s.running = []
  reaps : ∀ pid, c = .waitpid pid → s.running = [pid]
  leaves : Leaving c → s.running = []

/-- The calls that make a child, are for one, or wait for one. -/
@[simp] def Kin : SysCall → Prop
  | .fork | .waitpid _ => True
  | c => OfChild c

variable {α : Type} {s : Family}

theorem answers_of_not_kin {t : Family} {c : SysCall} {r : c.Answer} (hc : ¬ Kin c)
    (h : s.Answers ⟨c, r⟩ t) : t = s := by
  cases c <;> first | exact h | exact absurd trivial hc

/-- A process that is alone may do what is not for a child. -/
theorem orderly_alone {c : SysCall} (hc : ¬ Kin c) : Orderly .alone c where
  parent _ := rfl
  child h := by cases c <;> simp_all
  one _ := rfl
  reaps := by
    rintro pid rfl
    exact absurd trivial hc
  leaves _ := rfl

/-- Runs that end as they began. -/
abbrev Stays (s : Family) (p : Sys α) : Prop := Safe familyWorld Orderly (fun t _ => t = s) s p

theorem Alone.frame {p : Sys α} (hp : Prog.Avoids Kin p) : Stays .alone p :=
  .frame still_familyWorld hp (fun _ hc => orderly_alone hc) fun _ _ _ hc => answers_of_not_kin hc

/-- So it is for a parent that does not go away. -/
theorem Waiting.frame {pid : Int} {p : Sys α} (hp : Prog.Avoids (fun c => Kin c ∨ Leaving c) p) :
    Stays ⟨false, [pid]⟩ p := by
  refine .frame still_familyWorld hp (fun c hc => ?_) fun _ _ _ hc =>
    answers_of_not_kin fun h => hc (Or.inl h)
  have halone := orderly_alone fun h => hc (Or.inl h)
  refine ⟨halone.parent, halone.child, ?_, ?_, fun h => absurd (Or.inr h) hc⟩
  · rintro rfl
    exact absurd (Or.inl trivial) hc
  · rintro pid rfl
    exact absurd (Or.inl trivial) hc

/-- And for a child that does nothing of the parent's. -/
theorem Forked.frame {p : Sys α} (hp : Prog.Avoids OfParent p) : Stays .forked p := by
  refine .frame still_familyWorld hp (fun c hc => ?_) fun c _ _ hc hans => ?_
  · refine ⟨fun h => absurd h hc, fun _ => rfl, fun _ => rfl, ?_, fun _ => rfl⟩
    rintro pid rfl
    exact absurd trivial hc
  · cases c <;> first | exact hans | exact absurd trivial hc

theorem Stays.bind {β : Type} {p : Sys α} {f : α → Sys β} {post : Family → β → Prop}
    (hp : Stays s p) (hf : ∀ a, Safe familyWorld Orderly post s (f a)) :
    Safe familyWorld Orderly post s (p >>= f) := by
  refine Safe.bind hp fun t a ht => ?_
  subst ht
  exact hf a

/-- The three ways a fork goes on. -/
theorem stays_fork {post : Family → α → Prop} {k : Int → Sys α}
    (hfail : ∀ r < 0, Safe familyWorld Orderly post .alone (k r))
    (hchild : Safe familyWorld Orderly post .forked (k 0))
    (hparent : ∀ pid > 0, Safe familyWorld Orderly post ⟨false, [pid]⟩ (k pid)) :
    Safe familyWorld Orderly post .alone (sys .fork >>= k) := by
  refine Safe.ask_bind still_familyWorld ⟨fun _ => rfl, by simp, fun _ => rfl, by simp, by simp⟩
    fun r t ht => ?_
  obtain rfl := ht
  rcases lt_trichotomy (r : Int) 0 with hr | hr | hr
  · rw [if_pos hr]
    exact hfail r hr
  · subst hr
    exact hchild
  · rw [if_neg hr.not_gt, if_neg hr.ne']
    exact hparent r hr

/-- A parent that waits for its child is alone afterwards. -/
theorem stays_waitpid {post : Family → α → Prop} {pid : Int} {k : Int × Nat → Sys α}
    (hk : ∀ r, Safe familyWorld Orderly post .alone (k r)) :
    Safe familyWorld Orderly post ⟨false, [pid]⟩ (sys (.waitpid pid) >>= k) := by
  refine Safe.ask_bind still_familyWorld ⟨fun _ => rfl, by simp, by simp, ?_, by simp⟩
    fun r t ht => ?_
  · rintro pid' h
    cases h
    rfl
  · obtain rfl : t = .alone := ht.trans (by simp [Family.alone])
    exact hk r

/-! ### Asking for a password -/

theorem Kin.beyondHandling {c : SysCall} (hc : Kin c) : BeyondHandling c := by
  cases c <;> simp_all

@[simp] theorem Handling.avoidsKin {p : Sys α} (hp : Handling p) : Prog.Avoids Kin p :=
  hp.mono fun _ => Kin.beyondHandling

theorem stays_suAuthenticate (username password : CStr) :
    Stays .alone (suAuthenticate username password) := by
  refine Stays.bind (Alone.frame (by simp)) fun pfd => Safe.ite (fun _ => rfl) fun _ => ?_
  refine Stays.bind (Alone.frame (by simp)) fun fds => ?_
  rcases fds with _ | ⟨rfd, wfd⟩
  · exact rfl
  refine stays_fork (fun r hr => ?_) ?_ fun pid hpid => ?_
  · rw [if_pos hr]
    exact Alone.frame (by simp)
  · refine Safe.of_not_returns (Forked.frame ?_) fun _ _ => not_returns_suChild
    simp [suChild, suChild.suExec, sysExit]
  · rw [if_neg hpid.not_gt, if_neg hpid.ne']
    refine Stays.bind (Waiting.frame (by simp)) fun _ => ?_
    refine Stays.bind (Waiting.frame (by simp [fileWrite])) fun _ => ?_
    refine Stays.bind (Waiting.frame (by simp [fileWrite])) fun _ => ?_
    refine Stays.bind (Waiting.frame (by simp)) fun _ => ?_
    refine Stays.bind (Waiting.frame (by simp)) fun stbuf => ?_
    refine Safe.ite (fun _ => stays_waitpid fun _ => rfl) fun _ => stays_waitpid fun r => ?_
    exact Alone.frame (by simp)

theorem stays_promptLoop (username : CStr) (left attempt : Nat) :
    Stays .alone (promptLoop username left attempt) := by
  induction left generalizing attempt with
  | zero => exact rfl
  | succ left ih =>
      refine Stays.bind (Alone.frame (by simp)) fun _ => ?_
      refine Stays.bind (Alone.frame (by simp)) fun _ => ?_
      refine Stays.bind (Alone.frame (by simp)) fun _ => ?_
      refine Stays.bind (Alone.frame (by simp)) fun buf => ?_
      refine Safe.ite (fun _ => Safe.ite (fun _ => ?_) fun _ => rfl) fun _ => ?_
      · exact Stays.bind (Alone.frame (by simp)) fun _ => ih _
      refine Stays.bind ?_ fun r => ?_
      · refine Stays.bind (Alone.frame ?_) fun pam => ?_
        · refine .bind (by simp) fun rc => ?_
          cases rc <;> simp
        · rcases pam with _ | _ | _
          · exact stays_suAuthenticate _ _
          · exact rfl
          · exact rfl
      · refine Safe.ite (fun _ => rfl) fun _ => ?_
        exact Stays.bind (Alone.frame (by simp)) fun _ => ih _

theorem stays_runAuth (caller target resolved : CStr) (eval : Evaluation) :
    Stays .alone (runAuth caller target resolved eval) := by
  refine Safe.ite (fun _ => ?_) fun _ => rfl
  refine Stays.bind (Alone.frame (by simp [maskAuthSignals])) fun saved => ?_
  refine Stays.bind (stays_promptLoop _ _ _) fun ok => ?_
  refine Stays.bind (Alone.frame (by simp [restoreSignals])) fun _ => ?_
  refine Safe.ite (fun _ => ?_) fun _ => ?_
  · exact Alone.frame (by simp)
  · exact Alone.frame (by simp)

/-! ### The run -/

theorem stays_planAuthorized (nss : NssState) (policy : Policy) (caller : CStr)
    (callerUid : Nat) (target : CStr) (eval : Evaluation) (argv : List CStr) :
    Stays .alone (planAuthorized nss policy caller callerUid target eval argv) := by
  unfold planAuthorized
  dsimp only
  cases capsParseSet eval.capabilities with
  | none => exact Alone.frame (by simp)
  | some capMask =>
      refine Stays.bind (stays_runAuth _ _ _ _) fun ok => Safe.ite (fun _ => rfl) fun _ => ?_
      refine Alone.frame (.bind (by simp) fun user => ?_)
      cases user with
      | found ids => exact .bind (by simp) fun logs => by cases logs <;> simp
      | notFound => simp
      | ioError => simp

theorem stays_planPolicy (fuel : Nat) (cli : CliArgs) (policy : Policy) (caller : CStr)
    (callerUid callerGid : Nat) :
    Stays .alone (planPolicy fuel cli policy caller callerUid callerGid) := by
  refine Safe.ite (fun _ => Alone.frame (by simp)) fun _ => ?_
  refine Stays.bind (Alone.frame (by simp)) fun r => ?_
  refine Stays.bind (Alone.frame (by simp)) fun _ => ?_
  refine Stays.bind (Alone.frame (by simp)) fun r => ?_
  refine Safe.ite (fun _ => Alone.frame (by simp)) fun _ => ?_
  refine Stays.bind (Alone.frame (by simp)) fun r => ?_
  exact Safe.ite (fun _ => Alone.frame (by simp)) fun _ => stays_planAuthorized _ _ _ _ _ _ _

theorem stays_planRun (fuel : Nat) (args : List CStr) : Stays .alone (planRun fuel args) := by
  refine Stays.bind (Alone.frame (by simp)) fun _ => ?_
  refine Stays.bind (Alone.frame (by simp)) fun cli => ?_
  cases cli with
  | none => exact Alone.frame (by simp)
  | some cli =>
      refine Safe.ite (fun _ => Alone.frame (by simp)) fun _ => ?_
      refine Safe.ite (fun _ => Alone.frame (by simp)) fun _ => ?_
      refine Stays.bind (Alone.frame (by simp)) fun callerUid => ?_
      refine Stays.bind (Alone.frame (by simp)) fun callerGid => ?_
      refine Stays.bind (Alone.frame (by simp)) fun user => ?_
      cases user with
      | notFound => exact Alone.frame (by simp)
      | ioError => exact Alone.frame (by simp)
      | found ids =>
          refine Safe.ite (fun _ => Alone.frame (by simp)) fun _ => ?_
          refine Safe.ite (fun _ => Alone.frame (by simp)) fun _ => ?_
          refine Stays.bind (Alone.frame (by simp)) fun policy => ?_
          cases policy with
          | none => exact Alone.frame (by simp)
          | some policy => exact stays_planPolicy _ _ _ _ _ _

/-- The calls that are for one of the two, or make a child. -/
@[simp] def TakesPart (c : SysCall) : Prop := OfParent c ∨ Kin c

/-- A program without such calls. -/
abbrev Evenhanded (p : Sys α) : Prop := Prog.Avoids TakesPart p

@[simp] theorem Asking.evenhanded {p : Sys α} (hp : Asking p) : Evenhanded p :=
  hp.mono fun c hc => by cases c <;> simp_all

@[simp] theorem Dropping.evenhanded {p : Sys α} (hp : Dropping p) : Evenhanded p :=
  hp.mono fun c hc => by cases c <;> simp_all

@[simp] theorem evenhanded_sysExit (code : Int) : Evenhanded (sysExit code : Sys α) :=
  avoids_sysExit (by simp)

@[simp] theorem evenhanded_lsmApplyExec (seCtx aaProf : CStr) :
    Evenhanded (lsmApplyExec seCtx aaProf) := by
  simp [lsmApplyExec, lsmSetSelinuxExec, lsmSetApparmorExec, writeExecAttr]

/-- Whom dropping the privileges is for, its `execve` says. -/
theorem avoids_dropAndExec {P : SysCall → Prop} {site : ExecSite} (nss : NssState)
    (req : ExecRequest) (hP : ∀ c, P c → TakesPart c)
    (hexec : ∀ path argv env, ¬ P (.execve site path argv env)) :
    Prog.Avoids P (dropAndExec site nss req) := by
  have hevenhanded {β : Type} {p : Sys β} (hp : Evenhanded p) : Prog.Avoids P p := hp.mono hP
  refine .bind (hevenhanded (by simp)) fun _ => ?_
  refine .bind (hevenhanded (by simp)) fun argv => ?_
  refine .bind (hevenhanded (by simp)) fun envp => ?_
  refine .bind (hevenhanded (by simp [applyLsmOrDie])) fun _ => ?_
  exact .bind ((Prog.avoids_ask _).mpr (hexec _ _ _)) fun _ => by simp

theorem not_returns_ptyChild {slave : Int} {nss : NssState} {req : ExecRequest} {tr : Trace}
    {r : Int} : ¬ Prog.Returns (ptyChild slave nss req) tr r := by
  intro h
  obtain ⟨t₁, tr₁, _, rfl, -, h⟩ := Prog.returns_bind_iff.mp h
  obtain ⟨t₂, tr₂, _, rfl, -, h⟩ := Prog.returns_bind_iff.mp h
  obtain ⟨t₃, tr₃, r0, rfl, -, h⟩ := Prog.returns_bind_iff.mp h
  split at h
  · exact not_returns_sysExit h
  obtain ⟨t₄, tr₄, r1, rfl, -, h⟩ := Prog.returns_bind_iff.mp h
  split at h
  · exact not_returns_sysExit h
  obtain ⟨t₅, tr₅, r2, rfl, -, h⟩ := Prog.returns_bind_iff.mp h
  split at h
  · exact not_returns_sysExit h
  obtain ⟨t₆, tr₆, _, rfl, -, h⟩ := Prog.returns_bind_iff.mp h
  obtain ⟨t₇, tr₇, _, rfl, -, h⟩ := Prog.returns_bind_iff.mp h
  exact not_returns_sysExit h

/-- The child on the pseudo-terminal does nothing of its parent's. -/
theorem stays_ptyChild {post : Family → Int → Prop} (slave : Int) (nss : NssState)
    (req : ExecRequest) : Safe familyWorld Orderly post .forked (ptyChild slave nss req) := by
  refine Safe.of_not_returns (Forked.frame ?_) fun _ _ => not_returns_ptyChild
  have hexec : Prog.Avoids OfParent (dropAndExec .execTargetPty nss req) :=
    avoids_dropAndExec nss req (fun _ => Or.inl) (by simp)
  simp [ptyChild, sysExit, hexec]

theorem stays_ptyParent (fuel : Nat) (slave master pid logfd inlogfd start : Int) :
    Safe familyWorld Orderly (fun t _ => t = .alone) ⟨false, [pid]⟩
      (ptyParent fuel slave master pid logfd inlogfd start) := by
  have hwait {α : Type} {p : Sys α} (hp : Handling p) : Stays ⟨false, [pid]⟩ p :=
    Waiting.frame (hp.mono fun c hc => hc.elim Kin.beyondHandling fun h => by cases c <;> simp_all)
  refine Stays.bind (hwait (by simp)) fun _ => ?_
  refine Stays.bind (hwait (by simp [saveTermios])) fun orig => ?_
  refine Stays.bind (hwait (by cases orig <;> simp [enterRawMode])) fun _ => ?_
  refine Stays.bind (hwait (by simp)) fun _ => ?_
  refine Stays.bind (hwait (by simp)) fun stbuf => ?_
  refine stays_waitpid fun r => Alone.frame ?_
  cases orig <;> simp [restoreTermios, closeLog]

theorem stays_run (fuel : Nat) (plan : Plan) : Stays .alone (plan.run fuel) := by
  cases plan with
  | exit code => exact rfl
  | execute x =>
      refine Stays.bind (Alone.frame (by simp)) fun _ => ?_
      refine Safe.ite (fun _ => ?_) fun _ => Alone.frame ?_
      · refine Stays.bind (Alone.frame (by simp)) fun start => ?_
        refine Stays.bind (Alone.frame (by simp)) fun _ => ?_
        refine Stays.bind (Alone.frame (by simp)) fun _ => ?_
        refine Stays.bind (Alone.frame (by simp [sessionOpenpt])) fun master => ?_
        refine Safe.ite (fun _ => Alone.frame (by simp)) fun _ => ?_
        refine Stays.bind (Alone.frame (by simp)) fun slave => ?_
        refine Safe.ite (fun _ => Alone.frame (by simp)) fun _ => ?_
        refine stays_fork (fun r hr => ?_) ?_ fun pid hpid => ?_
        · rw [if_pos hr]
          exact Alone.frame (by simp)
        · exact stays_ptyChild _ _ _
        · rw [if_neg hpid.not_gt, if_neg hpid.ne']
          exact stays_ptyParent _ _ _ _ _ _ _
      · have hexec : Prog.Avoids Kin (dropAndExec .execTarget x.nss x.req) :=
          avoids_dropAndExec x.nss x.req (fun _ => Or.inr) (by simp)
        simp [execTarget, sysExit, hexec]

/-- **A run looks after its children.** At every call of it, one it has made or one it has come to:
reading the terminal, asking PAM, making timestamps and session logs, the trail and the relay are
only the original process's business, and so is the command as root or as the caller, while `su`
and the command on a pseudo-terminal are only a child's; a child is made only when none is left, a
wait is for the one child there is, and no process ends or becomes another before its child is
reaped. Only the original process returns, and it leaves no child behind. -/
theorem shkRun_reaps {fuel : Nat} {args : List CStr} {t : Family}
    {h : List (Moment sysSig Family)} {q : Sys Int}
    (hrun : Runs familyWorld .alone (shkRun fuel args) h t q) :
    (∀ m ∈ h, Orderly m.state m.event.call) ∧ (∀ c k, q = .call c k → Orderly t c) ∧
    (∀ code, q = .pure code → t = .alone) := by
  have hstays : Stays .alone (shkRun fuel args) := by
    rw [shkRun_eq_plan]
    exact Stays.bind (stays_planRun fuel args) fun plan => stays_run fuel plan
  refine ⟨(Safe.runs hstays hrun).1, ?_, ?_⟩
  · rintro c k rfl
    exact Safe.pending hstays hrun
  · rintro code rfl
    exact (Safe.runs hstays hrun).2

/-- Answers to a root process that finds the files of the view, opens whatever it likes, and has
the relay end at once. -/
def FileView.raises (v : FileView) (s : Family) : (c : SysCall) → Option (c.Answer × Family)
  | .fork => some (7, { s with running := 7 :: s.running })
  | .waitpid pid => some ((pid, 0), { s with running := s.running.erase pid })
  | .open _ _ _ => some (5, s)
  | .close _ => some (0, s)
  | .read _ _ => some (some [], s)
  | .ioctl fd _ arg => some (if fd = 0 then none else some arg, s)
  | .signalfd _ => some (-1, s)
  | .poll _ => some ((-1, []), s)
  | c => (v.grants (setuidProcess 0) c).map fun r => (r.1, s)

theorem raises_answers (v : FileView) (s : Family) (c : SysCall) (r : c.Answer) (t : Family)
    (h : v.raises s c = some (r, t)) : familyWorld.answers s c r t := by
  cases c with
  | fork | waitpid | «open» | close | read | ioctl | signalfd | poll =>
      cases h
      exact rfl
  | _ =>
      simp only [FileView.raises, Option.map_eq_some_iff] at h
      obtain ⟨a, -, ha⟩ := h
      exact (Prod.mk.inj ha).2.symm

/-- A machine on which root may run commands as `al`. -/
def lateralMachine : FileView := rootFiles
  [(cstr "/etc/passwd", 420, twoUsers),
    (defaultPolicyPath, 384, utf8 "[[rules]]\nuser=\"root\"\nrun_as=\"al\"\nrequire_auth=false\n"),
    (cstr "/bin/id", 493, [])]

/-- Root runs `id` as `al`, and its exit status is that of the child. -/
theorem shkRun_reaps_id :
    ∃ (h : List (Moment sysSig Family)) (t : Family),
      SysCall.fork ∈ h.map (fun m => m.event.call) ∧
      (∀ m ∈ h, Orderly m.state m.event.call) ∧ t = .alone := by
  obtain ⟨h, hrun, hevents⟩ := Completed.of_play_value (I := fun _ => True)
    (fun s c r t _ hans => ⟨raises_answers lateralMachine s c r t hans, trivial⟩)
    (s := .alone) trivial
    (p := shkRun 1 [cstr "shakti", cstr "-u", cstr "al", cstr "/bin/id"]) (a := 0) (by decide)
  have horderly := shkRun_reaps hrun
  refine ⟨h, _, ?_, horderly.1, horderly.2.2 0 rfl⟩
  have hfork : SysCall.fork ∈ (h.map Moment.event).map Event.call := by
    rw [hevents]
    decide
  simpa using hfork

end Shakti
