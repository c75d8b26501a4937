import Shakti.Kernel
import Shakti.Terminal

/-!
# Shakti.TerminalRun

The terminal of a whole run. Carrying a plan out changes its modes in one place, around the
relay of a session, where the keyboard sends no signals; they are put back before the run is
over. Together with the plan, which leaves them as they were, a run of `shk_run` treats the
terminal it was started on with care, at each of its calls (`shkRun_terminal`).
-/

namespace Shakti

open Effects Effects.World

variable {α : Type} {tty : Option Termios} {s : Process}

/-! ### The relay -/

@[simp] theorem idle_fileRead (fd : Int) {count : Nat} (hcount : count ≠ 1) :
    Idle (fileRead fd count) := by
  simp [fileRead, hcount]

@[simp] theorem idle_sysBlocked : Idle (sysBlocked : Sys α) :=
  avoids_sysBlocked (by simp)

@[simp] theorem idle_drainWinch (winchFd : Int) (fuel : Nat) :
    Idle (drainWinch winchFd fuel) :=
  avoids_drainWinch (by simp) (by simp [siginfoSize]) fuel

@[simp] theorem idle_sessionCopyWinsize (fromFd toFd : Int) :
    Idle (sessionCopyWinsize fromFd toFd) := by
  apply avoids_sessionCopyWinsize <;> simp [tcsets, tiocgwinsz, tiocswinsz]

@[simp] theorem idle_sessionSlaveEchoOn (master : Int) : Idle (sessionSlaveEchoOn master) := by
  apply avoids_sessionSlaveEchoOn <;> simp [tcsets, tcgets]

@[simp] theorem idle_relayMaster (master logfd : Int) (hup : Bool) (fuel : Nat) :
    Idle (relayMaster master logfd hup fuel) :=
  avoids_relayMaster (by simp) (by simp) (by simp) (by simp) fuel

@[simp] theorem idle_relayStdin (master inlogfd : Int) : Idle (relayStdin master inlogfd) := by
  simp [relayStdin, logKeystrokes]

@[simp] theorem idle_relayResize (master winchFd : Int) (revents fuel : Nat) :
    Idle (relayResize master winchFd revents fuel) := by
  simp [relayResize]

/-- What the relay leaves of the process: the modes, and whether stdin is still its own. -/
structure Process.Relayed (s t : Process) : Prop where
  tty : t.tty = s.tty
  stdin : t.OwnStdin ↔ s.OwnStdin

theorem Process.Relayed.refl (s : Process) : s.Relayed s := ⟨rfl, Iff.rfl⟩

/-- The terminal has the modes `tty`, or modes in which the keyboard sends no signals. -/
def Process.Muted (tty : Option Termios) (s : Process) : Prop :=
  s.tty = tty ∨ ∃ modes, s.tty = some modes ∧ ¬ modes.Signals

theorem Process.Muted.kept (h : s.Muted tty) : s.Kept tty := h.imp_right Or.inr

theorem Process.Relayed.muted {t : Process} (ht : s.Relayed t) (h : s.Muted tty) : t.Muted tty := by
  rw [Process.Muted, ht.tty]
  exact h

/-- Nothing changes until the notifications of resizes are closed. -/
theorem safe_sessionRelayLoop (hmuted : s.Muted tty) {winchFd : Int}
    (hwinch : winchFd = 0 → ¬ s.OwnStdin) (master logfd inlogfd : Int) (fuel : Nat)
    (stdinOpen : Bool) :
    Safe processWorld (Guarded tty) (fun t _ => s.Relayed t) s
      (sessionRelayLoop master logfd inlogfd winchFd fuel stdinOpen) := by
  induction fuel generalizing stdinOpen with
  | zero => exact (Idle.leaves_kept idle_sysBlocked hmuted.kept).mono fun t _ ht => ht ▸ .refl s
  | succ fuel ih =>
      refine Leaves.bind (Idle.leaves_kept (by simp) hmuted.kept) fun r => ?_
      obtain ⟨pr, revents⟩ := r
      refine Safe.ite (fun _ => Safe.ite (fun _ => ih stdinOpen) fun _ => .refl s) fun _ => ?_
      refine Leaves.bind (Idle.leaves_kept (by simp) hmuted.kept) fun _ => ?_
      refine Leaves.bind (Idle.leaves_kept (by simp) hmuted.kept) fun ended => ?_
      refine Leaves.bind (Idle.leaves_kept (by simp) hmuted.kept) fun stdinOpen => ?_
      refine Safe.ite (fun _ => Safe.ite (fun _ => ?_) fun _ => .refl s) fun _ => ih stdinOpen
      refine Safe.ask_bind still_processWorld ⟨hmuted.kept, by simp, by simp, by simp⟩
        fun x t hans => ?_
      obtain rfl : t = s.closed winchFd := hans
      refine ⟨rfl, ?_⟩
      by_cases hzero : winchFd = 0
      · subst hzero
        refine iff_of_false (fun hown => ?_) (hwinch rfl)
        simp [Process.OwnStdin] at hown
      · exact Process.ownStdin_closed hzero

theorem safe_sessionSigwinchFd (hmuted : s.Muted tty) :
    Safe processWorld (Guarded tty)
      (fun t winchFd => s.Relayed t ∧ (winchFd = 0 → ¬ t.OwnStdin)) s sessionSigwinchFd := by
  refine Leaves.bind (Idle.leaves_kept (by simp) hmuted.kept) fun set => ?_
  refine Safe.ite (fun _ => ⟨.refl s, by simp⟩) fun _ => ?_
  refine Safe.ask_bind still_processWorld ⟨hmuted.kept, by simp, by simp, by simp⟩
    fun old s₁ hmask => ?_
  have hs₁ : s.Relayed s₁ := by
    rw [hmask.2]
    exact ⟨rfl, Iff.rfl⟩
  refine Safe.ask still_processWorld ⟨(hs₁.muted hmuted).kept, by simp, by simp, by simp⟩
    fun r s₂ htakes => ?_
  rcases htakes with ⟨hneg, rfl⟩ | ⟨-, hfree, rfl⟩
  · exact ⟨hs₁, fun h => absurd hneg (by rw [h]; decide)⟩
  -- The descriptor of the notifications is new, so it is not stdin.
  by_cases hzero : r = 0
  · subst hzero
    have hown : ¬ s₁.OwnStdin := fun h => by
      rw [Process.OwnStdin, hfree] at h
      cases h
    have hsig : ¬ (s₁.opened 0 .signals).OwnStdin := fun h => by
      cases Process.ownStdin_opened_zero.mp h
    exact ⟨⟨hs₁.tty, iff_of_false hsig fun h => hown (hs₁.stdin.mpr h)⟩, fun _ => hsig⟩
  · exact ⟨⟨hs₁.tty, (Process.ownStdin_opened hzero).trans hs₁.stdin⟩, fun h => absurd h hzero⟩

theorem safe_sessionRelay (hmuted : s.Muted tty) (fuel : Nat) (master logfd inlogfd : Int) :
    Safe processWorld (Guarded tty) (fun t _ => s.Relayed t) s
      (sessionRelay fuel master logfd inlogfd) := by
  refine Leaves.bind (Idle.leaves_kept (by simp) hmuted.kept) fun _ => ?_
  refine Safe.bind (safe_sessionSigwinchFd hmuted) fun t winchFd ht => ?_
  have hkept : t.Kept tty := (ht.1.muted hmuted).kept
  refine Leaves.bind (Idle.leaves_kept (by simp) hkept) fun buf => ?_
  refine Safe.ite (fun _ => ht.1) fun _ => ?_
  refine Leaves.bind (Idle.leaves_kept (by simp) hkept) fun pfds => ?_
  refine Safe.ite (fun _ => ht.1) fun _ => ?_
  refine (safe_sessionRelayLoop (ht.1.muted hmuted) ht.2 master logfd inlogfd fuel true).mono
    fun u _ hu => ?_
  exact ⟨hu.tty.trans ht.1.tty, hu.stdin.trans ht.1.stdin⟩

/-! ### The modes saved and put back -/

/-- What was read of the modes of the terminal, if stdin is still its own. -/
def Process.Saved (s : Process) (orig : Option Bytes) : Prop :=
  ∀ o, orig = some o → s.OwnStdin → s.tty = some (Termios.of o) ∧ o.length = termiosSize

theorem safe_saveTermios (htty : s.tty = tty) :
    Safe processWorld (Guarded tty) (fun t orig => t = s ∧ s.Saved orig) s saveTermios := by
  refine Leaves.bind (Idle.leaves (by simp) htty) fun origBuf => ?_
  refine Safe.ite (fun _ => ?_) fun _ => ⟨rfl, by simp [Process.Saved]⟩
  refine Safe.ask still_processWorld ⟨Or.inl htty, by simp, by simp, by simp⟩ fun r s' hget => ?_
  refine ⟨hget.stays fun h => absurd h.2.1 (by decide), ?_⟩
  rintro o rfl hown
  have hmodes := hget.gets rfl rfl hown
  cases htty' : s.tty with
  | none => simp [htty'] at hmodes
  | some modes =>
      obtain rfl : o = modes.bytes := by simpa [htty'] using hmodes
      exact ⟨congrArg some (Termios.of_self modes).symm, modes.size⟩

/-- In raw mode, if the modes were saved. -/
structure Process.RawFrom (s t : Process) (orig : Option Bytes) : Prop where
  stdin : t.OwnStdin ↔ s.OwnStdin
  muted : t.Muted s.tty
  back : ∀ o, orig = some o → s.OwnStdin → t.tty.isSome
  stays : (orig = none ∨ ¬ s.OwnStdin) → t.tty = s.tty

theorem safe_enterRawMode (htty : s.tty = tty) {orig : Option Bytes} (hsaved : s.Saved orig) :
    Safe processWorld (Guarded tty) (fun t _ => s.RawFrom t orig) s (enterRawMode orig) := by
  have hsame : s.RawFrom s orig :=
    ⟨Iff.rfl, Or.inl rfl, fun o ho hown => by rw [(hsaved o ho hown).1]; rfl, fun _ => rfl⟩
  cases orig with
  | none => exact hsame
  | some o =>
      refine Leaves.bind (Idle.leaves (by simp) htty) fun raw => ?_
      refine Safe.ite (fun _ => ?_) fun _ => hsame
      refine safe_call htty (by simp) (by simp) (by simp) fun x t hset => ?_
      by_cases hown : s.OwnStdin
      · obtain ⟨hmodes, hlen⟩ := hsaved o rfl hown
        obtain rfl := hset.sets rfl rfl hown
        have hraw : (s.tty.map fun _ => Termios.of (sessionTermiosMakeRaw o)) =
            some (Termios.of (sessionTermiosMakeRaw o)) := by
          rw [hmodes]
          rfl
        exact ⟨Iff.rfl, Or.inr ⟨_, hraw, (not_signals_raw hlen).2⟩,
          fun _ _ _ => by simp [hmodes], fun h => by simp [hown] at h⟩
      · obtain rfl := hset.stays fun h => hown h.2.2
        exact hsame

theorem safe_restoreTermios {u : Process} (hkept : u.Kept tty) (htty : s.tty = tty)
    {orig : Option Bytes} (hsaved : s.Saved orig) {r : Process} (hraw : s.RawFrom r orig)
    (hu : r.Relayed u) :
    Safe processWorld (Guarded tty) (fun t _ => t.tty = tty) u (restoreTermios orig) := by
  cases orig with
  | none => exact (hu.tty.trans (hraw.stays (Or.inl rfl))).trans htty
  | some o =>
      refine Safe.ask_bind still_processWorld ⟨hkept, by simp, by simp, by simp⟩ fun x t hset => ?_
      by_cases hown : s.OwnStdin
      · have hown' : u.OwnStdin := hu.stdin.mpr (hraw.stdin.mpr hown)
        obtain rfl := hset.sets rfl rfl hown'
        obtain ⟨modes, hmodes⟩ := Option.isSome_iff_exists.mp (hraw.back o rfl hown)
        show (u.tty.map fun _ => Termios.of o) = tty
        rw [hu.tty, hmodes, ← htty, (hsaved o rfl hown).1]
        rfl
      · have hown' : ¬ u.OwnStdin := fun h => hown (hraw.stdin.mp (hu.stdin.mp h))
        obtain rfl := hset.stays fun h => hown' h.2.2
        exact (hu.tty.trans (hraw.stays (Or.inr hown))).trans htty

/-! ### Carrying a plan out -/

/-- The calls that change the modes or the mask, and those a guarantee is given for but the ones
that end the program. -/
@[simp] def Unsteady (c : SysCall) : Prop := Remodes c ∨ Confirms c

/-- A program without such calls keeps the modes as found. -/
theorem safe_steady {p : Sys α} (hp : Prog.Avoids Unsteady p) (htty : s.tty = tty) :
    Safe processWorld (Guarded tty) (fun t _ => t.tty = tty) s p := by
  refine Safe.keeps still_processWorld hp (fun m c hm hc => ?_) (fun m c r s' hm hc hans => ?_) htty
  · refine ⟨Or.inl hm, ?_, fun h => absurd (Or.inr h) hc, fun _ => hm⟩
    rintro rfl
    exact absurd (Or.inl ⟨rfl, rfl⟩) hc
  · exact (answers_modes (fun h => hc (Or.inl h)) hans).1.trans hm

theorem BeyondTelling.of_unsteady {c : SysCall} (hc : Unsteady c) : BeyondTelling c := by
  cases c <;> simp_all

@[simp] theorem Telling.steady {p : Sys α} (hp : Telling p) : Prog.Avoids Unsteady p :=
  hp.mono fun _ => BeyondTelling.of_unsteady

@[simp] theorem Dropping.steady {p : Sys α} (hp : Dropping p) : Prog.Avoids Unsteady p :=
  hp.mono fun c hc => by cases c <;> simp_all

@[simp] theorem Filing.steady {p : Sys α} (hp : Filing p) : Prog.Avoids Unsteady p :=
  hp.mono fun c hc => by cases c <;> simp_all

@[simp] theorem Writing.steady {p : Sys α} (hp : Writing p) : Prog.Avoids Unsteady p :=
  hp.telling.steady

@[simp] theorem Asking.steady {p : Sys α} (hp : Asking p) : Prog.Avoids Unsteady p :=
  hp.telling.steady

@[simp] theorem Looking.steady {p : Sys α} (hp : Looking p) : Prog.Avoids Unsteady p :=
  hp.asking.steady

@[simp] theorem steady_sysExit (code : Int) : Prog.Avoids Unsteady (sysExit code : Sys α) :=
  avoids_sysExit (by simp)

@[simp] theorem steady_dropAndExec {site : ExecSite} (hsite : site ≠ .suAuthenticate)
    (nss : NssState) (req : ExecRequest) :
    Prog.Avoids Unsteady (dropAndExec site nss req) := by
  cases site with
  | suAuthenticate => exact absurd rfl hsite
  | execTarget => simp [dropAndExec, applyLsmOrDie]
  | execTargetPty => simp [dropAndExec, applyLsmOrDie]

theorem safe_ptyParent (htty : s.tty = tty) (fuel : Nat)
    (slave master pid logfd inlogfd start : Int) :
    Safe processWorld (Guarded tty) (fun t _ => t.tty = tty) s
      (ptyParent fuel slave master pid logfd inlogfd start) := by
  refine safe_call htty (by simp) (by simp) (by simp) fun x s₁ hclose => ?_
  have htty₁ : s₁.tty = tty := by
    rw [show s₁ = s.closed slave from hclose]
    exact htty
  refine Safe.bind (safe_saveTermios htty₁) fun t orig ht => ?_
  obtain ⟨rfl, hsaved⟩ := ht
  refine Safe.bind (safe_enterRawMode htty₁ hsaved) fun r _ hraw => ?_
  have hmuted : r.Muted tty := htty₁ ▸ hraw.muted
  refine Safe.bind (safe_sessionRelay hmuted fuel master logfd inlogfd) fun u _ hu => ?_
  have hkept : u.Kept tty := (hu.muted hmuted).kept
  refine Leaves.bind (Idle.leaves_kept (by simp) hkept) fun stbuf => ?_
  refine Leaves.bind (Idle.leaves_kept (by simp) hkept) fun w => ?_
  obtain ⟨wr, st⟩ := w
  refine Safe.bind (safe_restoreTermios hkept htty₁ hsaved hraw hu) fun v _ hv => ?_
  exact safe_steady (by simp [closeLog]) hv

theorem safe_execTargetPty (htty : s.tty = tty) (fuel : Nat) (nss : NssState)
    (req : ExecRequest) (logfd inlogfd : Int) (caller : CStr) :
    Safe processWorld (Guarded tty) (fun t _ => t.tty = tty) s
      (execTargetPty fuel nss req logfd inlogfd caller) := by
  have hopen : Prog.Avoids Unsteady sessionOpenpt := by simp [sessionOpenpt]
  have hslave (master : Int) : Prog.Avoids Unsteady (sessionOpenSlave master) := by
    apply avoids_sessionOpenSlave <;> simp [tcsets, tiocsptlck, tiocgptn]
  have hchild (slave : Int) : Prog.Avoids Unsteady (ptyChild slave nss req) := by
    simp [ptyChild, tcsets, tiocsctty]
  refine Safe.bind (safe_steady (by simp) htty) fun t start ht => ?_
  refine Safe.bind (safe_steady (by simp) ht) fun t _ ht => ?_
  refine Safe.bind (safe_steady (by simp) ht) fun t _ ht => ?_
  refine Safe.bind (safe_steady hopen ht) fun t master ht => ?_
  refine Safe.ite (fun _ => safe_steady (by simp) ht) fun _ => ?_
  refine Safe.bind (safe_steady (hslave master) ht) fun t slave ht => ?_
  refine Safe.ite (fun _ => safe_steady (by simp) ht) fun _ => ?_
  refine Safe.bind (safe_steady (by simp) ht) fun t pid ht => ?_
  refine Safe.ite (fun _ => safe_steady (by simp) ht) fun _ => ?_
  refine Safe.ite (fun _ => safe_steady (hchild slave) ht) fun _ => ?_
  exact safe_ptyParent ht fuel slave master pid logfd inlogfd start

theorem safe_run (fuel : Nat) (plan : Plan) (htty : s.tty = tty) :
    Safe processWorld (Guarded tty) (fun t _ => t.tty = tty) s (plan.run fuel) := by
  cases plan with
  | exit code => exact htty
  | execute x =>
      refine Leaves.bind (Idle.leaves (by simp) htty) fun _ => ?_
      refine Safe.ite (fun _ => safe_execTargetPty htty fuel _ _ _ _ _) fun _ => ?_
      refine Safe.bind (safe_steady ?_ htty) fun t _ ht => ht
      simp [execTarget]

/-- **A run treats its terminal with care.** At every call of it, one it has made or one it has
come to, the modes of the terminal are those it was found in, or SIGINT, SIGQUIT and SIGTSTP are
blocked, or the keyboard does not send them; the bytes of a password are read in silence; a
password is checked, also by `su`, with the three signals blocked; and the program ends, or turns
into another, only with the modes as found. So it does where it returns. -/
theorem shkRun_terminal {fuel : Nat} {args : List CStr} {s t : Process}
    {h : List (Moment sysSig Process)} {q : Sys Int}
    (hrun : Runs processWorld s (shkRun fuel args) h t q) :
    (∀ m ∈ h, Guarded s.tty m.state m.event.call) ∧
    (∀ c k, q = .call c k → Guarded s.tty t c) ∧
    (∀ code, q = .pure code → t.tty = s.tty) := by
  have hsafe : Safe processWorld (Guarded s.tty) (fun t _ => t.tty = s.tty) s
      (shkRun fuel args) := by
    rw [shkRun_eq_plan]
    refine Safe.bind (safe_planRun fuel args) fun t plan ht => safe_run fuel plan ?_
    exact ht.same.tty_eq
  refine ⟨(hsafe.runs hrun).1, ?_, ?_⟩
  · rintro c k rfl
    exact hsafe.pending hrun
  · rintro code rfl
    exact hsafe.completed hrun

/-- A machine on which `al` has to authenticate. -/
def authMachine : FileView := rootFiles
  [(cstr "/etc/passwd", 420, twoUsers),
    (defaultPolicyPath, 384, utf8 "[[rules]]\nuser=\"al\"\n"),
    (cstr "/bin/id", 493, [])]

/-- A run that reads three empty lines for a password, and gives up. -/
theorem shkRun_terminal_id :
    ∃ (h : List (Moment sysSig Process)) (t : Process),
      SysCall.read 0 1 ∈ h.map (fun m => m.event.call) ∧
      (∀ m ∈ h, Guarded (setuidProcess 1000).tty m.state m.event.call) ∧
      t.tty = (setuidProcess 1000).tty := by
  obtain ⟨h, hrun, hevents⟩ := Completed.of_play_value (grants_answers authMachine)
    (setuidProcess_granted 1000 (Set.empty_subset _))
    (p := shkRun 1 [cstr "shakti", cstr "/bin/id"]) (a := 1)
    (by decide)
  have hguarded := shkRun_terminal hrun
  refine ⟨h, _, ?_, hguarded.1, hguarded.2.2 1 rfl⟩
  have hread : SysCall.read 0 1 ∈ (h.map Moment.event).map Event.call := by
    rw [hevents]
    decide
  simpa using hread

end Shakti
