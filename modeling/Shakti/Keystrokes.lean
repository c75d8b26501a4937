import Shakti.Lib.Monitor
import Shakti.Session

/-!
# Shakti.Keystrokes

Whether typed secrets stay out of the keystroke log.

The relay and the child share the terminal: while the relay waits for any of its calls,
the child may turn the echo of the slave on or off and read what was delivered. The relay
hands a chunk of input over and only then queries the echo. A chunk that was handed over
while the echo was off stays out of the log in every run in which the query after it still
finds the echo off (`sessionRelay_redacted`). A child that restores the echo as soon as it
has read the line arranges a run in which it does not (`sessionRelay_leaks`).
-/

namespace Shakti

open Effects Effects.World

/-! ### The shared terminal -/

/-- The slave's side of the terminal: its `ECHO` bit, and what was delivered to the child
and not read by it yet. -/
structure Terminal where
  echo : Bool
  input : Bytes

/-- A step of the child. -/
inductive ChildStep : Terminal → Terminal → Prop
  | setEcho (tty : Terminal) (on : Bool) : ChildStep tty { tty with echo := on }
  | readInput (tty : Terminal) (n : Nat) : ChildStep tty { tty with input := tty.input.drop n }

/-- What the kernel answers to the relay, and what becomes of the terminal. A write
takes at most what it is given, and a write to the master delivers what it takes. The
terminal modes of the master are the slave's. -/
def Terminal.Answers (master : Int) (tty : Terminal) : Event sysSig → Terminal → Prop
  | ⟨.write fd data, w⟩, tty' => w ≤ data.length ∧
      tty' = if fd = master then { tty with input := tty.input ++ data.take w.toNat } else tty
  | ⟨.ioctl fd request _, r⟩, tty' => tty' = tty ∧
      (fd = master → request = tcgets → ∀ termios, r = some termios →
        (load32 termios 12 &&& echoFlag ≠ 0 ↔ tty.echo = true))
  | _, tty' => tty' = tty

/-- The terminal as a world, in which the child moves. -/
def relayWorld (master : Int) : World sysSig Terminal where
  answers tty c r tty' := tty.Answers master ⟨c, r⟩ tty'
  other _ := ChildStep

/-- The descriptors the relay is called with; the logs' are `-1` when they are off. A log
that is on has a descriptor of its own. -/
structure RelayFds where
  master : Int
  logfd : Int
  inlogfd : Int
  distinct : 0 ≤ inlogfd → inlogfd ≠ 1 ∧ inlogfd ≠ master ∧ inlogfd ≠ logfd

/-! ### What is to hold of a run -/

variable (fds : RelayFds)

/-- Whether some of the chunk read last was handed over while the echo was off. -/
def chunkDark (dark : Bool) : Moment sysSig Terminal → Bool
  | ⟨_, ⟨.read fd _, _⟩⟩ => if fd = 0 then false else dark
  | ⟨tty, ⟨.write fd _, w⟩⟩ =>
      if fd = fds.master ∧ (0 : Int) < w then dark || !tty.echo else dark
  | _ => dark

/-- A write to the keystroke log. -/
def LogsInput : Moment sysSig Terminal → Prop
  | ⟨_, ⟨.write fd _, _⟩⟩ => 0 ≤ fds.inlogfd ∧ fd = fds.inlogfd
  | _ => False

/-- An answered query of the echo. -/
def QueriesEcho : Moment sysSig Terminal → Prop
  | ⟨_, ⟨.ioctl fd request _, r⟩⟩ => fd = fds.master ∧ request = tcgets ∧ r ≠ none
  | _ => False

/-- No chunk that was handed over while the echo was off is written to the keystroke
log. -/
def Redacted (h : List (Moment sysSig Terminal)) : Prop :=
  Always (chunkDark fds) (fun dark m => dark = true → ¬ LogsInput fds m) false h

/-- After a chunk was handed over while the echo was off, the query finds it off. -/
def EchoStays (h : List (Moment sysSig Terminal)) : Prop :=
  Always (chunkDark fds)
    (fun dark m => dark = true → QueriesEcho fds m → m.state.echo = false) false h

/-! ### The relay, one function at a time -/

/-- In the state `dark` of the monitor the program logs nothing dark, as long as the echo
stays. -/
abbrev Keeps {α : Type} (post : Bool → α → Prop) (dark : Bool) (p : Sys α) : Prop :=
  Guards (relayWorld fds.master) (chunkDark fds)
    (fun dark m => dark = true → QueriesEcho fds m → m.state.echo = false)
    (fun dark m => dark = true → ¬ LogsInput fds m) post dark p

/-- Nothing is to hold of what a program returns. -/
abbrev anyResult {α : Type} (_ : Bool) (_ : α) : Prop := True

variable {fds}

/-- One program after another, whatever the first returns. -/
theorem Keeps.seq {α β : Type} {post : Bool → β → Prop} {dark : Bool} {p : Sys α}
    {f : α → Sys β} (hp : Keeps fds anyResult dark p)
    (hf : ∀ dark a, Keeps fds post dark (f a)) : Keeps fds post dark (p >>= f) :=
  Guards.bind hp fun dark a _ => hf dark a

/-- A write elsewhere than to the keystroke log. -/
theorem keeps_sessionFullWrite {fd : Int} (hfd : 0 ≤ fds.inlogfd → fd ≠ fds.inlogfd)
    (fuel : Nat) (data : Bytes) (dark : Bool) :
    Keeps fds anyResult dark (sessionFullWrite fd fuel data) := by
  induction fuel generalizing data dark with
  | zero => exact trivial
  | succ fuel ih =>
      refine Guards.ite (fun _ => trivial) fun _ => ?_
      intro s w s' _ _
      refine ⟨fun _ hlog => hfd hlog.1 hlog.2, ?_⟩
      exact Guards.ite (fun _ => trivial) fun _ => ih _ _

theorem keeps_fullWrite {fd : Int} (hfd : 0 ≤ fds.inlogfd → fd ≠ fds.inlogfd) (data : Bytes)
    (dark : Bool) : Keeps fds anyResult dark (fullWrite fd data) :=
  (keeps_sessionFullWrite hfd _ data dark).seq fun _ _ => trivial

/-- A chunk that was handed over while the echo was on may be logged, and stays so. -/
theorem keeps_logWrite (hon : 0 ≤ fds.inlogfd) (fuel : Nat) (data : Bytes) :
    Keeps fds anyResult false (sessionFullWrite fds.inlogfd fuel data) := by
  induction fuel generalizing data with
  | zero => exact trivial
  | succ fuel ih =>
      refine Guards.ite (fun _ => trivial) fun _ => ?_
      intro s w s' _ _
      have hother : ¬ (fds.inlogfd = fds.master ∧ (0 : Int) < w) :=
        fun h => (fds.distinct hon).2.1 h.1
      refine ⟨fun h => absurd h (by simp), ?_⟩
      simp only [chunkDark, if_neg hother]
      exact Guards.ite (fun _ => trivial) fun _ => ih _

/-- The query reports the echo off when the chunk was handed over with it off. -/
theorem keeps_sessionSlaveEchoOn (dark : Bool) :
    Keeps fds (fun dark' echo => dark' = dark ∧ (echo = true → dark = false)) dark
      (sessionSlaveEchoOn fds.master) := by
  intro s ok s' _ _
  refine ⟨fun _ => id, ?_⟩
  refine Guards.ite (fun _ => ⟨rfl, by simp⟩) fun _ => ?_
  intro tty r tty' hans hstays
  refine ⟨fun _ => id, ?_⟩
  obtain ⟨-, hecho⟩ := hans
  cases r with
  | none => exact ⟨rfl, by simp⟩
  | some termios =>
      refine ⟨rfl, fun hon => ?_⟩
      have htty := (hecho rfl rfl termios rfl).mp (of_decide_eq_true hon)
      -- A dark chunk would have found the echo off.
      cases dark with
      | false => rfl
      | true =>
          have hoff : tty.echo = false := hstays rfl ⟨rfl, rfl, by simp⟩
          rw [hoff] at htty
          exact htty.symm

theorem keeps_logKeystrokes (chunk : Bytes) (dark : Bool) :
    Keeps fds anyResult dark (logKeystrokes fds.master fds.inlogfd chunk) := by
  refine Guards.ite (fun hon => ?_) fun _ => trivial
  refine (keeps_sessionSlaveEchoOn dark).bind ?_
  rintro _ echo ⟨rfl, hecho⟩
  refine Guards.ite (fun h => ?_) fun _ => trivial
  rw [hecho h]
  exact (keeps_logWrite hon _ chunk).seq fun _ _ => trivial

theorem keeps_fileRead (fd : Int) (count : Nat) (dark : Bool) :
    Keeps fds anyResult dark (fileRead fd count) := by
  intro s r s' _ _
  exact ⟨fun _ => id, trivial⟩

theorem keeps_relayStdin (dark : Bool) :
    Keeps fds anyResult dark (relayStdin fds.master fds.inlogfd) := by
  refine (keeps_fileRead 0 4096 dark).seq fun dark chunk => ?_
  refine Guards.ite (fun _ => trivial) fun _ => ?_
  refine (keeps_fullWrite (fun hon => Ne.symm (fds.distinct hon).2.1) chunk dark).seq ?_
  intro dark _
  exact (keeps_logKeystrokes chunk dark).seq fun _ _ => trivial

theorem keeps_relayMaster (hup : Bool) (fuel : Nat) (dark : Bool) :
    Keeps fds anyResult dark (relayMaster fds.master fds.logfd hup fuel) := by
  induction fuel generalizing dark with
  | zero => exact fun _ r => r.elim
  | succ fuel ih =>
      refine (keeps_fileRead fds.master 4096 dark).seq fun dark chunk => ?_
      refine Guards.ite (fun _ => trivial) fun _ => ?_
      refine (keeps_fullWrite (fun hon => Ne.symm (fds.distinct hon).1) chunk dark).seq ?_
      intro dark _
      refine Keeps.seq (Guards.ite (fun _ => ?_) fun _ => trivial) ?_
      · exact keeps_fullWrite (fun hon => Ne.symm (fds.distinct hon).2.2) chunk dark
      · intro dark _
        exact Guards.ite (fun _ => ih dark) fun _ => trivial

theorem keeps_drainWinch (winchFd : Int) (fuel : Nat) (dark : Bool) :
    Keeps fds anyResult dark (drainWinch winchFd fuel) := by
  induction fuel generalizing dark with
  | zero => exact fun _ r => r.elim
  | succ fuel ih =>
      refine (keeps_fileRead winchFd siginfoSize dark).seq fun dark got => ?_
      exact Guards.ite (fun _ => trivial) fun _ => ih dark

theorem keeps_sessionCopyWinsize (fromFd toFd : Int) (dark : Bool) :
    Keeps fds anyResult dark (sessionCopyWinsize fromFd toFd) := by
  intro s ok s' _ _
  refine ⟨fun _ => id, Guards.ite (fun _ => trivial) fun _ => ?_⟩
  intro s r s' _ _
  refine ⟨fun _ => id, ?_⟩
  cases r with
  | none => exact trivial
  | some size =>
      intro s r s' _ _
      exact ⟨fun _ => id, trivial⟩

theorem keeps_sessionSigwinchFd (dark : Bool) :
    Keeps fds anyResult dark sessionSigwinchFd := by
  intro s ok s' _ _
  refine ⟨fun _ => id, Guards.ite (fun _ => trivial) fun _ => ?_⟩
  intro s r s' _ _
  refine ⟨fun _ => id, ?_⟩
  intro s r s' _ _
  exact ⟨fun _ => id, trivial⟩

theorem keeps_relayResize (winchFd : Int) (revents fuel : Nat) (dark : Bool) :
    Keeps fds anyResult dark (relayResize fds.master winchFd revents fuel) := by
  refine Guards.ite (fun _ => ?_) fun _ => trivial
  exact (keeps_drainWinch winchFd fuel dark).seq fun dark _ =>
    keeps_sessionCopyWinsize 0 fds.master dark

theorem keeps_sessionRelayLoop (winchFd : Int) (fuel : Nat) (stdinOpen : Bool) (dark : Bool) :
    Keeps fds anyResult dark
      (sessionRelayLoop fds.master fds.logfd fds.inlogfd winchFd fuel stdinOpen) := by
  induction fuel generalizing stdinOpen dark with
  | zero => exact fun _ r => r.elim
  | succ fuel ih =>
      intro s r s' _ _
      obtain ⟨pr, revents⟩ := r
      refine ⟨fun _ => id, ?_⟩
      refine Guards.ite (fun _ => Guards.ite (fun _ => ih _ _) fun _ => trivial) fun _ => ?_
      refine (keeps_relayResize winchFd _ fuel _).seq fun dark _ => ?_
      refine Keeps.seq (Guards.ite (fun _ => keeps_relayMaster _ fuel dark) fun _ => trivial) ?_
      intro dark ended
      refine Keeps.seq (Guards.ite (fun _ => keeps_relayStdin dark) fun _ => trivial) ?_
      intro dark stdinOpen
      refine Guards.ite (fun _ => Guards.ite (fun _ => ?_) fun _ => trivial) fun _ => ih _ _
      intro s r s' _ _
      exact ⟨fun _ => id, trivial⟩

theorem keeps_sessionRelay (fuel : Nat) (dark : Bool) :
    Keeps fds anyResult dark (sessionRelay fuel fds.master fds.logfd fds.inlogfd) := by
  refine (keeps_sessionCopyWinsize 0 fds.master dark).seq fun dark _ => ?_
  refine (keeps_sessionSigwinchFd dark).seq fun dark winchFd => ?_
  intro s ok s' _ _
  refine ⟨fun _ => id, Guards.ite (fun _ => trivial) fun _ => ?_⟩
  intro s ok s' _ _
  refine ⟨fun _ => id, Guards.ite (fun _ => trivial) fun _ => ?_⟩
  exact keeps_sessionRelayLoop winchFd fuel true _

/-- **Typed secrets stay out of the keystroke log** in every run, however the child's
steps come between the relay's, in which the echo stays off until it was queried. -/
theorem sessionRelay_redacted {fuel : Nat} {tty tty' : Terminal}
    {h : List (Moment sysSig Terminal)} {q : Sys Int}
    (hrun : Runs (relayWorld fds.master) tty
      (sessionRelay fuel fds.master fds.logfd fds.inlogfd) h tty' q)
    (hstays : EchoStays fds h) : Redacted fds h :=
  (keeps_sessionRelay fuel false).always hrun hstays

/-! ### A prompt that reads one line -/

/-- A relay that logs keystrokes only. -/
def promptFds : RelayFds := ⟨5, -1, 6, by decide⟩

/-- What is typed at the prompt: `pw` and the end of the line. -/
def typedSecret : Bytes := [112, 119, 10]

/-- The slave's modes with the echo on or off. -/
def termiosWith (echo : Bool) : Bytes :=
  store (List.replicate termiosSize 0) 12 [if echo then 8 else 0]

/-- The terminal at the prompt, and after the secret was delivered. -/
def promptTty : Terminal := ⟨false, []⟩
def deliveredTty : Terminal := ⟨false, typedSecret⟩

/-- The terminal after the child has read the line and restored the echo. -/
def restoredTty : Terminal := ⟨true, []⟩

/-- The relay up to the delivery of the secret. -/
def deliveryHistory : List (Moment sysSig Terminal) :=
  [⟨promptTty, ⟨.alloc 8, true⟩⟩,
    ⟨promptTty, ⟨.ioctl 0 tiocgwinsz (List.replicate 8 0), none⟩⟩,
    ⟨promptTty, ⟨.alloc 8, true⟩⟩,
    ⟨promptTty, ⟨.sigprocmask sigBlock (1 <<< (sigwinch - 1)), (0 : Nat)⟩⟩,
    ⟨promptTty, ⟨.signalfd (1 <<< (sigwinch - 1)), (7 : Int)⟩⟩,
    ⟨promptTty, ⟨.alloc 4096, true⟩⟩,
    ⟨promptTty, ⟨.alloc 24, true⟩⟩,
    ⟨promptTty, ⟨.poll [5, 0, 7], ((1 : Int), [0, 1, 0])⟩⟩,
    ⟨promptTty, ⟨.read 0 4096, some typedSecret⟩⟩,
    ⟨promptTty, ⟨.write 5 typedSecret, (3 : Int)⟩⟩]

/-- The query of the echo, which finds the terminal `tty`. -/
def queryHistory (tty : Terminal) : List (Moment sysSig Terminal) :=
  [⟨tty, ⟨.alloc termiosSize, true⟩⟩,
    ⟨tty, ⟨.ioctl 5 tcgets (List.replicate termiosSize 0), some (termiosWith tty.echo)⟩⟩]

/-- The secret was delivered, and the echo is queried next. -/
theorem runs_delivery :
    Runs (relayWorld 5) promptTty (sessionRelay 1 5 (-1) 6) deliveryHistory deliveredTty (do
      let stdinOpen ← (do
        logKeystrokes 5 6 typedSecret
        pure true)
      sessionRelayLoop 5 (-1) 6 7 0 stdinOpen) := by
  refine Runs.call rfl ?_
  refine Runs.call ⟨rfl, by decide⟩ ?_
  refine Runs.call rfl ?_
  refine Runs.call rfl ?_
  refine Runs.call rfl ?_
  refine Runs.call rfl ?_
  refine Runs.call rfl ?_
  refine Runs.call rfl ?_
  refine Runs.call rfl ?_
  have hwrite : (relayWorld 5).answers promptTty (.write 5 typedSecret) (3 : Int) deliveredTty :=
    ⟨by decide, rfl⟩
  refine Runs.call hwrite ?_
  exact Runs.nil deliveredTty _

/-- The modes of the slave report its echo. -/
theorem answers_query (tty : Terminal) :
    (relayWorld 5).answers tty (.ioctl 5 tcgets (List.replicate termiosSize 0))
      (some (termiosWith tty.echo)) tty := by
  refine ⟨rfl, fun _ _ termios htermios => ?_⟩
  cases htermios
  cases tty.echo
  · decide
  · decide

/-- A child that leaves the echo off until it was queried has its secret kept. -/
theorem sessionRelay_redacted_prompt :
    Redacted promptFds (deliveryHistory ++ queryHistory deliveredTty) := by
  obtain ⟨q, hrun⟩ : ∃ q, Runs (relayWorld 5) promptTty (sessionRelay 1 5 (-1) 6)
      (deliveryHistory ++ queryHistory deliveredTty) deliveredTty q := by
    refine ⟨sessionRelayLoop 5 (-1) 6 7 0 true, runs_delivery.trans (Runs.call rfl ?_)⟩
    exact Runs.call (answers_query deliveredTty) (Runs.nil _ _)
  refine sessionRelay_redacted hrun ?_
  simp [EchoStays, Always, deliveryHistory, queryHistory, QueriesEcho, deliveredTty]

/-- The relay logs the secret, since the child has restored the echo. -/
def leakHistory : List (Moment sysSig Terminal) :=
  deliveryHistory ++ (queryHistory restoredTty ++
    [⟨restoredTty, ⟨.write 6 typedSecret, (3 : Int)⟩⟩])

theorem runs_leak :
    ∃ q, Runs (relayWorld 5) promptTty (sessionRelay 1 5 (-1) 6) leakHistory restoredTty q := by
  have hread : ChildStep deliveredTty promptTty := ChildStep.readInput deliveredTty 3
  have hecho : ChildStep promptTty restoredTty := ChildStep.setEcho promptTty true
  refine ⟨sessionRelayLoop 5 (-1) 6 7 0 true, runs_delivery.trans ?_⟩
  refine Runs.other hread (Runs.other hecho ?_)
  refine Runs.call rfl ?_
  refine Runs.call (answers_query restoredTty) ?_
  exact Runs.call ⟨by decide, rfl⟩ (Runs.nil _ _)

/-- **The query comes after the delivery.** A child that restores the echo as soon as it has
read the line has the line logged. -/
theorem sessionRelay_leaks :
    ¬ ∀ (fds : RelayFds) (fuel : Nat) (tty tty' : Terminal) (h : List (Moment sysSig Terminal))
      (q : Sys Int), Runs (relayWorld fds.master) tty
        (sessionRelay fuel fds.master fds.logfd fds.inlogfd) h tty' q → Redacted fds h := by
  intro hclaim
  obtain ⟨q, hrun⟩ := runs_leak
  have hredacted := hclaim promptFds 1 _ _ _ q hrun
  simp [Redacted, Always, leakHistory, deliveryHistory, queryHistory, chunkDark, LogsInput,
    promptFds, promptTty] at hredacted

end Shakti
