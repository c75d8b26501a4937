import Shakti.Audit
import Shakti.Auth

/-!
# Shakti.Session

Pseudo-terminals and the I/O relay (`session.cyr`): opening a master and its
slave, raw mode, copying bytes between the real terminal and the master with the
optional transcripts, and the transcripts' header and footer.
-/

namespace Shakti

open Effects

def tiocgptn : Nat := 2147767344
def tiocsptlck : Nat := 1074025521
def tiocsctty : Nat := 21518
def tiocgwinsz : Nat := 21523
def tiocswinsz : Nat := 21524

def pollin : Nat := 1
def pollerr : Nat := 8
def pollhup : Nat := 16
def eintrErrno : Int := 4

def sigBlock : Nat := 0
def sigSetmask : Nat := 2
def sigwinch : Nat := 28
def siginfoSize : Nat := 128

/-! ### Allocation of a pseudo-terminal -/

/-- `session_openpt`. -/
def sessionOpenpt : Sys Int := sys (.open (cstr "/dev/ptmx") (oRdwr ||| oNoctty) 0)

/-- `session_open_slave`, with `session_unlock` and `session_slave_path`. -/
def sessionOpenSlave (master : Int) : Sys Int := do
  let zero : Bool ← sys (.alloc 4)
  if !zero then pure (-1)
  else do
    let unlocked : Option Bytes ← sys (.ioctl master tiocsptlck [0, 0, 0, 0])
    match unlocked with
    | none => pure (-1)
    | some _ => do
        let ptn : Bool ← sys (.alloc 4)
        if !ptn then pure (-1)
        else do
          let n : Option Bytes ← sys (.ioctl master tiocgptn [0, 0, 0, 0])
          match n with
          | none => pure (-1)
          | some n =>
              let path := cstr "/dev/pts/" ++ decimal (load32 n 0)
              sys (.open path (oRdwr ||| oNoctty) 0)

/-! ### Terminal modes -/

/-- `session_termios_make_raw`. -/
def sessionTermiosMakeRaw (src : Bytes) : Bytes :=
  let t := store32 src 0 (clearBits (load32 src 0) 1515)
  let t := store32 t 4 (clearBits (load32 t 4) 1)
  let t := store32 t 12 (clearBits (load32 t 12) 32843)
  let t := store32 t 8 (clearBits (load32 t 8) 48 ||| 48)
  store (store t 23 [1]) 22 [0]

/-- `session_needs_pty`. -/
def sessionNeedsPty (doLog : Bool) (callerUid targetUid : Nat) : Bool :=
  if doLog then true
  else if targetUid = callerUid then false
  else if targetUid = 0 then false
  else true

/-! ### The relay -/

/-- `_session_full_write`: retry short writes until everything is written. -/
def sessionFullWrite (fd : Int) : Nat → Bytes → Sys Int
  | 0, _ => pure 0
  | fuel + 1, data =>
      if data = [] then pure 0
      else do
        let w : Int ← sys (.write fd data)
        if w ≤ 0 then pure (-1) else sessionFullWrite fd fuel (data.drop w.toNat)

/-- Write all of `data`; every write that is not an error takes at least one byte. -/
def fullWrite (fd : Int) (data : Bytes) : Sys Unit := do
  let _ ← sessionFullWrite fd data.length data
  pure ()

/-- `session_copy_winsize`. -/
def sessionCopyWinsize (fromFd toFd : Int) : Sys Unit := do
  let ws : Bool ← sys (.alloc 8)
  if !ws then pure ()
  else do
    let size : Option Bytes ← sys (.ioctl fromFd tiocgwinsz (List.replicate 8 0))
    match size with
    | none => pure ()
    | some size => do
        let _ ← sys (.ioctl toFd tiocswinsz size)
        pure ()

/-- `_session_sigwinch_fd`. -/
def sessionSigwinchFd : Sys Int := do
  let set : Bool ← sys (.alloc 8)
  if !set then pure (-1)
  else do
    let _ ← sys (.sigprocmask sigBlock (1 <<< (sigwinch - 1)))
    sys (.signalfd (1 <<< (sigwinch - 1)))

/-- `_session_slave_echo_on`. -/
def sessionSlaveEchoOn (master : Int) : Sys Bool := do
  let t : Bool ← sys (.alloc termiosSize)
  if !t then pure false
  else do
    let termios : Option Bytes ← sys (.ioctl master tcgets (List.replicate termiosSize 0))
    match termios with
    | none => pure false
    | some t => pure (decide (load32 t 12 &&& echoFlag ≠ 0))

/-- Drain the resize notifications. -/
def drainWinch (winchFd : Int) : Nat → Sys Unit
  | 0 => sysBlocked
  | fuel + 1 => do
      let got ← fileRead winchFd siginfoSize
      if got = [] then pure () else drainWinch winchFd fuel

/-- Copy output of the master to the terminal and the transcript: one chunk, or
after a hang-up everything that is left. The result is whether the output ended. -/
def relayMaster (master logfd : Int) (hup : Bool) : Nat → Sys Bool
  | 0 => sysBlocked
  | fuel + 1 => do
      let chunk ← fileRead master 4096
      if chunk = [] then pure true
      else do
        fullWrite 1 chunk
        (if 0 ≤ logfd then fullWrite logfd chunk else pure ())
        if hup then relayMaster master logfd hup fuel else pure false

/-- Copy a chunk of input to the keystroke log while the slave echoes. -/
def logKeystrokes (master inlogfd : Int) (chunk : Bytes) : Sys Unit :=
  if 0 ≤ inlogfd then do
    let echo ← sessionSlaveEchoOn master
    if echo then fullWrite inlogfd chunk else pure ()
  else pure ()

/-- Copy one chunk of input to the master and the keystroke log. The result is
whether stdin is still open. -/
def relayStdin (master inlogfd : Int) : Sys Bool := do
  let chunk ← fileRead 0 4096
  if chunk = [] then pure false
  else do
    fullWrite master chunk
    logKeystrokes master inlogfd chunk
    pure true

/-- Pass a resize of the terminal on to the master, when one was notified. -/
def relayResize (master winchFd : Int) (revents fuel : Nat) : Sys Unit :=
  if 0 ≤ winchFd ∧ revents &&& pollin ≠ 0 then do
    drainWinch winchFd fuel
    sessionCopyWinsize 0 master
  else pure ()

/-- The `poll` loop of `session_relay`. `fuel` bounds the number of times `poll`
returns; past it the next `poll` never does. -/
def sessionRelayLoop (master logfd inlogfd winchFd : Int) : Nat → Bool → Sys Int
  | 0, _ => sysBlocked
  | fuel + 1, stdinOpen => do
      let (pr, revents) ←
        (sys (.poll [master, if stdinOpen then 0 else -1, winchFd]) : Sys (Int × List Nat))
      if pr < 0 then
        if pr = -eintrErrno then sessionRelayLoop master logfd inlogfd winchFd fuel stdinOpen
        else pure (-1)
      else do
        relayResize master winchFd (revents.getD 2 0) fuel
        let mrev := revents.getD 0 0
        let hup := decide (mrev &&& (pollhup ||| pollerr) ≠ 0)
        let ended ← (if mrev &&& pollin ≠ 0 then relayMaster master logfd hup fuel else pure false)
        let stdinOpen ←
          (if stdinOpen ∧ revents.getD 1 0 &&& pollin ≠ 0 then relayStdin master inlogfd
          else pure stdinOpen)
        if ended || hup then do
          if 0 ≤ winchFd then do
            let _ ← sys (.close winchFd)
            pure 0
          else pure 0
        else sessionRelayLoop master logfd inlogfd winchFd fuel stdinOpen

/-- `session_relay`. -/
def sessionRelay (fuel : Nat) (master logfd inlogfd : Int) : Sys Int := do
  sessionCopyWinsize 0 master
  let winchFd ← sessionSigwinchFd
  let buf : Bool ← sys (.alloc 4096)
  if !buf then pure (-1)
  else do
    let pfds : Bool ← sys (.alloc 24)
    if !pfds then pure (-1)
    else sessionRelayLoop master logfd inlogfd winchFd fuel true

/-! ### Transcript header and footer -/

/-- `session_log_header`. -/
def sessionLogHeader (logfd : Int) (caller target command tty : CStr) (start : Int) : Sys Unit :=
  if logfd < 0 then pure ()
  else
    fullWrite logfd
      (cstr "=== shakti session " ++ decimalInt start ++ cstr " caller=" ++ caller
        ++ cstr " target=" ++ target ++ cstr " tty="
        ++ (if 0 < tty.length then tty else cstr "none")
        ++ cstr " cmd=" ++ command ++ cstr " ===\n").bytes

/-- `session_log_footer`. -/
def sessionLogFooter (logfd : Int) (status start finish : Int) : Sys Unit :=
  if logfd < 0 then pure ()
  else
    fullWrite logfd
      (cstr "\n=== shakti session end status=" ++ decimalInt status ++ cstr " duration="
        ++ decimalInt (finish - start) ++ cstr "s ===\n").bytes

/-! ### The calls these functions make -/

section Calls

open Prog

-- Any class that holds of none of a function's calls is avoided by it.
variable {P : SysCall → Prop}

theorem avoids_sessionOpenSlave {master : Int} (halloc : ¬ P (.alloc 4))
    (hunlock : ¬ P (.ioctl master tiocsptlck [0, 0, 0, 0]))
    (hnumber : ¬ P (.ioctl master tiocgptn [0, 0, 0, 0]))
    (hopen : ∀ n, ¬ P (.open (cstr "/dev/pts/" ++ decimal n) (oRdwr ||| oNoctty) 0)) :
    Avoids P (sessionOpenSlave master) := by
  refine .bind ((avoids_ask _).mpr halloc) fun zero => avoids_ite.mpr ⟨by simp, fun _ => ?_⟩
  refine .bind ((avoids_ask _).mpr hunlock) fun unlocked => ?_
  cases unlocked with
  | none => simp
  | some u =>
      refine .bind ((avoids_ask _).mpr halloc) fun ptn => avoids_ite.mpr ⟨by simp, fun _ => ?_⟩
      refine .bind ((avoids_ask _).mpr hnumber) fun n => ?_
      cases n with
      | none => simp
      | some n => exact (avoids_ask _).mpr (hopen _)

theorem avoids_sessionCopyWinsize {fromFd toFd : Int} (halloc : ¬ P (.alloc 8))
    (hget : ¬ P (.ioctl fromFd tiocgwinsz (List.replicate 8 0)))
    (hset : ∀ size, ¬ P (.ioctl toFd tiocswinsz size)) :
    Avoids P (sessionCopyWinsize fromFd toFd) := by
  refine .bind ((avoids_ask _).mpr halloc) fun ws => avoids_ite.mpr ⟨by simp, fun _ => ?_⟩
  refine .bind ((avoids_ask _).mpr hget) fun size => ?_
  cases size with
  | none => simp
  | some size => exact .bind ((avoids_ask _).mpr (hset size)) fun _ => by simp

theorem avoids_sessionFullWrite {fd : Int} (hwrite : ∀ data, ¬ P (.write fd data)) (fuel : Nat)
    (data : Bytes) : Avoids P (sessionFullWrite fd fuel data) := by
  induction fuel generalizing data with
  | zero => exact avoids_pure 0
  | succ fuel ih =>
      refine avoids_ite.mpr ⟨fun _ => avoids_pure 0, fun _ => ?_⟩
      refine .bind ((avoids_ask _).mpr (hwrite data)) fun w => ?_
      exact avoids_ite.mpr ⟨fun _ => avoids_pure (-1), fun _ => ih _⟩

theorem avoids_sessionSlaveEchoOn {master : Int} (halloc : ¬ P (.alloc termiosSize))
    (hget : ¬ P (.ioctl master tcgets (List.replicate termiosSize 0))) :
    Avoids P (sessionSlaveEchoOn master) := by
  refine .bind ((avoids_ask _).mpr halloc) fun t => avoids_ite.mpr ⟨by simp, fun _ => ?_⟩
  refine .bind ((avoids_ask _).mpr hget) fun termios => ?_
  cases termios <;> simp

theorem avoids_fullWrite {fd : Int} (hwrite : ∀ data, ¬ P (.write fd data)) (data : Bytes) :
    Avoids P (fullWrite fd data) :=
  .bind (avoids_sessionFullWrite hwrite _ _) fun _ => avoids_pure ()

theorem avoids_drainWinch {winchFd : Int} (hblocked : ¬ P .blocked)
    (hread : ¬ P (.read winchFd siginfoSize)) (fuel : Nat) :
    Avoids P (drainWinch winchFd fuel) := by
  induction fuel with
  | zero => exact avoids_sysBlocked hblocked
  | succ fuel ih =>
      exact .bind (avoids_fileRead hread) fun got =>
        avoids_ite.mpr ⟨fun _ => avoids_pure (), fun _ => ih⟩

theorem avoids_relayMaster {master logfd : Int} {hup : Bool} (hblocked : ¬ P .blocked)
    (hread : ¬ P (.read master 4096)) (hshow : ∀ data, ¬ P (.write 1 data))
    (hlog : 0 ≤ logfd → ∀ data, ¬ P (.write logfd data)) (fuel : Nat) :
    Avoids P (relayMaster master logfd hup fuel) := by
  induction fuel with
  | zero => exact avoids_sysBlocked hblocked
  | succ fuel ih =>
      refine .bind (avoids_fileRead hread) fun chunk => avoids_ite.mpr ⟨by simp, fun _ => ?_⟩
      refine .bind (avoids_fullWrite hshow _) fun _ => ?_
      refine .bind (avoids_ite.mpr ⟨fun hon => avoids_fullWrite (hlog hon) _, by simp⟩)
        fun _ => ?_
      exact avoids_ite.mpr ⟨fun _ => ih, by simp⟩

/-- The loop makes three calls of its own. -/
theorem avoids_sessionRelayLoop {master logfd inlogfd winchFd : Int} (hblocked : ¬ P .blocked)
    (hpoll : ∀ fds, ¬ P (.poll fds)) (hclose : ¬ P (.close winchFd))
    (hresize : ∀ revents fuel, Avoids P (relayResize master winchFd revents fuel))
    (hmaster : ∀ hup fuel, Avoids P (relayMaster master logfd hup fuel))
    (hstdin : Avoids P (relayStdin master inlogfd)) (fuel : Nat) (stdinOpen : Bool) :
    Avoids P (sessionRelayLoop master logfd inlogfd winchFd fuel stdinOpen) := by
  induction fuel generalizing stdinOpen with
  | zero => exact avoids_sysBlocked hblocked
  | succ fuel ih =>
      refine .bind ((avoids_ask _).mpr (hpoll _)) fun r => ?_
      refine avoids_ite.mpr ⟨fun _ => avoids_ite.mpr ⟨fun _ => ih _, by simp⟩, fun _ => ?_⟩
      refine .bind (hresize _ _) fun _ => ?_
      refine .bind (avoids_ite.mpr ⟨fun _ => hmaster _ _, by simp⟩) fun ended => ?_
      refine .bind (avoids_ite.mpr ⟨fun _ => hstdin, by simp⟩) fun stdinOpen => ?_
      refine avoids_ite.mpr ⟨fun _ => avoids_ite.mpr ⟨fun _ => ?_, by simp⟩, fun _ => ih _⟩
      exact .bind ((avoids_ask _).mpr hclose) fun _ => avoids_pure 0

end Calls

end Shakti
