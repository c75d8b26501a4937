import Shakti.Lib.Agree
import Shakti.Session

/-!
# Shakti.RelayBuffer

The relay over its one buffer.

`session_relay` reads the master, the terminal and the resize notifications into the same
4096 bytes, and writes from there. `sessionRelay` passes every chunk on by value instead.
Here the functions of the relay are given the buffer and return it:

* `RelayBuffer` — the bytes, of which there are always 4096.
* `sessionRelayBuf` and the functions below it — the relay with the reads into the buffer and
  the writes out of it.
* `sessionRelayBuf_eq` — no chunk is overwritten before it is written: the relay over the
  buffer makes the very calls of the relay that passes chunks.
-/

namespace Shakti

open Effects
open Effects.Prog (Agree)

/-! ### The buffer -/

/-- The bytes of `alloc(4096)`, whatever they are. -/
structure RelayBuffer where
  bytes : Bytes
  size : bytes.length = 4096

/-- A read to the front of the buffer leaves what lies behind it. -/
def RelayBuffer.fill (buf : RelayBuffer) (data : Bytes) : RelayBuffer where
  bytes := (data ++ buf.bytes.drop data.length).take 4096
  size := by
    have hsize := buf.size
    simp only [List.length_take, List.length_append, List.length_drop]
    omega

/-- The first bytes of the buffer are what was read last. -/
theorem RelayBuffer.take_fill (buf : RelayBuffer) {data : Bytes} (h : data.length ≤ 4096) :
    (buf.fill data).bytes.take data.length = data := by
  simp [fill, List.take_take, h]

/-! ### The relay, with the buffer -/

/-- `sys_read(fd, buf, count)`: how many bytes were read, and the buffer. An error delivers
none. -/
def readInto (fd : Int) (buf : RelayBuffer) (count : Nat) : Sys (Nat × RelayBuffer) := do
  let got : Option Bytes ← sys (.read fd count)
  let data := (got.getD []).take count
  pure (data.length, buf.fill data)

/-- The loop of `_session_full_write(fd, buf, n)` from the offset `off` on. -/
def sessionFullWriteBuf (fd : Int) (buf : RelayBuffer) (n : Nat) : Nat → Nat → Sys Int
  | 0, _ => pure 0
  | fuel + 1, off =>
      if n ≤ off then pure 0
      else do
        let w : Int ← sys (.write fd ((buf.bytes.drop off).take (n - off)))
        if w ≤ 0 then pure (-1) else sessionFullWriteBuf fd buf n fuel (off + w.toNat)

/-- `_session_full_write(fd, buf, n)`. -/
def fullWriteBuf (fd : Int) (buf : RelayBuffer) (n : Nat) : Sys Unit := do
  let _ ← sessionFullWriteBuf fd buf n n 0
  pure ()

/-- Drain the resize notifications into the buffer. -/
def drainWinchBuf (winchFd : Int) : Nat → RelayBuffer → Sys RelayBuffer
  | 0, _ => sysBlocked
  | fuel + 1, buf => do
      let (n, buf) ← readInto winchFd buf siginfoSize
      if n = 0 then pure buf else drainWinchBuf winchFd fuel buf

/-- Pass a resize of the terminal on to the master, when one was notified. -/
def relayResizeBuf (master winchFd : Int) (revents fuel : Nat) (buf : RelayBuffer) :
    Sys RelayBuffer :=
  if 0 ≤ winchFd ∧ revents &&& pollin ≠ 0 then do
    let buf ← drainWinchBuf winchFd fuel buf
    sessionCopyWinsize 0 master
    pure buf
  else pure buf

/-- Copy output of the master to the terminal and the transcript. -/
def relayMasterBuf (master logfd : Int) (hup : Bool) : Nat → RelayBuffer →
    Sys (Bool × RelayBuffer)
  | 0, _ => sysBlocked
  | fuel + 1, buf => do
      let (n, buf) ← readInto master buf 4096
      if n = 0 then pure (true, buf)
      else do
        fullWriteBuf 1 buf n
        (if 0 ≤ logfd then fullWriteBuf logfd buf n else pure ())
        if hup then relayMasterBuf master logfd hup fuel buf else pure (false, buf)

/-- Copy input to the keystroke log while the slave echoes. -/
def logKeystrokesBuf (master inlogfd : Int) (buf : RelayBuffer) (n : Nat) : Sys Unit :=
  if 0 ≤ inlogfd then do
    let echo ← sessionSlaveEchoOn master
    if echo then fullWriteBuf inlogfd buf n else pure ()
  else pure ()

/-- Copy one chunk of input to the master and the keystroke log. -/
def relayStdinBuf (master inlogfd : Int) (buf : RelayBuffer) : Sys (Bool × RelayBuffer) := do
  let (n, buf) ← readInto 0 buf 4096
  if n = 0 then pure (false, buf)
  else do
    fullWriteBuf master buf n
    logKeystrokesBuf master inlogfd buf n
    pure (true, buf)

/-- The `poll` loop of `session_relay`. -/
def sessionRelayLoopBuf (master logfd inlogfd winchFd : Int) : Nat → Bool → RelayBuffer → Sys Int
  | 0, _, _ => sysBlocked
  | fuel + 1, stdinOpen, buf => do
      let (pr, revents) ←
        (sys (.poll [master, if stdinOpen then 0 else -1, winchFd]) : Sys (Int × List Nat))
      if pr < 0 then
        if pr = -eintrErrno then
          sessionRelayLoopBuf master logfd inlogfd winchFd fuel stdinOpen buf
        else pure (-1)
      else do
        let buf ← relayResizeBuf master winchFd (revents.getD 2 0) fuel buf
        let mrev := revents.getD 0 0
        let hup := decide (mrev &&& (pollhup ||| pollerr) ≠ 0)
        let (ended, buf) ← (if mrev &&& pollin ≠ 0 then relayMasterBuf master logfd hup fuel buf
          else pure (false, buf))
        let (stdinOpen, buf) ←
          (if stdinOpen ∧ revents.getD 1 0 &&& pollin ≠ 0 then relayStdinBuf master inlogfd buf
          else pure (stdinOpen, buf))
        if ended || hup then do
          if 0 ≤ winchFd then do
            let _ ← sys (.close winchFd)
            pure 0
          else pure 0
        else sessionRelayLoopBuf master logfd inlogfd winchFd fuel stdinOpen buf

/-- `session_relay`; `buf` is what `alloc` delivers. -/
def sessionRelayBuf (fuel : Nat) (buf : RelayBuffer) (master logfd inlogfd : Int) : Sys Int := do
  sessionCopyWinsize 0 master
  let winchFd ← sessionSigwinchFd
  let ok : Bool ← sys (.alloc 4096)
  if !ok then pure (-1)
  else do
    let pfds : Bool ← sys (.alloc 24)
    if !pfds then pure (-1)
    else sessionRelayLoopBuf master logfd inlogfd winchFd fuel true buf

/-! ### The chunks survive in the buffer -/

/-- What was read into the buffer is the chunk, and it is at the front. -/
def FrontIs (out : Nat × RelayBuffer) (chunk : Bytes) : Prop :=
  out.1 = chunk.length ∧ out.1 ≤ 4096 ∧ out.2.bytes.take out.1 = chunk

/-- The buffer beside a result does not matter. -/
def ResultIs {α : Type} (out : α × RelayBuffer) (a : α) : Prop := out.1 = a

theorem agree_readInto (fd : Int) (buf : RelayBuffer) {count : Nat} (h : count ≤ 4096) :
    Agree FrontIs (readInto fd buf count) (fileRead fd count) := by
  refine Agree.call fun r => Agree.pure ?_
  have hlen : ((Option.getD r []).take count).length ≤ 4096 := by
    rw [List.length_take]
    omega
  exact ⟨rfl, hlen, buf.take_fill hlen⟩

theorem FrontIs.eq_nil_iff {n : Nat} {buf : RelayBuffer} {chunk : Bytes}
    (h : FrontIs (n, buf) chunk) : n = 0 ↔ chunk = [] := by
  rw [show n = chunk.length from h.1, List.length_eq_zero_iff]

/-- From an offset on, the loop writes what is left of the first `n` bytes. -/
theorem sessionFullWriteBuf_eq (fd : Int) (buf : RelayBuffer) {n : Nat} (hn : n ≤ 4096)
    (fuel off : Nat) :
    sessionFullWriteBuf fd buf n fuel off =
      sessionFullWrite fd fuel ((buf.bytes.take n).drop off) := by
  have hsize := buf.size
  induction fuel generalizing off with
  | zero => rfl
  | succ fuel ih =>
      have hend : (buf.bytes.drop off).take (n - off) = [] ↔ n ≤ off := by
        rw [← List.drop_take, List.drop_eq_nil_iff, List.length_take]
        omega
      rw [sessionFullWrite, List.drop_take]
      simp only [sessionFullWriteBuf, ih, List.drop_take, List.drop_drop, hend, Nat.sub_sub]

theorem FrontIs.fullWriteBuf_eq {n : Nat} {buf : RelayBuffer} {chunk : Bytes}
    (h : FrontIs (n, buf) chunk) (fd : Int) : fullWriteBuf fd buf n = fullWrite fd chunk := by
  obtain ⟨hlen, hn, hfront⟩ := h
  dsimp only at hlen hn hfront
  rw [fullWriteBuf, fullWrite, sessionFullWriteBuf_eq fd buf hn, List.drop_zero, hfront, hlen]

theorem agree_drainWinchBuf (winchFd : Int) (fuel : Nat) (buf : RelayBuffer) :
    Agree (fun _ _ => True) (drainWinchBuf winchFd fuel buf) (drainWinch winchFd fuel) := by
  induction fuel generalizing buf with
  | zero => exact Agree.call fun r => r.elim
  | succ fuel ih =>
      refine (agree_readInto winchFd buf (by decide)).bind fun ⟨n, buf⟩ got hread => ?_
      simp only [hread.eq_nil_iff]
      exact Agree.ite (fun _ => Agree.pure trivial) fun _ => ih buf

theorem agree_relayResizeBuf (master winchFd : Int) (revents fuel : Nat) (buf : RelayBuffer) :
    Agree (fun _ _ => True) (relayResizeBuf master winchFd revents fuel buf)
      (relayResize master winchFd revents fuel) := by
  refine Agree.ite (fun _ => ?_) fun _ => Agree.pure trivial
  refine (agree_drainWinchBuf winchFd fuel buf).bind fun _ _ _ => ?_
  exact (Agree.refl (sessionCopyWinsize 0 master)).map fun _ _ _ => trivial

theorem agree_relayMasterBuf (master logfd : Int) (hup : Bool) (fuel : Nat) (buf : RelayBuffer) :
    Agree ResultIs (relayMasterBuf master logfd hup fuel buf)
      (relayMaster master logfd hup fuel) := by
  induction fuel generalizing buf with
  | zero => exact Agree.call fun r => r.elim
  | succ fuel ih =>
      refine (agree_readInto master buf (Nat.le_refl 4096)).bind fun ⟨n, buf⟩ chunk hread => ?_
      simp only [hread.eq_nil_iff, hread.fullWriteBuf_eq]
      refine Agree.ite (fun _ => Agree.pure rfl) fun _ => ?_
      refine (Agree.refl _).bind fun _ _ _ => ?_
      refine (Agree.refl _).bind fun _ _ _ => ?_
      exact Agree.ite (fun _ => ih buf) fun _ => Agree.pure rfl

theorem FrontIs.logKeystrokesBuf_eq {n : Nat} {buf : RelayBuffer} {chunk : Bytes}
    (h : FrontIs (n, buf) chunk) (master inlogfd : Int) :
    logKeystrokesBuf master inlogfd buf n = logKeystrokes master inlogfd chunk := by
  simp only [logKeystrokesBuf, logKeystrokes, h.fullWriteBuf_eq]

theorem agree_relayStdinBuf (master inlogfd : Int) (buf : RelayBuffer) :
    Agree ResultIs (relayStdinBuf master inlogfd buf) (relayStdin master inlogfd) := by
  refine (agree_readInto 0 buf (Nat.le_refl 4096)).bind fun ⟨n, buf⟩ chunk hread => ?_
  simp only [hread.eq_nil_iff, hread.fullWriteBuf_eq, hread.logKeystrokesBuf_eq]
  refine Agree.ite (fun _ => Agree.pure rfl) fun _ => ?_
  refine (Agree.refl _).bind fun _ _ _ => ?_
  exact (Agree.refl _).bind fun _ _ _ => Agree.pure rfl

theorem agree_sessionRelayLoopBuf (master logfd inlogfd winchFd : Int) (fuel : Nat)
    (stdinOpen : Bool) (buf : RelayBuffer) :
    Agree Eq (sessionRelayLoopBuf master logfd inlogfd winchFd fuel stdinOpen buf)
      (sessionRelayLoop master logfd inlogfd winchFd fuel stdinOpen) := by
  induction fuel generalizing stdinOpen buf with
  | zero => exact Agree.call fun r => r.elim
  | succ fuel ih =>
      refine Agree.call fun ⟨pr, revents⟩ => ?_
      refine Agree.ite (fun _ => Agree.ite (fun _ => ih stdinOpen buf) fun _ => Agree.pure rfl)
        fun _ => ?_
      refine (agree_relayResizeBuf master winchFd _ fuel buf).bind fun buf _ _ => ?_
      refine Agree.bind (Agree.ite (fun _ => agree_relayMasterBuf master logfd _ fuel buf)
        fun _ => Agree.pure rfl) fun ⟨ended, buf⟩ _ hended => ?_
      refine Agree.bind (Agree.ite (fun _ => agree_relayStdinBuf master inlogfd buf)
        fun _ => Agree.pure rfl) fun ⟨stdinOpen, buf⟩ _ hopen => ?_
      cases hended
      cases hopen
      exact Agree.ite (fun _ => Agree.refl _) fun _ => ih stdinOpen buf

/-- **The buffer does not mix the streams.** Whatever the buffer holds at first, the relay over
it makes the calls of the relay that passes chunks on. -/
theorem sessionRelayBuf_eq (fuel : Nat) (buf : RelayBuffer) (master logfd inlogfd : Int) :
    sessionRelayBuf fuel buf master logfd inlogfd = sessionRelay fuel master logfd inlogfd := by
  refine Agree.eq ?_
  refine (Agree.refl (sessionCopyWinsize 0 master)).bind fun _ _ _ => ?_
  refine (Agree.refl sessionSigwinchFd).bind fun winchFd _ hfd => ?_
  cases hfd
  refine Agree.call fun ok => Agree.ite (fun _ => Agree.pure rfl) fun _ => ?_
  refine Agree.call fun pfds => Agree.ite (fun _ => Agree.pure rfl) fun _ => ?_
  exact agree_sessionRelayLoopBuf master logfd inlogfd winchFd fuel true buf

end Shakti
