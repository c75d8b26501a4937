import Shakti.Caps
import Shakti.Identity
import Shakti.Lsm
import Shakti.Session

/-!
# Shakti.Exec

From a decided request to `execve` (`main.cyr`): the privilege drop, the direct
exec path, and the exec path on a pseudo-terminal.
-/

namespace Shakti

open Effects

/-! ### The privilege drop -/

/-- Report on stderr and exit. -/
def abort {α : Type} (msg : String) : Sys α := do
  writeLine 2 (cstr msg)
  sysExit 1

/-- Any class that holds of neither call is avoided. -/
theorem avoids_abort {α : Type} {P : SysCall → Prop} {msg : String}
    (hwrite : ¬ P (.write 2 (cstr msg).bytes)) (hexit : ¬ P (.exit 1)) :
    Prog.Avoids P (abort msg : Sys α) :=
  .bind (avoids_fileWrite hwrite) fun _ => avoids_sysExit hexit

/-- The second part of the capability mode, under the target's uid: narrow the
sets, raise the ambient ones, read the effective set back. -/
def dropCaps (capMask : Nat) : Sys Unit := do
  let r ← capsCapset capMask
  if r < 0 then abort "shakti: capset failed; aborting to avoid privilege leak\n"
  else do
    let r ← capsAmbientRaiseSet capMask
    if r < 0 then abort "shakti: ambient capability raise failed; aborting\n"
    else do
      let eff ← capsCapgetEffective
      if eff ≠ some capMask then abort "shakti: capability post-check mismatch; aborting\n"
      else pure ()

/-- The identity part: groups, gid, uid, and the read-backs. -/
def dropIds (gids : List Nat) (targetUid targetGid : Nat) : Sys Unit := do
  let r : Int ← sys (.setgroups gids)
  if r < 0 then abort "shakti: setgroups failed; aborting to avoid privilege leak\n"
  else do
    let r : Int ← sys (.setgid targetGid)
    if r < 0 then abort "shakti: setgid failed; aborting to avoid privilege leak\n"
    else do
      let r : Int ← sys (.setuid targetUid)
      if r < 0 then abort "shakti: setuid failed; aborting to avoid privilege leak\n"
      else do
        let uid : Nat ← sys .getuid
        if uid ≠ targetUid then abort "shakti: getuid post-check != target; aborting\n"
        else do
          let gid : Nat ← sys .getgid
          if gid ≠ targetGid then abort "shakti: getgid post-check != target; aborting\n"
          else pure ()

/-- The first part of the capability mode, still as root: the bounding set, and
keeping the permitted set across the uid change. -/
def dropBounding (capMask : Nat) : Sys Unit := do
  let r ← capsBsetDropComplement capMask
  if r < 0 then abort "shakti: capability bounding-set drop failed; aborting\n"
  else do
    let r ← capsKeepcaps 1
    if r < 0 then abort "shakti: PR_SET_KEEPCAPS failed; aborting\n"
    else pure ()

/-- `_drop_privileges`. -/
def dropPrivileges (nss : NssState) (targetUser : CStr) (targetUid targetGid capMask : Nat) :
    Sys Unit := do
  let (gids, _) ← identityLookupGids nss targetUser targetGid 256
  (if capMask ≠ 0 then dropBounding capMask else pure ())
  dropIds gids targetUid targetGid
  if capMask ≠ 0 then dropCaps capMask else pure ()

/-! ### The exec paths -/

/-- `_build_ptr_array`: the array's content, or exit when memory is exhausted. -/
def buildPtrArray (vec : List CStr) : Sys (List CStr) := do
  let arr : Bool ← sys (.alloc ((vec.length + 1) * 8))
  if !arr then abort "shakti: out of memory building exec arguments; aborting\n"
  else pure vec

/-- `_apply_lsm_or_die`. -/
def applyLsmOrDie (seCtx aaProf : CStr) : Sys Unit := do
  let r ← lsmApplyExec seCtx aaProf
  if r < 0 then
    abort "shakti: could not set LSM exec context (selinux_context/apparmor_profile); aborting\n"
  else pure ()

/-- What an exec path is handed: the command, whom to become, and how. -/
structure ExecRequest where
  resolved : CStr
  argv : List CStr
  env : List CStr
  targetUser : CStr
  targetUid : Nat
  targetGid : Nat
  capMask : Nat
  seCtx : CStr
  aaProf : CStr

/-- From the privilege drop to `execve`, as both exec paths do it. `execve` returns
only on failure. -/
def dropAndExec (site : ExecSite) (nss : NssState) (req : ExecRequest) : Sys Unit := do
  dropPrivileges nss req.targetUser req.targetUid req.targetGid req.capMask
  let argv ← buildPtrArray req.argv
  let envp ← buildPtrArray req.env
  applyLsmOrDie req.seCtx req.aaProf
  let _ ← sys (.execve site req.resolved argv envp)
  pure ()

/-- `_exec_target`. -/
def execTarget (nss : NssState) (req : ExecRequest) : Sys Int := do
  let _ ← sys (.closeRange 3)
  dropAndExec .execTarget nss req
  fileWrite 2 (utf8 "shakti: exec failed\n")
  sysExit 127

/-- `_open_session_log`. -/
def openSessionLog (dir caller suffix : CStr) : Sys Int := do
  let dfd : Int ← sys (.openat (-100) dir (oPath ||| oDirectory ||| oNofollow) 0)
  if dfd < 0 then pure (-1)
  else do
    let stbuf : Bool ← sys (.alloc 144)
    let st : Option Stat ← (if stbuf then sys (.fstatat dfd) else pure none)
    match st with
    | none => do
        let _ ← sys (.close dfd)
        pure (-1)
    | some st =>
        if st.mode &&& sIfmt ≠ sIfdir ∨ st.uid ≠ 0 ∨ st.mode &&& 18 ≠ 0 then do
          let _ ← sys (.close dfd)
          pure (-1)
        else do
          let now ← shkNowSecs
          let pid : Nat ← sys .getpid
          let fname := decimalInt now ++ cstr "-" ++ caller ++ cstr "-" ++ decimal pid ++ suffix
          let fd : Int ←
            sys (.openat dfd fname (oWronly ||| oCreat ||| oExcl ||| oNofollow) 384)
          let _ ← sys (.close dfd)
          pure fd

/-- The child of `_exec_target_pty`: adopt the slave, drop privilege, exec. -/
def ptyChild (slave : Int) (nss : NssState) (req : ExecRequest) : Sys Int := do
  let _ ← sys .setsid
  let _ ← sys (.ioctl slave tiocsctty [])
  let r0 : Int ← sys (.dup2 slave 0)
  if r0 < 0 then sysExit 127
  else do
    let r1 : Int ← sys (.dup2 slave 1)
    if r1 < 0 then sysExit 127
    else do
      let r2 : Int ← sys (.dup2 slave 2)
      if r2 < 0 then sysExit 127
      else do
        let _ ← sys (.closeRange 3)
        dropAndExec .execTargetPty nss req
        sysExit 127

/-- The exit status a wait status stands for: the exit code, or 128 and the
signal. -/
def waitStatusCode (status : Nat) : Int :=
  if status &&& 127 = 0 then ((status >>> 8) &&& 255 : Nat)
  else if (status &&& 127) + 1 < 128 then (128 + (status &&& 127) : Nat)
  else 1

/-- The real terminal's attributes; `none` when it is none, or memory is exhausted. -/
def saveTermios : Sys (Option Bytes) := do
  let origBuf : Bool ← sys (.alloc termiosSize)
  if origBuf then sys (.ioctl 0 tcgets (List.replicate termiosSize 0)) else pure none

/-- Put the real terminal into raw mode. -/
def enterRawMode : Option Bytes → Sys Unit
  | none => pure ()
  | some orig => do
      let raw : Bool ← sys (.alloc termiosSize)
      if raw then do
        let _ ← sys (.ioctl 0 tcsets (sessionTermiosMakeRaw orig))
        pure ()
      else pure ()

/-- Give the real terminal its attributes back. -/
def restoreTermios : Option Bytes → Sys Unit
  | none => pure ()
  | some orig => do
      let _ ← sys (.ioctl 0 tcsets orig)
      pure ()

/-- The footer of a transcript and its `close`. -/
def closeLog (fd rc start finish : Int) : Sys Unit := do
  sessionLogFooter fd rc start finish
  let _ ← sys (.close fd)
  pure ()

/-- The parent of `_exec_target_pty`: relay until the child is gone, reap it, and
close the transcripts. -/
def ptyParent (fuel : Nat) (slave master pid logfd inlogfd start : Int) : Sys Int := do
  let _ ← sys (.close slave)
  let orig ← saveTermios
  enterRawMode orig
  let _ ← sessionRelay fuel master logfd inlogfd
  let stbuf : Bool ← sys (.alloc 8)
  let (_, st) ← (sys (.waitpid pid) : Sys (Int × Nat))
  let status := if stbuf then st else 0
  restoreTermios orig
  let rc := waitStatusCode status
  let finish ← shkNowSecs
  closeLog logfd rc start finish
  (if 0 ≤ inlogfd then closeLog inlogfd rc start finish else pure ())
  let _ ← sys (.close master)
  pure rc

/-- The header of a transcript that is kept. -/
def openTranscript (logfd : Int) (caller : CStr) (req : ExecRequest) (start : Int) : Sys Unit :=
  if 0 ≤ logfd then do
    let tty ← shkTtySession
    sessionLogHeader logfd caller req.targetUser req.resolved tty start
  else pure ()

/-- `_exec_target_pty`. -/
def execTargetPty (fuel : Nat) (nss : NssState) (req : ExecRequest) (logfd inlogfd : Int)
    (caller : CStr) : Sys Int := do
  let start ← shkNowSecs
  openTranscript logfd caller req start
  openTranscript inlogfd caller req start
  let master ← sessionOpenpt
  if master < 0 then do
    writeLine 2 (cstr "shakti: could not allocate pty for session logging; aborting\n")
    pure 1
  else do
    let slave ← sessionOpenSlave master
    if slave < 0 then do
      writeLine 2 (cstr "shakti: could not open pty slave; aborting\n")
      let _ ← sys (.close master)
      pure 1
    else do
      let pid : Int ← sys .fork
      if pid < 0 then do
        writeLine 2 (cstr "shakti: fork failed; aborting\n")
        let _ ← sys (.close slave)
        let _ ← sys (.close master)
        pure 1
      else if pid = 0 then ptyChild slave nss req
      else ptyParent fuel slave master pid logfd inlogfd start

end Shakti
