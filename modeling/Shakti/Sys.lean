import Shakti.CStr
import Shakti.Lib.Prog

/-!
# Shakti.Sys

The calls through which the program meets the rest of the machine: system calls,
the standard-library routines that read files, directories and the group
database, the password backends, and the two foreign libc functions of the NSS
path. Each is a constructor of `SysCall`; what it may answer is `SysCall.Answer`,
and nothing is assumed about which answer comes back.

A negative return value that the sources only test with `< 0` is `none` where
the call also delivers data, and an `Int` where it delivers nothing else.
Allocation appears as a call only where the sources check its result.
-/

namespace Shakti

open Effects

/-- The `stat` fields the sources look at. -/
structure Stat where
  mode : Nat
  uid : Nat
  mtime : Int
  deriving DecidableEq, Inhabited

/-- Outcomes of `pam_unix_authenticate`: accepted, rejected, or any of the
codes that mean the helper could not be used. -/
inductive PamResult
  | authOk
  | authFail
  | unavailable
  deriving DecidableEq, Inhabited

/-- Which `sys_execve` of the sources a call is. The kernel is not told; the
label only lets statements speak of one call site. -/
inductive ExecSite
  | suAuthenticate
  | execTarget
  | execTargetPty
  deriving DecidableEq

/-- The calls. -/
inductive SysCall
  /-- `alloc`, where its result is tested. -/
  | alloc (size : Nat)
  | getuid
  | getgid
  | getpid
  | clockGettime
  | stat (path : CStr)
  | lstat (path : CStr)
  | readlink (path : CStr)
  /-- `file_read_all`: the file's whole content; the caller cuts it to its buffer. -/
  | readFile (path : CStr)
  | dirList (path : CStr)
  | mkdir (path : CStr) (mode : Nat)
  | unlink (path : CStr)
  | «open» (path : CStr) (flags mode : Nat)
  | openat (dirfd : Int) (path : CStr) (flags mode : Nat)
  | fstatat (fd : Int)
  | close (fd : Int)
  | write (fd : Int) (data : Bytes)
  | read (fd : Int) (count : Nat)
  /-- `file_append_locked`. -/
  | appendLocked (path : CStr) (data : Bytes)
  | ioctl (fd : Int) (request : Nat) (arg : Bytes)
  | sigprocmask (how set : Nat)
  | sakshiSetLevel
  | sakshiInfo (line : Bytes)
  | sakshiWarn (line : Bytes)
  | pamUnixAuthenticate (username password : CStr)
  | pipe
  | fork
  | waitpid (pid : Int)
  | dup2 (old new : Int)
  | setsid
  | closeRange (first : Nat)
  | setgroups (gids : List Nat)
  | setgid (gid : Nat)
  | setuid (uid : Nat)
  | prctl (option arg2 arg3 : Nat)
  | capset (version pid : Nat) (data : List Nat)
  | capget (version pid : Nat)
  | execve (site : ExecSite) (path : CStr) (argv env : List CStr)
  | exit (code : Int)
  | poll (fds : List Int)
  | signalfd (mask : Nat)
  /-- A wait that nothing ever ends. -/
  | blocked
  | fdlopenInitTrusted
  | dlopen (name : CStr)
  | dlsym (handle : Nat) (name : CStr)
  | getgrouplist (fn : Nat) (user : CStr) (gid ngroups : Nat)
  | getgrgidR (fn gid : Nat)
  | grpGetgrouplist (user : CStr) (gid : Int) (max : Nat)
  | grpGetgrgid (gid : Nat)
  deriving DecidableEq

/-- What each call answers. -/
@[reducible] def SysCall.Answer : SysCall → Type
  | .alloc _ => Bool
  | .getuid | .getgid | .getpid => Nat
  | .clockGettime => Option Int
  | .stat _ | .lstat _ | .fstatat _ => Option Stat
  | .readlink _ | .readFile _ | .read _ _ => Option Bytes
  | .dirList _ => List CStr
  | .ioctl _ _ _ => Option Bytes
  | .sigprocmask _ _ => Nat
  | .sakshiSetLevel | .sakshiInfo _ | .sakshiWarn _ => Unit
  | .pamUnixAuthenticate _ _ => PamResult
  | .pipe => Option (Int × Int)
  | .waitpid _ => Int × Nat
  | .capget _ _ => Option (List Nat)
  | .poll _ => Int × List Nat
  | .exit _ | .blocked => Empty
  | .dlopen _ | .dlsym _ _ => Nat
  -- The return code and what the call left in the caller's buffer.
  | .getgrouplist _ _ _ _ | .grpGetgrouplist _ _ _ => Int × List Nat
  | .getgrgidR _ _ => Int × Option CStr
  | .grpGetgrgid _ => Option CStr
  | .mkdir _ _ | .unlink _ | .open _ _ _ | .openat _ _ _ _ | .close _ | .write _ _
  | .appendLocked _ _ | .fork | .dup2 _ _ | .setsid | .closeRange _ | .setgroups _
  | .setgid _ | .setuid _ | .prctl _ _ _ | .capset _ _ _ | .execve _ _ _ _
  | .signalfd _ | .fdlopenInitTrusted => Int

/-- The machine's calls, as a signature. -/
abbrev sysSig : Sig := ⟨SysCall, SysCall.Answer⟩

/-- A program of this development. -/
abbrev Sys : Type → Type := Prog sysSig

/-- Issue a call. -/
abbrev sys (c : SysCall) : Sys c.Answer := Prog.ask (S := sysSig) c

/-- What happened so far in a run. -/
abbrev Trace := List (Event sysSig)

/-- `sys_exit`: nothing runs after it. -/
def sysExit {α : Type} (code : Int) : Sys α :=
  .call (.exit code) Empty.elim

/-- A wait that never ends. -/
def sysBlocked {α : Type} : Sys α :=
  .call .blocked Empty.elim

/-- `file_read_all(path, buf, cap)`: the first `cap` bytes of the file, or `none`
on an error. -/
def fileReadAll (path : CStr) (cap : Nat) : Sys (Option Bytes) := do
  let content : Option Bytes ← sys (.readFile path)
  pure (content.map (List.take cap))

/-- `file_read`/`sys_read`: at most `count` bytes; an error or the end of the
input delivers none. -/
def fileRead (fd : Int) (count : Nat) : Sys Bytes := do
  let got : Option Bytes ← sys (.read fd count)
  pure ((got.getD []).take count)

/-- `file_write`, whose result the sources ignore. -/
def fileWrite (fd : Int) (data : Bytes) : Sys Unit := do
  let _ ← sys (.write fd data)
  pure ()

/-- `_write_line`: write a C string to `fd`. -/
def writeLine (fd : Int) (s : CStr) : Sys Unit := fileWrite fd s.bytes

/-! ### Open flags and file modes -/

def oWronly : Nat := 1
def oRdwr : Nat := 2
def oCreat : Nat := 64
def oExcl : Nat := 128
def oNoctty : Nat := 256
def oTrunc : Nat := 512
def oDirectory : Nat := 65536
def oNofollow : Nat := 131072
def oPath : Nat := 2097152

def sIfmt : Nat := 61440
def sIflnk : Nat := 40960
def sIfreg : Nat := 32768
def sIfdir : Nat := 16384

/-! ### The calls these functions make -/

section Calls

open Prog

-- Any class that holds of none of a function's calls is avoided by it.
variable {α : Type} {P : SysCall → Prop}

theorem avoids_sysExit {code : Int} (hexit : ¬ P (.exit code)) : Avoids P (sysExit code : Sys α) :=
  ⟨hexit, fun r => r.elim⟩

theorem avoids_sysBlocked (hblocked : ¬ P .blocked) : Avoids P (sysBlocked : Sys α) :=
  ⟨hblocked, fun r => r.elim⟩

theorem avoids_fileRead {fd : Int} {count : Nat} (hread : ¬ P (.read fd count)) :
    Avoids P (fileRead fd count) :=
  .bind ((avoids_ask _).mpr hread) fun _ => avoids_pure _

theorem avoids_fileWrite {fd : Int} {data : Bytes} (hwrite : ¬ P (.write fd data)) :
    Avoids P (fileWrite fd data) :=
  .bind ((avoids_ask _).mpr hwrite) fun _ => avoids_pure _

end Calls

end Shakti
