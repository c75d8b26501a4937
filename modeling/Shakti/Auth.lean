import Shakti.Validate

/-!
# Shakti.Auth

The authentication backends (`auth.cyr`) and the interactive password loop of
`main.cyr`.
-/

namespace Shakti

open Effects

/-! ### Backends -/

/-- `pam_authenticate`: `some` verdict, or `none` where the helper cannot be used
(the source's negative code). -/
def pamAuthenticate (username password : CStr) : Sys (Option Bool) := do
  let rc : PamResult ← sys (.pamUnixAuthenticate username password)
  match rc with
  | .authOk => pure (some true)
  | .authFail => pure (some false)
  | .unavailable => pure none

/-- The child of `su_authenticate`: redirect stdin to the pipe, silence the output,
run `su`. -/
def suChild (rfd wfd : Int) (username : CStr) : Sys Int := do
  let _ ← sys (.close wfd)
  let _ ← sys (.dup2 rfd 0)
  let _ ← sys (.close rfd)
  let devnull : Int ← sys (.open (cstr "/dev/null") oWronly 0)
  if 0 ≤ devnull then do
    let _ ← sys (.dup2 devnull 1)
    let _ ← sys (.dup2 devnull 2)
    let _ ← sys (.close devnull)
    suExec username
  else suExec username
where
  suExec (username : CStr) : Sys Int := do
    let argv : Bool ← sys (.alloc 40)
    if !argv then sysExit 127
    else do
      let envp : Bool ← sys (.alloc 8)
      if !envp then sysExit 127
      else do
        let su := cstr "/usr/bin/su"
        let _ ← sys (.execve .suAuthenticate su [su, cstr "-c", cstr "true", username] [])
        sysExit 127

/-- The parent of `su_authenticate`: send the password, reap the child. -/
def suParent (rfd wfd pid : Int) (password : CStr) : Sys Int := do
  let _ ← sys (.close rfd)
  (if 0 < password.length then fileWrite wfd password.bytes else pure ())
  fileWrite wfd (utf8 "\n")
  let _ ← sys (.close wfd)
  let stbuf : Bool ← sys (.alloc 8)
  if !stbuf then do
    let _ ← sys (.waitpid pid)
    pure (-12)
  else do
    let (wr, status) ← (sys (.waitpid pid) : Sys (Int × Nat))
    if wr < 0 then pure (-12)
    else if status &&& 127 = 0 ∧ (status >>> 8) &&& 255 = 0 then pure 1
    else pure 0

/-- `su_authenticate`: `1` accepted, `0` rejected, negative on an error. -/
def suAuthenticate (username password : CStr) : Sys Int := do
  let pfd : Bool ← sys (.alloc 16)
  if !pfd then pure (-12)
  else do
    let fds : Option (Int × Int) ← sys .pipe
    match fds with
    | none => pure (-12)
    | some (rfd, wfd) => do
        let pid : Int ← sys .fork
        if pid < 0 then do
          let _ ← sys (.close rfd)
          let _ ← sys (.close wfd)
          pure (-12)
        else if pid = 0 then suChild rfd wfd username
        else suParent rfd wfd pid password

/-- `authenticate`. -/
def authenticate (username password : CStr) : Sys Int := do
  let pam ← pamAuthenticate username password
  match pam with
  | some true => pure 1
  | some false => pure 0
  | none => suAuthenticate username password

/-! ### The password prompt -/

def tcgets : Nat := 21505
def tcsets : Nat := 21506
def termiosSize : Nat := 64
def echoFlag : Nat := 8
def maxAuthAttempts : Nat := 3
def pwBufCap : Nat := 1024

/-- A little-endian `u32` in a buffer. -/
def load32 (buf : Bytes) (off : Nat) : Nat :=
  (buf.getD off 0).toNat + (buf.getD (off + 1) 0).toNat <<< 8
    + (buf.getD (off + 2) 0).toNat <<< 16 + (buf.getD (off + 3) 0).toNat <<< 24

/-- Overwrite the bytes of `buf` from `off` on. -/
def store (buf : Bytes) (off : Nat) (bs : Bytes) : Bytes :=
  buf.take off ++ bs ++ buf.drop (off + bs.length)

/-- `store32`. -/
def store32 (buf : Bytes) (off v : Nat) : Bytes :=
  store buf off [v.toUInt8, (v >>> 8).toUInt8, (v >>> 16).toUInt8, (v >>> 24).toUInt8]

/-- `x & (0 - 1 - mask)` on 32 bits: clear the bits of `mask`. -/
def clearBits (x mask : Nat) : Nat := x &&& (4294967295 - mask)

/-- The read loop of `_read_password_into`: one byte at a time until a newline,
the end of the input, or `left` bytes. A byte is stored before it is looked at, so
the newline ends up in the buffer. -/
def readPasswordLoop : Nat → Nat → Bytes → Sys Bytes
  | 0, _, buf => pure buf
  | left + 1, pos, buf => do
      let got ← fileRead 0 1
      match got with
      | [] => pure buf
      | c :: _ =>
          if c = 10 then pure (store buf pos [c])
          else readPasswordLoop left (pos + 1) (store buf pos [c])

/-- Every call of the loop is the read of one byte. -/
theorem avoids_readPasswordLoop {P : SysCall → Prop} (hread : ¬ P (.read 0 1)) (left pos : Nat)
    (buf : Bytes) : Prog.Avoids P (readPasswordLoop left pos buf) := by
  induction left generalizing pos buf with
  | zero => exact Prog.avoids_pure buf
  | succ left ih =>
      refine .bind (.bind ((Prog.avoids_ask _).mpr hread) fun _ => Prog.avoids_pure _) fun got => ?_
      cases got with
      | nil => exact Prog.avoids_pure buf
      | cons c got => exact Prog.avoids_ite.mpr ⟨fun _ => Prog.avoids_pure _, fun _ => ih _ _⟩

/-- The password in the buffer: up to the first newline or NUL, or `limit` bytes. -/
def passwordIn (buf : Bytes) (limit : Nat) : Bytes :=
  (buf.take limit).takeWhile (fun c => c != 10 && c != 0)

/-- `_read_password_into`: the content of the caller's buffer afterwards. -/
def readPasswordInto (buf : Bytes) (cap : Nat) : Sys Bytes := do
  let termios : Option Bytes ← sys (.ioctl 0 tcgets (List.replicate termiosSize 0))
  match termios with
  | some orig => do
      let modified := store32 orig 12 (clearBits (load32 orig 12) echoFlag)
      let _ ← sys (.ioctl 0 tcsets modified)
      let buf ← readPasswordLoop (cap - 1) 0 buf
      let _ ← sys (.ioctl 0 tcsets orig)
      fileWrite 2 (utf8 "\n")
      pure (store buf (passwordIn buf (cap - 1)).length [0])
  | none => do
      let buf ← readPasswordLoop (cap - 1) 0 buf
      fileWrite 2 (utf8 "\n")
      pure (store buf (passwordIn buf (cap - 1)).length [0])

/-- The attempts of `_prompt_and_authenticate` from `attempt` on. The buffer is
cleared after each of them, so each starts from a zeroed one. -/
def promptLoop (username : CStr) : Nat → Nat → Sys Bool
  | 0, _ => pure false
  | left + 1, attempt => do
      fileWrite 2 (utf8 "[shakti] password for ")
      fileWrite 2 username.bytes
      fileWrite 2 (utf8 ": ")
      let buf ← readPasswordInto (List.replicate pwBufCap 0) pwBufCap
      let password := CStr.read buf
      if password.length = 0 then
        if attempt < maxAuthAttempts then do
          fileWrite 2 (utf8 "Sorry, try again.\n")
          promptLoop username left (attempt + 1)
        else pure false
      else do
        let r ← authenticate username password
        if r = 1 then pure true
        else do
          (if attempt < maxAuthAttempts then fileWrite 2 (utf8 "Sorry, try again.\n") else pure ())
          promptLoop username left (attempt + 1)

/-- `_prompt_and_authenticate`. -/
def promptAndAuthenticate (username : CStr) : Sys Bool := promptLoop username maxAuthAttempts 1

end Shakti
