import Shakti.Sys
import Shakti.Lib.Scan

/-!
# Shakti.Validate

Username and command validation, command patterns, and the resolution of a
command name to an absolute path (`validate.cyr`), with the error codes they
share (`lib.cyr`).
-/

namespace Shakti

/-! ### Error codes -/

/-- `ShkErr`. -/
inductive ShkErr
  | ok
  | emptyUser
  | pathTraversal
  | nullByte
  | emptyCmd
  | cmdTooLong
  | metachar
  | notFound
  | notExecutable
  | relativePath
  | nonUtf8
  | parse
  | io
  | denied
  | authFailed
  | policy
  | owner
  | worldWritable
  | symlink
  | timestampExpired
  | pamUnavailable
  | exec
  deriving DecidableEq

/-- `shk_err_msg`. -/
def shkErrMsg : ShkErr → CStr
  | .ok => cstr "ok"
  | .emptyUser => cstr "empty username"
  | .pathTraversal => cstr "username contains path traversal"
  | .nullByte => cstr "argument contains null byte"
  | .emptyCmd => cstr "no command specified"
  | .cmdTooLong => cstr "command too long"
  | .metachar => cstr "command name contains shell metacharacter"
  | .notFound => cstr "command not found"
  | .notExecutable => cstr "command not executable"
  | .relativePath => cstr "relative paths not allowed"
  | .nonUtf8 => cstr "path is not valid UTF-8"
  | .parse => cstr "parse error"
  | .io => cstr "I/O error"
  | .denied => cstr "permission denied"
  | .authFailed => cstr "authentication failed"
  | .policy => cstr "policy error"
  | .owner => cstr "file not owned by root"
  | .worldWritable => cstr "file is world-writable"
  | .symlink => cstr "path is a symlink"
  | .timestampExpired => cstr "timestamp expired"
  | .pamUnavailable => cstr "PAM unavailable"
  | .exec => cstr "exec failed"

/-! ### Usernames -/

/-- `validate_username`. The source's test for a NUL inside the name never fires
on a C string and is left to the type. -/
def validateUsername (user : CStr) : ShkErr :=
  if user.length = 0 then .emptyUser
  else if user = cstr "." then .pathTraversal
  else if user = cstr ".." then .pathTraversal
  else if user.bytes.any (· == 47) then .pathTraversal
  else .ok

/-! ### Commands -/

/-- The bytes `_has_shell_meta` looks for. -/
def shellMeta : Bytes := [59, 124, 38, 96, 36, 40, 41, 123, 125, 60, 62, 33]

/-- `_has_shell_meta`. -/
def hasShellMeta (s : CStr) : Bool := s.bytes.any (shellMeta.contains ·)

/-- The total length `validate_command` bounds: one separator for each argument,
then every argument added in turn. -/
def commandLength (argv : List CStr) : Nat :=
  argv.foldl (fun total a => total + a.length) argv.length

/-- `validate_command`. -/
def validateCommand (argv : List CStr) (maxLen : Nat) : ShkErr :=
  match argv with
  | [] => .emptyCmd
  | cmd :: _ =>
      if maxLen < commandLength argv then .cmdTooLong
      else if cmd.length = 0 then .emptyCmd
      else if hasShellMeta cmd then .metachar
      else .ok

/-! ### Command patterns -/

/-- `memeq(a, b, n)` on the first `n` bytes. -/
def memeq (a b : Bytes) (n : Nat) : Bool := a.take n == b.take n

/-- The pattern ends with the byte `c` and then `*`. -/
def endsWithStar (pattern : CStr) (c : UInt8) : Bool :=
  decide (2 ≤ pattern.length) && pattern.load8 (pattern.length - 2) == c
    && pattern.load8 (pattern.length - 1) == 42

/-- The binary portion of a command: everything before its first space. -/
def binPortion (command : CStr) : Bytes := command.bytes.takeWhile (· != 32)

/-- `command_matches`. -/
def commandMatches (command pattern : CStr) : Bool :=
  if pattern = cstr "ALL" then true
  else if pattern = cstr "*" then true
  -- Exact match, arguments included.
  else if command.length = pattern.length ∧ memeq command.bytes pattern.bytes command.length then
    true
  -- A trailing ` *`: the prefix itself, or the prefix and a space.
  else if endsWithStar pattern 32 then
    let prefixLen := pattern.length - 2
    (decide (command.length = prefixLen) && memeq command.bytes pattern.bytes prefixLen)
      || (decide (prefixLen < command.length) && command.load8 prefixLen == 32
          && memeq command.bytes pattern.bytes prefixLen)
  -- A trailing `/*`: binaries directly inside the directory.
  else if endsWithStar pattern 47 then
    let dirLen := pattern.length - 2
    match Scan.lastIndex 47 (binPortion command) with
    | none => false
    | some lastSlash =>
        if dirLen = 0 then decide (lastSlash = 0)
        else decide (lastSlash = dirLen) && memeq command.bytes pattern.bytes dirLen
  -- No slash in the pattern: the basename of the binary portion.
  else if !pattern.bytes.any (· == 47) then
    let bin := binPortion command
    let baseStart := match Scan.lastIndex 47 bin with
      | none => 0
      | some last => last + 1
    decide (bin.length - baseStart = pattern.length)
      && memeq (command.bytes.drop baseStart) pattern.bytes pattern.length
  else false

/-! ### Command resolution -/

/-- `_shk_path`. -/
def shkPath : CStr := cstr "/usr/local/sbin:/usr/local/bin:/usr/sbin:/usr/bin:/sbin:/bin"

/-- `_is_executable`: a regular file with some execute bit. -/
def isExecutable (path : CStr) : Sys Bool := do
  let st : Option Stat ← sys (.stat path)
  match st with
  | none => pure false
  | some st => pure (decide (st.mode &&& sIfmt = sIfreg) && decide (st.mode &&& 73 ≠ 0))

/-- The search through the directories of `_shk_path`. The result carries the
content of the caller's buffer beside the length or error code. -/
def resolveInPath (cmd : CStr) (outCap : Nat) : List Bytes → Bytes → Sys (Except ShkErr Nat × Bytes)
  | [], out => pure (.error .notFound, 0 :: out.drop 1)
  | seg :: segs, out =>
      if seg = [] then resolveInPath cmd outCap segs out
      else if outCap < seg.length + 1 + cmd.length + 1 then pure (.error .cmdTooLong, out)
      else do
        let cand := seg ++ [47] ++ cmd.bytes
        let out := cand ++ [0] ++ out.drop (cand.length + 1)
        let exe ← isExecutable (CStr.read out)
        if exe then pure (.ok cand.length, out) else resolveInPath cmd outCap segs out

/-- `resolve_command(cmd, out, out_cap)`. -/
def resolveCommand (cmd : CStr) (out : Bytes) (outCap : Nat) : Sys (Except ShkErr Nat × Bytes) :=
  if cmd.length = 0 then pure (.error .emptyCmd, out)
  else if cmd.load8 0 = 47 then do
    let exe ← isExecutable cmd
    if !exe then pure (.error .notExecutable, out)
    else if outCap < cmd.length + 1 then pure (.error .cmdTooLong, out)
    else pure (.ok cmd.length, cmd.bytes ++ [0] ++ out.drop (cmd.length + 1))
  else if cmd.bytes.any (· == 47) then pure (.error .relativePath, out)
  else resolveInPath cmd outCap (shkPath.bytes.splitOn 58) out

end Shakti
