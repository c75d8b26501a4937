import Shakti.Env
import Shakti.Validate

/-!
# Shakti.Timestamp

The credential cache (`timestamp.cyr`): one root-owned file for each user and
terminal, valid while its modification time lies within the policy's window.
-/

namespace Shakti

open Effects

def eloop : Int := 40

/-- `default_timestamp_dir`. -/
def defaultTimestampDir : CStr := cstr "/var/run/agnos/sudo"

/-- `_shk_now_secs`: seconds since the epoch, `0` on an error. -/
def shkNowSecs : Sys Int := do
  let t : Option Int ← sys .clockGettime
  pure (t.getD 0)

/-- The terminal name in a `/proc/self/fd/0` link: what follows `/dev/`, its
slashes rewritten to dashes; empty for any other link. -/
def ttyName (link : Bytes) : CStr :=
  if link.take 5 = utf8 "/dev/" then
    CStr.read ((link.drop 5).map (fun c => if c = 47 then 45 else c))
  else cstr ""

/-- `_shk_tty_session`. -/
def shkTtySession : Sys CStr := do
  let link : Option Bytes ← sys (.readlink (cstr "/proc/self/fd/0"))
  pure (ttyName ((link.getD []).take 255))

/-- The file name `timestamp_path` builds for a user on a terminal. -/
def timestampFile (user tty : CStr) : CStr :=
  defaultTimestampDir ++ cstr "/" ++ user
    ++ (if 0 < tty.length then cstr ":" ++ tty else cstr "")

/-- `timestamp_path`. -/
def timestampPath (user : CStr) : Sys CStr := do
  let tty ← shkTtySession
  pure (timestampFile user tty)

/-- `_shk_ensure_ts_dir`. -/
def shkEnsureTsDir : Sys ShkErr := do
  let st : Option Stat ← sys (.lstat defaultTimestampDir)
  match st with
  | none => do
      let mr : Int ← sys (.mkdir defaultTimestampDir 448)
      if mr < 0 then pure .io else pure .ok
  | some st =>
      if st.mode &&& sIfmt = sIflnk then pure .symlink
      else if st.mode &&& sIfmt ≠ sIfdir then pure .io
      else if st.uid ≠ 0 then pure .owner
      else if st.mode &&& 2 ≠ 0 then pure .worldWritable
      else pure .ok

/-- `mtime + ttl_secs` in 64 bits: past `2^63 - 1` the sum wraps around. -/
def timestampExpiry (mtime : Int) (ttlSecs : Nat) : Int :=
  if mtime + ttlSecs < 9223372036854775808 then mtime + ttlSecs
  else mtime + ttlSecs - 18446744073709551616

theorem timestampExpiry_le (mtime : Int) (ttlSecs : Nat) :
    timestampExpiry mtime ttlSecs ≤ mtime + ttlSecs := by
  unfold timestampExpiry
  split <;> omega

/-- `check_timestamp`. -/
def checkTimestamp (user : CStr) (ttlSecs : Nat) : Sys Bool := do
  let path ← timestampPath user
  let st : Option Stat ← sys (.lstat path)
  match st with
  | none => pure false
  | some st =>
      if st.mode &&& sIfmt = sIflnk then pure false
      else if st.mode &&& sIfmt ≠ sIfreg then pure false
      else if st.uid ≠ 0 then pure false
      else do
        let now ← shkNowSecs
        if now = 0 then pure false
        else if now < timestampExpiry st.mtime ttlSecs then pure true
        else pure false

/-- `update_timestamp`. -/
def updateTimestamp (user : CStr) : Sys ShkErr :=
  match validateUsername user with
  | .ok => do
      let dirOk ← shkEnsureTsDir
      if dirOk ≠ .ok then pure dirOk
      else do
        let path ← timestampPath user
        let fd : Int ← sys (.open path (oWronly ||| oCreat ||| oTrunc ||| oNofollow) 384)
        if fd = -eloop then pure .symlink
        else if fd < 0 then pure .io
        else do
          let _ ← sys (.close fd)
          pure .ok
  | err => pure err

/-- `invalidate_timestamp`. -/
def invalidateTimestamp (user : CStr) : Sys ShkErr :=
  match validateUsername user with
  | .ok => do
      let path ← timestampPath user
      let st : Option Stat ← sys (.lstat path)
      match st with
      | none => pure .ok
      | some st =>
          if st.mode &&& sIfmt = sIflnk then pure .symlink
          else do
            let ur : Int ← sys (.unlink path)
            if ur < 0 then pure .io else pure .ok
  | err => pure err

end Shakti
