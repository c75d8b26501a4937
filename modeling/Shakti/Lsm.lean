import Shakti.Sys

/-!
# Shakti.Lsm

SELinux and AppArmor exec contexts (`lsm.cyr`), staged right before `execve`.
-/

namespace Shakti

open Effects

def selinuxExecPath : CStr := cstr "/proc/self/attr/exec"
def apparmorExecPath : CStr := cstr "/proc/self/attr/apparmor/exec"

/-- `strstr(buf, name) >= 0`: `needle` occurs somewhere in `hay`. -/
def strstr (hay needle : CStr) : Bool := hay.bytes.tails.any (needle.bytes.isPrefixOf ·)

/-- `_lsm_active_has`. -/
def lsmActiveHas (name : CStr) : Sys Bool := do
  let buf : Bool ← sys (.alloc 256)
  if !buf then pure false
  else do
    let content ← fileReadAll (cstr "/sys/kernel/security/lsm") 255
    match content with
    | none => pure false
    | some [] => pure false
    | some bs => pure (strstr (CStr.read bs) name)

/-- Write all of `data` to an opened exec attribute and close it. -/
def writeExecAttr (fd : Int) (data : Bytes) : Sys Int := do
  let w : Int ← sys (.write fd data)
  let _ ← sys (.close fd)
  if w = data.length then pure 0 else pure (-1)

/-- `lsm_set_selinux_exec`. -/
def lsmSetSelinuxExec (ctx : CStr) : Sys Int := do
  let active ← lsmActiveHas (cstr "selinux")
  if !active then pure (-1)
  else do
    let fd : Int ← sys (.open selinuxExecPath oWronly 0)
    if fd < 0 then pure (-1) else writeExecAttr fd ctx.bytes

/-- `lsm_set_apparmor_exec`. -/
def lsmSetApparmorExec (profile : CStr) : Sys Int := do
  let active ← lsmActiveHas (cstr "apparmor")
  if !active then pure (-1)
  else do
    let data := (cstr "exec " ++ profile).bytes
    let fd : Int ← sys (.open apparmorExecPath oWronly 0)
    if fd < 0 then do
      let fd : Int ← sys (.open selinuxExecPath oWronly 0)
      if fd < 0 then pure (-1) else writeExecAttr fd data
    else writeExecAttr fd data

/-- `lsm_apply_exec`. An empty string means "not requested". -/
def lsmApplyExec (selinuxCtx apparmorProfile : CStr) : Sys Int := do
  let se := decide (0 < selinuxCtx.length)
  let aa := decide (0 < apparmorProfile.length)
  if !se && !aa then pure 0
  else do
    let seActive ← (if se then lsmActiveHas (cstr "selinux") else pure false)
    let seResult ← (if seActive then lsmSetSelinuxExec selinuxCtx else pure 0)
    if seResult < 0 then pure (-1)
    else do
      let aaActive ← (if aa then lsmActiveHas (cstr "apparmor") else pure false)
      let aaResult ← (if aaActive then lsmSetApparmorExec apparmorProfile else pure 0)
      if aaResult < 0 then pure (-1)
      else if seActive || aaActive then pure 0
      else pure (-1)

/-- `lsm_describe`. -/
def lsmDescribe (selinuxCtx apparmorProfile : CStr) : CStr :=
  let hasSe := decide (0 < selinuxCtx.length)
  let hasAa := decide (0 < apparmorProfile.length)
  if !hasSe && !hasAa then cstr "none"
  else
    (if hasSe then cstr "selinux=" ++ selinuxCtx else cstr "")
      ++ (if hasAa then (if hasSe then cstr " " else cstr "") ++ cstr "apparmor=" ++ apparmorProfile
        else cstr "")

end Shakti
