import Shakti.Timestamp

/-!
# Shakti.Audit

The audit trail (`audit.cyr`): a line appended to the log file, and a structured
line for live monitoring.
-/

namespace Shakti

open Effects

/-- `AuditAction`. -/
inductive AuditAction
  | command
  | authFailure
  | timestampInvalidated
  | nssBackend
  deriving DecidableEq

/-- `audit_action_str`. -/
def auditActionStr : AuditAction → CStr
  | .command => cstr "COMMAND"
  | .authFailure => cstr "AUTH_FAILURE"
  | .timestampInvalidated => cstr "TIMESTAMP_INVALIDATED"
  | .nssBackend => cstr "NSS_BACKEND"

/-- `default_audit_log_path`. -/
def defaultAuditLogPath : CStr := cstr "/var/log/agnos/sudo.log"

/-- A signed decimal, as the string builder writes it. -/
def decimalInt (n : Int) : CStr :=
  if n < 0 then cstr "-" ++ decimal n.natAbs else decimal n.natAbs

/-- The text of `_build_file_line` for a clock reading and a terminal. -/
def fileLine (now : Int) (tty caller target command : CStr) : CStr :=
  decimalInt now ++ cstr " " ++ caller ++ cstr " : TTY="
    ++ (if 0 < tty.length then tty else cstr "unknown")
    ++ cstr " ; PWD=unknown ; USER=" ++ target ++ cstr " ; COMMAND=" ++ command ++ cstr "\n"

/-- `_build_file_line`. -/
def buildFileLine (caller target command : CStr) : Sys CStr := do
  let now ← shkNowSecs
  let tty ← shkTtySession
  pure (fileLine now tty caller target command)

/-- `_build_stderr_line`. -/
def buildStderrLine (action : AuditAction) (caller target command : CStr) (success : Bool)
    (reason : CStr) : CStr :=
  cstr "shakti: " ++ auditActionStr action ++ cstr " : " ++ caller ++ cstr " ; USER=" ++ target
    ++ cstr " ; COMMAND=" ++ command ++ cstr " ; STATUS="
    ++ (if success then cstr "ALLOWED" else cstr "DENIED")
    ++ cstr " ; REASON=" ++ reason ++ cstr "\n"

/-- `audit_log`. -/
def auditLog (action : AuditAction) (caller target command : CStr) (success : Bool)
    (reason : CStr) : Sys Unit := do
  let line ← buildFileLine caller target command
  let _ ← sys (.appendLocked defaultAuditLogPath line.bytes)
  let err := (buildStderrLine action caller target command success reason).bytes.dropLast
  if success then sys (.sakshiInfo err) else sys (.sakshiWarn err)

/-- `init_tracing`. -/
def initTracing : Sys Unit := sys .sakshiSetLevel

end Shakti
