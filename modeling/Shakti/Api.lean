import Shakti.Policy.Authorize
import Shakti.Policy.Load
import Shakti.Identity
import Shakti.Timestamp

/-!
# Shakti.Api

The consumer interface (`api.cyr`): evaluating a request under a policy.

`evaluate_with_policy` rewrites the caller's argument vector in place; the model
returns the vector beside the evaluation.
-/

namespace Shakti

open Effects

/-- `AuthMode`. -/
inductive AuthMode
  | interactive
  | timestampOnly
  | skip
  deriving DecidableEq

/-- `ShaktiConfig`. -/
structure Config where
  policyPath : CStr
  targetUser : CStr
  authMode : AuthMode

/-- `Evaluation`. Null pointers are `none`. -/
structure Evaluation where
  authorized : Bool
  requireAuth : Bool
  timestampValid : Bool
  resolvedCommand : Option CStr
  environment : Option (List CStr)
  errorCode : ShkErr
  errorMsg : CStr
  capabilities : List CStr
  logSession : Bool
  selinuxContext : CStr
  apparmorProfile : CStr
  logInput : Bool

/-- `eval_new`. -/
def evalNew : Evaluation where
  authorized := false
  requireAuth := false
  timestampValid := false
  resolvedCommand := none
  environment := none
  errorCode := .ok
  errorMsg := cstr ""
  capabilities := []
  logSession := false
  selinuxContext := cstr ""
  apparmorProfile := cstr ""
  logInput := false

/-- `_eval_fail`. -/
def evalFail (e : Evaluation) (code : ShkErr) (msg : CStr) : Evaluation :=
  { e with errorCode := code, errorMsg := msg }

/-- `_shk_join_command`, after the words already joined. -/
def joinLoop : List CStr → CStr → CStr
  | [], sb => sb
  | a :: as, sb => joinLoop as (sb ++ cstr " " ++ a)

/-- `_shk_join_command`. -/
def shkJoinCommand : List CStr → CStr
  | [] => cstr ""
  | a :: as => joinLoop as a

/-- `effective_ra`: `AUTH_SKIP` waives authentication. -/
def effectiveRa (mode : AuthMode) (authz : AuthzResult) : Bool :=
  if mode = .skip then false else authz.requireAuth

/-- The evaluation of an allowed request: the verdict's fields, and whether a
timestamp is valid. -/
def evalAllowed (authz : AuthzResult) (tsValid : Bool) (e : Evaluation) : Evaluation :=
  { e with
    authorized := true
    requireAuth := authz.requireAuth
    timestampValid := tsValid
    capabilities := authz.capabilities
    logSession := authz.logSession
    selinuxContext := authz.selinux
    apparmorProfile := authz.apparmor
    logInput := authz.logInput }

/-- The part of `evaluate_with_policy` after an `AZ_ALLOWED`: the timestamp check
and the environment. `e` already carries the resolved command. -/
def evaluateAllowed (fuel : Nat) (config : Config) (defaults : Defaults) (caller : CStr)
    (callerUid callerGid : Nat) (authz : AuthzResult) (e : Evaluation) : Sys Evaluation := do
  let ra := effectiveRa config.authMode authz
  let tsValid ← (if ra then checkTimestamp caller defaults.timestampTtl else pure false)
  let e := evalAllowed authz tsValid e
  if config.authMode = .timestampOnly ∧ ra ∧ !tsValid then
    pure (evalFail e .timestampExpired
      (cstr "timestamp expired — non-interactive mode cannot re-auth"))
  else do
    let home ← targetHome config.targetUser
    let shell ← targetShell config.targetUser
    let env ← sanitizeEnvironment fuel defaults.envKeep
      ⟨caller, callerUid, callerGid, config.targetUser, home, shell⟩
    pure { e with environment := some env }

/-- `evaluate_with_policy`: the evaluation, and the argument vector it leaves. -/
def evaluateWithPolicy (fuel : Nat) (config : Config) (policy : Policy) (caller : CStr)
    (callerUid callerGid : Nat) (groups : Option (List CStr)) (commandArgv : List CStr) :
    Sys (Evaluation × List CStr) :=
  match validateUsername caller with
  | .ok =>
      match validateCommand commandArgv policy.defaults.maxCommandLen with
      | .ok => do
          let (rl, pathBuf) ← resolveCommand (commandArgv.headD (cstr "")) [] 4096
          match rl with
          | .error code => pure (evalFail evalNew code (shkErrMsg code), commandArgv)
          | .ok _ => do
              let resolved := CStr.read pathBuf
              let e := { evalNew with resolvedCommand := some resolved }
              let argv := commandArgv.set 0 resolved
              let authz := checkAuthorization policy caller groups config.targetUser
                (shkJoinCommand argv)
              if !authz.allowed then
                pure ({ e with errorCode := .denied, errorMsg := authz.reason }, argv)
              else do
                let e ← evaluateAllowed fuel config policy.defaults caller callerUid callerGid
                  authz e
                pure (e, argv)
      | vc => pure (evalFail evalNew vc (shkErrMsg vc), commandArgv)
  | vu => pure (evalFail evalNew vu (shkErrMsg vu), commandArgv)

end Shakti
