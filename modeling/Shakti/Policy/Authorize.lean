import Shakti.Policy.Parse
import Shakti.Validate

/-!
# Shakti.Policy.Authorize

The authorization engine (`check_authorization`): the first rule that applies to
the caller, the target and the command, and decides.
-/

namespace Shakti

/-- `AuthzResult`. A denied request carries its reason; an allowed one whether it
needs authentication, and what the deciding rule says about the run. -/
structure AuthzResult where
  /-- `AZ_STATUS = AZ_ALLOWED`. -/
  allowed : Bool
  /-- `AZ_AUX` of an allowed request: `require_auth`. -/
  requireAuth : Bool
  /-- `AZ_AUX` of a denied request. -/
  reason : CStr
  capabilities : List CStr
  logSession : Bool
  selinux : CStr
  apparmor : CStr
  logInput : Bool
  deriving DecidableEq

/-- `authz_new(AZ_DENIED, reason)`. -/
def authzDenied (reason : CStr) : AuthzResult where
  allowed := false
  requireAuth := false
  reason := reason
  capabilities := []
  logSession := false
  selinux := cstr ""
  apparmor := cstr ""
  logInput := false

/-- `_shk_effective_log_session`. -/
def shkEffectiveLogSession (r : Rule) (defaults : Defaults) : Bool :=
  r.logSession.getD defaults.logSession

/-- `_shk_effective_log_input`. -/
def shkEffectiveLogInput (r : Rule) (defaults : Defaults) : Bool :=
  r.logInput.getD defaults.logInput

/-- The record both `AZ_ALLOWED` return sites of `check_authorization` fill. -/
def authzAllowed (r : Rule) (defaults : Defaults) : AuthzResult where
  allowed := true
  requireAuth := r.requireAuth && defaults.requireAuth
  reason := cstr ""
  capabilities := r.capabilities
  logSession := shkEffectiveLogSession r defaults
  selinux := r.selinuxContext
  apparmor := r.apparmorProfile
  logInput := shkEffectiveLogInput r defaults

/-- `user_matches`: the rule's user is `*` or the caller. -/
def userMatches (r : Rule) (caller : CStr) : Bool :=
  match r.user with
  | none => false
  | some ru => if ru = cstr "*" then true else if ru = caller then true else false

/-- The scan of the caller's groups for the rule's group. -/
def groupScan (rg : CStr) : List CStr → Bool
  | [] => false
  | g :: gs => if rg = g then true else groupScan rg gs

/-- `group_matches`; `none` is the source's null group list. -/
def groupMatches (r : Rule) (groups : Option (List CStr)) : Bool :=
  match r.group, groups with
  | some rg, some gs => groupScan rg gs
  | _, _ => false

/-- `target_ok`: the rule's `run_as` is `*` or the target. -/
def targetOk (r : Rule) (target : CStr) : Bool :=
  if r.runAs = cstr "*" then true else if r.runAs = target then true else false

/-- The scan of a pattern list for one that matches the command. -/
def matchesAny (command : CStr) : List CStr → Bool
  | [] => false
  | p :: ps => if commandMatches command p then true else matchesAny command ps

/-- `check_authorization` from one rule on. -/
def authorizeRules (defaults : Defaults) (caller : CStr) (groups : Option (List CStr))
    (target command : CStr) : List Rule → AuthzResult
  | [] => authzDenied (cstr "no matching rule")
  | r :: rs =>
      if !userMatches r caller && !groupMatches r groups then
        authorizeRules defaults caller groups target command rs
      else if targetOk r target then
        if matchesAny command r.denyCommands then
          authzDenied (cstr "command explicitly denied by rule")
        -- An empty command list grants every command.
        else if r.commands = [] then authzAllowed r defaults
        else if matchesAny command r.commands then authzAllowed r defaults
        else authorizeRules defaults caller groups target command rs
      else authorizeRules defaults caller groups target command rs

/-- `check_authorization`. -/
def checkAuthorization (policy : Policy) (caller : CStr) (groups : Option (List CStr))
    (target command : CStr) : AuthzResult :=
  authorizeRules policy.defaults caller groups target command policy.rules

end Shakti
