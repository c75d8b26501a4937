import Shakti.Policy.Authorize

/-!
# Shakti.Policy.Lint

The policy linter (`lint_policy`), run by `shakti -c`.
-/

namespace Shakti

/-- `LintSev`. -/
inductive LintSev
  | warn
  | error
  deriving DecidableEq

/-- A lint warning; `none` for the rule index is the source's `-1`. -/
structure LintWarning where
  severity : LintSev
  ruleIndex : Option Nat
  message : CStr
  deriving DecidableEq

/-- The warnings about the policy as a whole. -/
def lintGlobal (policy : Policy) : List LintWarning :=
  (if policy.rules = [] then
    [⟨.warn, none, cstr "policy has no rules — all commands will be denied"⟩] else [])
  ++ (if policy.defaults.timestampTtl = 0 ∧ policy.defaults.requireAuth then
    [⟨.warn, none,
      cstr "timestamp_ttl is 0 with require_auth=true — password required every invocation"⟩]
    else [])
  ++ (if !policy.defaults.requireAuth then
    [⟨.warn, none, cstr "Global require_auth is false — all rules default to NOPASSWD"⟩] else [])

/-- The duplicate test of two rules: same user, group and `run_as`. -/
def sameSubject (r o : Rule) : Bool :=
  decide (r.user = o.user) && decide (r.group = o.group) && decide (r.runAs = o.runAs)

/-- The overlap test of a deny pattern against the allow patterns. -/
def denyOverlaps (deny : CStr) (commands : List CStr) : Bool :=
  commands.any (fun allow =>
    decide (allow = cstr "ALL") || decide (allow = cstr "*") || commandMatches deny allow)

/-- The warnings about rule `i`, given the rules after it. -/
def lintRule (i : Nat) (r : Rule) (later : List Rule) : List LintWarning :=
  (if r.user = none ∧ r.group = none then
    [⟨.error, some i, cstr "rule has neither 'user' nor 'group' — it will never match"⟩] else [])
  ++ (if r.user = some (cstr "*") ∧ !r.requireAuth then
    if r.commands = [] then
      [⟨.error, some i, cstr "rule grants ALL commands to ALL users with NOPASSWD"⟩]
    else
      [⟨.warn, some i, cstr "rule grants all users (*) NOPASSWD access — verify intended"⟩]
    else [])
  ++ (if r.runAs = cstr "*" ∧ r.commands = [] then
    [⟨.warn, some i, cstr "rule allows running as any user with all commands"⟩] else [])
  ++ (if later.any (sameSubject r) then
    [⟨.warn, some i,
      cstr "duplicate user/group/run_as as a later rule — only the first matches"⟩] else [])
  ++ (if r.commands = [] then []
    else (r.denyCommands.filter (fun deny => !denyOverlaps deny r.commands)).map (fun _ =>
      ⟨.warn, some i,
        cstr "deny_commands pattern doesn't overlap any commands entry — may be unreachable"⟩))

/-- The rule loop of `lint_policy`, from rule `i` on. -/
def lintRules : Nat → List Rule → List LintWarning
  | _, [] => []
  | i, r :: rs => lintRule i r rs ++ lintRules (i + 1) rs

/-- `lint_policy`. -/
def lintPolicy (policy : Policy) : List LintWarning :=
  lintGlobal policy ++ lintRules 0 policy.rules

end Shakti
