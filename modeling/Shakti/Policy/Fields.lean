import Shakti.Lib.Writes
import Shakti.Policy.Parse

/-!
# Shakti.Policy.Fields

Which key each field of `Defaults` and `Rule` listens to, and what a value written to
that key makes of it: `_shk_def_set` and `_shk_rule_set` read as `Writes.Field`s.
-/

namespace Shakti

open Writes

/-- The fields `_shk_def_set` fills. -/
structure DefaultsFields : Prop where
  timestampTtl : Field shkDefSet Defaults.timestampTtl (cstr "timestamp_ttl")
    (fun old v => (shkParseInt v).getD old)
  requireAuth : Field shkDefSet Defaults.requireAuth (cstr "require_auth")
    (fun old v => (shkParseBool v).getD old)
  auditLog : Field shkDefSet Defaults.auditLog (cstr "audit_log")
    (fun old v => (shkParseBool v).getD old)
  envKeep : Field shkDefSet Defaults.envKeep (cstr "env_keep") (fun _ v => shkParseStrArray v)
  maxCommandLen : Field shkDefSet Defaults.maxCommandLen (cstr "max_command_len")
    (fun old v => (shkParseInt v).getD old)
  includeDir : Field shkDefSet Defaults.includeDir (cstr "include_dir")
    (fun _ v => some (shkUnquote v))
  logSession : Field shkDefSet Defaults.logSession (cstr "log_session")
    (fun old v => (shkParseBool v).getD old)
  sessionLogDir : Field shkDefSet Defaults.sessionLogDir (cstr "session_log_dir")
    (fun _ v => shkUnquote v)
  logInput : Field shkDefSet Defaults.logInput (cstr "log_input")
    (fun old v => (shkParseBool v).getD old)
  nssGroups : Field shkDefSet Defaults.nssGroups (cstr "nss_groups")
    (fun old v => (shkParseBool v).getD old)

/-- The fields `_shk_rule_set` fills. -/
structure RuleFields : Prop where
  user : Field shkRuleSet Rule.user (cstr "user") (fun _ v => some (shkUnquote v))
  group : Field shkRuleSet Rule.group (cstr "group") (fun _ v => some (shkUnquote v))
  runAs : Field shkRuleSet Rule.runAs (cstr "run_as") (fun _ v => shkUnquote v)
  commands : Field shkRuleSet Rule.commands (cstr "commands") (fun _ v => shkParseStrArray v)
  denyCommands : Field shkRuleSet Rule.denyCommands (cstr "deny_commands")
    (fun _ v => shkParseStrArray v)
  requireAuth : Field shkRuleSet Rule.requireAuth (cstr "require_auth")
    (fun old v => (shkParseBool v).getD old)
  description : Field shkRuleSet Rule.description (cstr "description") (fun _ v => shkUnquote v)
  capabilities : Field shkRuleSet Rule.capabilities (cstr "capabilities")
    (fun _ v => shkParseStrArray v)
  logSession : Field shkRuleSet Rule.logSession (cstr "log_session")
    (fun old v => (shkParseBool v).orElse (fun _ => old))
  selinuxContext : Field shkRuleSet Rule.selinuxContext (cstr "selinux_context")
    (fun _ v => shkUnquote v)
  apparmorProfile : Field shkRuleSet Rule.apparmorProfile (cstr "apparmor_profile")
    (fun _ v => shkUnquote v)
  logInput : Field shkRuleSet Rule.logInput (cstr "log_input")
    (fun old v => (shkParseBool v).orElse (fun _ => old))

/-- Every field of the defaults listens to its own key alone: at that key the tests for
the keys before it fail, and at any other key no branch touches it. -/
theorem defaultsFields : DefaultsFields := by
  constructor
  all_goals refine ⟨fun d v => ?_, fun d k v h => ?_⟩
  all_goals first
    | (rw [shkDefSet]
       repeat rw [if_neg (by decide)]
       rw [if_pos rfl])
    | simp only [shkDefSet, apply_ite Defaults.timestampTtl, apply_ite Defaults.requireAuth,
        apply_ite Defaults.auditLog, apply_ite Defaults.envKeep,
        apply_ite Defaults.maxCommandLen, apply_ite Defaults.includeDir,
        apply_ite Defaults.logSession, apply_ite Defaults.sessionLogDir,
        apply_ite Defaults.logInput, apply_ite Defaults.nssGroups, if_neg h, ite_self]

/-- Every field of a rule listens to its own key alone. -/
theorem ruleFields : RuleFields := by
  constructor
  all_goals refine ⟨fun r v => ?_, fun r k v h => ?_⟩
  all_goals first
    | (rw [shkRuleSet]
       repeat rw [if_neg (by decide)]
       rw [if_pos rfl])
    | simp only [shkRuleSet, apply_ite Rule.user, apply_ite Rule.group, apply_ite Rule.runAs,
        apply_ite Rule.commands, apply_ite Rule.denyCommands, apply_ite Rule.requireAuth,
        apply_ite Rule.description, apply_ite Rule.capabilities, apply_ite Rule.logSession,
        apply_ite Rule.selinuxContext, apply_ite Rule.apparmorProfile, apply_ite Rule.logInput,
        if_neg h, ite_self]

end Shakti
