import Shakti.Policy.FirstMatch
import Shakti.Policy.OriginalMatching

/-!
# Shakti.Policy.OriginalPolicy

The authorization engine the port replaced, and where the two decide differently.

`RustOld.checkAuthorization` is `check_authorization` of the Rust original, over its own policies.
What the port adds to a rule (capabilities, session logs, LSM contexts) says nothing about whether
the rule decides, so that a policy of the port has one of the original inside (`Policy.original`).

* `checkRules_original` — the engines decide a request alike where they read the patterns of the
  applicable rules alike.
* `checkAuthorization_original_iff` — that is all that can keep the policies which are written with
  some patterns from being decided alike.
-/

namespace Shakti

open FirstMatch

/-! ### The original -/

namespace RustOld

/-- `PolicyDefaults`. -/
structure PolicyDefaults where
  timestampTtl : Nat
  requireAuth : Bool
  auditLog : Bool
  envKeep : List CStr
  maxCommandLen : Nat
  includeDir : Option CStr

/-- `PolicyRule`. -/
structure PolicyRule where
  user : Option CStr
  group : Option CStr
  runAs : CStr
  commands : List CStr
  denyCommands : List CStr
  requireAuth : Bool
  description : CStr

/-- `SudoPolicy`. -/
structure SudoPolicy where
  defaults : PolicyDefaults
  rules : List PolicyRule

/-- `AuthzResult`. -/
inductive AuthzResult
  | allowed (requireAuth : Bool)
  | denied (reason : CStr)
  deriving DecidableEq

/-- `user_matches`. -/
def userMatches (rule : PolicyRule) (username : CStr) : Bool :=
  match rule.user with
  | some u => if u = cstr "*" then true else decide (u = username)
  | none => false

/-- `group_matches`. -/
def groupMatches (rule : PolicyRule) (groups : List CStr) : Bool :=
  match rule.group with
  | some g => groups.any fun ug => decide (ug = g)
  | none => false

/-- `check_authorization` from one rule on. -/
def checkRules (defaults : PolicyDefaults) (username : CStr) (groups : List CStr)
    (targetUser command : CStr) : List PolicyRule → AuthzResult
  | [] => .denied (cstr "User '" ++ username ++ cstr "' is not authorized to run '" ++ command
      ++ cstr "' as '" ++ targetUser ++ cstr "'")
  | rule :: rules =>
      if !userMatches rule username && !groupMatches rule groups then
        checkRules defaults username groups targetUser command rules
      else if rule.runAs ≠ cstr "*" ∧ rule.runAs ≠ targetUser then
        checkRules defaults username groups targetUser command rules
      else if rule.denyCommands.any (commandMatches command) then
        .denied (cstr "Command '" ++ command ++ cstr "' is explicitly denied by rule: "
          ++ rule.description)
      else if rule.commands.isEmpty then .allowed (rule.requireAuth && defaults.requireAuth)
      else if rule.commands.any (commandMatches command) then
        .allowed (rule.requireAuth && defaults.requireAuth)
      else checkRules defaults username groups targetUser command rules

/-- `check_authorization` of `policy.rs`. -/
def checkAuthorization (policy : SudoPolicy) (username : CStr) (groups : List CStr)
    (targetUser command : CStr) : AuthzResult :=
  checkRules policy.defaults username groups targetUser command policy.rules

/-- What an allowed request asks for. -/
def AuthzResult.grant : AuthzResult → Option Bool
  | .allowed requireAuth => some requireAuth
  | .denied _ => none

end RustOld

/-- The rule without what the port adds. -/
def Rule.original (r : Rule) : RustOld.PolicyRule where
  user := r.user
  group := r.group
  runAs := r.runAs
  commands := r.commands
  denyCommands := r.denyCommands
  requireAuth := r.requireAuth
  description := r.description

/-- The defaults without what the port adds. -/
def Defaults.original (d : Defaults) : RustOld.PolicyDefaults where
  timestampTtl := d.timestampTtl
  requireAuth := d.requireAuth
  auditLog := d.auditLog
  envKeep := d.envKeep
  maxCommandLen := d.maxCommandLen
  includeDir := d.includeDir

/-- The policy without what the port adds. -/
def Policy.original (policy : Policy) : RustOld.SudoPolicy where
  defaults := policy.defaults.original
  rules := policy.rules.map Rule.original

/-- What an allowed request asks for. -/
def AuthzResult.grant (authz : AuthzResult) : Option Bool :=
  if authz.allowed then some authz.requireAuth else none

/-! ### Rule by rule -/

section Engines

variable {defaults : Defaults} {caller : CStr} {groups : List CStr} {target command : CStr}

/-- Both matchers give one answer on each of the patterns. -/
def ReadAlike (command : CStr) (patterns : List CStr) : Prop :=
  ∀ p ∈ patterns, commandMatches command p = RustOld.commandMatches command p

theorem any_original {patterns : List CStr} (h : ReadAlike command patterns) :
    patterns.any (RustOld.commandMatches command) = matchesAny command patterns := by
  induction patterns with
  | nil => rfl
  | cons p ps ih =>
      rw [ReadAlike, List.forall_mem_cons] at h
      rw [List.any_cons, matchesAny, ih h.2, h.1]
      cases RustOld.commandMatches command p <;> rfl

theorem groups_any_eq (g : CStr) (gs : List CStr) :
    (gs.any fun ug => decide (ug = g)) = groupScan g gs := by
  induction gs with
  | nil => rfl
  | cons ug gs ih =>
      rw [List.any_cons, groupScan, ih]
      by_cases h : g = ug
      · simp [h]
      · simp [h, Ne.symm h]

theorem userMatches_original (r : Rule) (caller : CStr) :
    RustOld.userMatches r.original caller = userMatches r caller := by
  unfold RustOld.userMatches userMatches Rule.original
  cases r.user with
  | none => rfl
  | some u =>
      dsimp only
      by_cases h : u = caller <;> simp [h]

theorem groupMatches_original (r : Rule) (groups : List CStr) :
    RustOld.groupMatches r.original groups = groupMatches r (some groups) := by
  unfold RustOld.groupMatches groupMatches Rule.original
  cases r.group with
  | none => rfl
  | some g => exact groups_any_eq g groups

/-- **One turn of both engines.** A rule that both read alike gives both verdicts, or neither. -/
theorem checkRules_original {rs : List Rule}
    (h : ∀ r ∈ rs, r.Applicable caller (some groups) target →
      ReadAlike command (r.denyCommands ++ r.commands)) :
    (RustOld.checkRules defaults.original caller groups target command
        (rs.map Rule.original)).grant =
      (authorizeRules defaults caller (some groups) target command rs).grant := by
  induction rs with
  | nil => rfl
  | cons r rs ih =>
      rw [List.forall_mem_cons] at h
      have hrest := ih h.2
      rw [List.map_cons, RustOld.checkRules, authorizeRules, userMatches_original,
        groupMatches_original]
      by_cases hsubject : (!userMatches r caller && !groupMatches r (some groups)) = true
      · rw [if_pos hsubject, if_pos hsubject]
        exact hrest
      rw [if_neg hsubject, if_neg hsubject]
      by_cases htarget : targetOk r target = true
      · have hrunAs := targetOk_iff.mp htarget
        have hne : ¬ (r.original.runAs ≠ cstr "*" ∧ r.original.runAs ≠ target) := by
          rw [not_and_or, not_not, not_not]
          exact hrunAs
        have happlicable : r.Applicable caller (some groups) target := by
          refine ⟨?_, hrunAs⟩
          rw [← userMatches_iff, ← groupMatches_iff]
          cases hu : userMatches r caller
          · cases hg : groupMatches r (some groups)
            · simp [hu, hg] at hsubject
            · exact Or.inr rfl
          · exact Or.inl rfl
        obtain ⟨hdeny, hallow⟩ := List.forall_mem_append.mp (h.1 happlicable)
        rw [if_neg hne, if_pos htarget, show r.original.denyCommands = r.denyCommands from rfl,
          show r.original.commands = r.commands from rfl, any_original hdeny, any_original hallow]
        by_cases hdenied : matchesAny command r.denyCommands = true
        · rw [if_pos hdenied, if_pos hdenied]
          rfl
        rw [if_neg hdenied, if_neg hdenied]
        by_cases hall : r.commands = []
        · rw [if_pos hall, if_pos (by rw [hall]; rfl)]
          rfl
        rw [if_neg hall, if_neg (by simpa using hall)]
        by_cases hmatch : matchesAny command r.commands = true
        · rw [if_pos hmatch, if_pos hmatch]
          rfl
        rw [if_neg hmatch, if_neg hmatch]
        exact hrest
      · have hne : r.original.runAs ≠ cstr "*" ∧ r.original.runAs ≠ target := by
          rw [← not_or]
          exact fun hor => htarget (targetOk_iff.mpr hor)
        rw [if_pos hne, if_neg htarget]
        exact hrest

end Engines

/-! ### The policies written with some patterns -/

/-- The rules of the policy name these patterns only. -/
def Policy.WrittenWith (policy : Policy) (patterns : Set CStr) : Prop :=
  ∀ r ∈ policy.rules, ∀ p ∈ r.denyCommands ++ r.commands, p ∈ patterns

/-- The engines allow the same requests for the command, and ask for the same authentication. -/
def DecidedAlike (policy : Policy) (command : CStr) : Prop :=
  ∀ caller groups target,
    (checkAuthorization policy caller (some groups) target command).grant =
      (RustOld.checkAuthorization policy.original caller groups target command).grant

/-- Everyone may run as root what the pattern matches. -/
def onlyPattern (p : CStr) : Policy :=
  ⟨defaultsNew, [{ ruleNew with user := some (cstr "*"), commands := [p] }]⟩

/-- Such a policy says what the matcher says. -/
theorem grant_onlyPattern (p command : CStr) :
    (checkAuthorization (onlyPattern p) (cstr "root") (some []) (cstr "root") command).grant =
      if commandMatches command p then some true else none := by
  cases h : commandMatches command p <;>
    simp [checkAuthorization, onlyPattern, authorizeRules, userMatches, targetOk, ruleNew,
      matchesAny, h, AuthzResult.grant, authzAllowed, authzDenied, defaultsNew]

theorem grant_onlyPattern_original (p command : CStr) :
    (RustOld.checkAuthorization (onlyPattern p).original (cstr "root") [] (cstr "root")
        command).grant =
      if RustOld.commandMatches command p then some true else none := by
  cases h : RustOld.commandMatches command p <;>
    simp [RustOld.checkAuthorization, onlyPattern, Policy.original, Rule.original,
      Defaults.original, RustOld.checkRules, RustOld.userMatches, ruleNew, h,
      RustOld.AuthzResult.grant, defaultsNew]

/-- **The port decides as the original.** Every policy that is written with the patterns of a set
is decided alike by both engines, for every caller, group list and target, exactly if both
matchers give one answer on each pattern of the set. -/
theorem checkAuthorization_original_iff (patterns : Set CStr) (command : CStr) :
    (∀ policy : Policy, policy.WrittenWith patterns → DecidedAlike policy command) ↔
      ∀ p ∈ patterns, commandMatches command p = RustOld.commandMatches command p := by
  constructor
  · intro h p hp
    have hwritten : (onlyPattern p).WrittenWith patterns := by
      simpa [Policy.WrittenWith, onlyPattern, ruleNew] using hp
    have hdecided := h _ hwritten (cstr "root") [] (cstr "root")
    rw [grant_onlyPattern, grant_onlyPattern_original] at hdecided
    cases hport : commandMatches command p <;> cases hold : RustOld.commandMatches command p <;>
      simp_all
  · intro h policy hwritten caller groups target
    refine (checkRules_original fun r hr _ p hp => ?_).symm
    exact h p (hwritten r hr p hp)

end Shakti
