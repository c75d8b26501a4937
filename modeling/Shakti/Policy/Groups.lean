import Shakti.Policy.FirstMatch

/-!
# Shakti.Policy.Groups

What a group more or less does to a verdict.

A rule decides for a caller it names, or for whoever is in its group: the rules of a
policy are keyed by groups (`FirstMatch.KeyedRules`). Losing a group can lose a grant,
but it can also lose a denial. `groups_mono_iff` says for which requests it cannot.
-/

namespace Shakti

open FirstMatch

/-- The rules of a policy, as read for a caller, target and command: a group is a key
to the rules that name it. -/
def ruleKeys (caller target command : CStr) : KeyedRules Rule CStr where
  decisive r := (r.runAs = cstr "*" ∨ r.runAs = target) ∧ r.Decisive command
  always r := r.ForUser caller
  key r := r.group
  grants r := ¬ MatchesSome command r.denyCommands

/-- Behind the rules `pre`, the rule `r` decides the request for some list of groups:
no earlier rule that is decisive for the target and the command names the caller, and
`r` does, or its group is not that of such an earlier rule. -/
def Rule.Selectable (r : Rule) (pre : List Rule) (caller target command : CStr) : Prop :=
  (ruleKeys caller target command).Selectable pre r

/-- In every pair of rules that can decide the request for some list of groups, a rule
that denies does not stand before one that allows. -/
def NoDenyBeforeGrant (rules : List Rule) (caller target command : CStr) : Prop :=
  ∀ pre r mid s post, rules = pre ++ r :: (mid ++ s :: post) →
    r.Selectable pre caller target command →
    s.Selectable (pre ++ r :: mid) caller target command →
    ¬ MatchesSome command s.denyCommands → ¬ MatchesSome command r.denyCommands

variable {policy : Policy} {caller target command : CStr} {G : List CStr}

theorem deciding_iff_decides {r : Rule} :
    r.Deciding caller (some G) target command ↔
      (ruleKeys caller target command).Decides G r := by
  simp only [Rule.Deciding, Rule.Applicable, Rule.ForGroup, Option.getD_some,
    KeyedRules.Decides, ruleKeys]
  constructor
  · rintro ⟨⟨hsubject, htarget⟩, hdec⟩
    exact ⟨⟨htarget, hdec⟩, hsubject⟩
  · rintro ⟨⟨htarget, hdec⟩, hsubject⟩
    exact ⟨⟨hsubject, htarget⟩, hdec⟩

/-- The engine allows exactly what the keyed rules grant. -/
theorem allowed_iff_granted :
    (checkAuthorization policy caller (some G) target command).allowed = true ↔
      (ruleKeys caller target command).Granted policy.rules G := by
  have hp : (fun r : Rule => r.Deciding caller (some G) target command)
      = (ruleKeys caller target command).Decides G :=
    funext fun r => propext deciding_iff_decides
  rw [allowed_iff_grants, hp]
  rfl

/-- **More groups keep every grant** exactly when no rule that can deny the request
stands before one that can allow it. -/
theorem groups_mono_iff (policy : Policy) (caller target command : CStr) :
    (∀ G H : List CStr, G ⊆ H →
      (checkAuthorization policy caller (some G) target command).allowed = true →
      (checkAuthorization policy caller (some H) target command).allowed = true) ↔
    NoDenyBeforeGrant policy.rules caller target command := by
  simp only [allowed_iff_granted]
  exact KeyedRules.granted_mono_iff

/-- Interns may run nothing, everybody else anything. -/
def internPolicy : Policy where
  defaults := defaultsNew
  rules := [
    { ruleNew with group := some (cstr "interns"), denyCommands := [cstr "*"] },
    { ruleNew with user := some (cstr "*") }]

/-- An intern whose group is lost gains everything. -/
theorem internPolicy_group_loss_grants :
    ¬ ∀ G H : List CStr, G ⊆ H →
      (checkAuthorization internPolicy (cstr "al") (some G) (cstr "root")
        (cstr "/bin/sh")).allowed = true →
      (checkAuthorization internPolicy (cstr "al") (some H) (cstr "root")
        (cstr "/bin/sh")).allowed = true := by
  intro h
  have hlost := h [] [cstr "interns"] (by simp) (by decide)
  exact absurd hlost (by decide)

end Shakti
