import Shakti.Policy.FirstMatch

/-!
# Shakti.Policy.MoreDenies

Adding denies never grants.

A pattern inserted into a rule's deny list can make the rule decide where it was passed
over, and then with a denial; it never makes it pass a request over, nor grant one. So
the two scans, of the policy and of the one with more denies, walk through the two rule
lists side by side up to the first rule that decides in the second
(`FirstMatch.Grants.of_pairs`): if that one grants, its counterpart is the first to
decide in the first policy, and grants the same.

* `Rule.MoreDenies`, `Policy.MoreDenies` — patterns inserted anywhere.
* `checkAuthorization_moreDenies` — what is allowed with more denies is allowed without
  them, with the same result.
-/

namespace Shakti

open FirstMatch

/-- `q` is the rule `r` with patterns inserted into its deny list, at any positions. -/
structure Rule.MoreDenies (r q : Rule) : Prop where
  denies : r.denyCommands.Sublist q.denyCommands
  rest : q = { r with denyCommands := q.denyCommands }

/-- Patterns were inserted into the deny lists of the policy's rules. -/
structure Policy.MoreDenies (policy more : Policy) : Prop where
  defaults : more.defaults = policy.defaults
  rules : List.Forall₂ Rule.MoreDenies policy.rules more.rules

section Rule

variable {r q : Rule} {caller : CStr} {groups : Option (List CStr)} {target command : CStr}

/-- A command one of the deny patterns matches is still denied. -/
theorem Rule.MoreDenies.denied (h : r.MoreDenies q) (hdeny : MatchesSome command r.denyCommands) :
    MatchesSome command q.denyCommands := by
  obtain ⟨p, hp, hmatch⟩ := hdeny
  exact ⟨p, h.denies.subset hp, hmatch⟩

/-- The deny list has no part in whom the rule is about. -/
theorem Rule.MoreDenies.applicable_iff (h : r.MoreDenies q) :
    q.Applicable caller groups target ↔ r.Applicable caller groups target := by
  rw [h.rest]
  exact Iff.rfl

theorem Rule.MoreDenies.commands_eq (h : r.MoreDenies q) : q.commands = r.commands := by
  rw [h.rest]

/-- A request the rule decides, it decides with more denies too. -/
theorem Rule.MoreDenies.deciding (h : r.MoreDenies q)
    (hdec : r.Deciding caller groups target command) :
    q.Deciding caller groups target command := by
  obtain ⟨happ, hdecisive⟩ := hdec
  refine ⟨h.applicable_iff.mpr happ, ?_⟩
  rw [Rule.Decisive, h.commands_eq]
  exact hdecisive.imp_left h.denied

/-- A request the rule grants with more denies, it grants without them. -/
theorem Rule.MoreDenies.granting (h : r.MoreDenies q)
    (hdec : q.Deciding caller groups target command)
    (hgrant : ¬ MatchesSome command q.denyCommands) :
    r.Deciding caller groups target command ∧ ¬ MatchesSome command r.denyCommands := by
  obtain ⟨happ, hdecisive⟩ := hdec
  have hcommands : r.commands = [] ∨ MatchesSome command r.commands := by
    rw [← h.commands_eq]
    exact hdecisive.resolve_left hgrant
  exact ⟨⟨h.applicable_iff.mp happ, Or.inr hcommands⟩, fun hdeny => hgrant (h.denied hdeny)⟩

/-- What an allowed request gets from the rule does not depend on its deny list. -/
theorem Rule.MoreDenies.authzAllowed_eq (h : r.MoreDenies q) (defaults : Defaults) :
    authzAllowed q defaults = authzAllowed r defaults := by
  rw [h.rest]
  rfl

end Rule

/-- **Adding denies never grants.** Whatever patterns are inserted into the deny lists of a
policy's rules, a request that is still allowed was allowed before, with the same
authentication, capabilities, logging and LSM fields. -/
theorem checkAuthorization_moreDenies (policy more : Policy) (hmore : policy.MoreDenies more)
    (caller : CStr) (groups : Option (List CStr)) (target command : CStr)
    (hallow : (checkAuthorization more caller groups target command).allowed = true) :
    (checkAuthorization policy caller groups target command).allowed = true ∧
      checkAuthorization policy caller groups target command
        = checkAuthorization more caller groups target command := by
  obtain ⟨pre, pre', r, q, hfirst, hfirst', hrq, hr, hq⟩ :=
    Grants.of_pairs hmore.rules (fun h hno hdec => hno (h.deciding hdec))
      Rule.MoreDenies.granting (allowed_iff_grants.mp hallow)
  have heq : checkAuthorization policy caller groups target command
      = checkAuthorization more caller groups target command := by
    rw [checkAuthorization_first hfirst, checkAuthorization_first hfirst', ruleVerdict,
      ruleVerdict, if_neg (fun h => hr (matchesAny_iff.mp h)),
      if_neg (fun h => hq (matchesAny_iff.mp h)), hmore.defaults, hrq.authzAllowed_eq]
  exact ⟨heq ▸ hallow, heq⟩

/-- A deny pattern in front of another, in the second of two rules. -/
theorem checkAuthorization_moreDenies_insert :
    checkAuthorization
        ⟨defaultsNew, [{ ruleNew with user := some (cstr "bo") },
          { ruleNew with user := some (cstr "al"), denyCommands := [cstr "/bin/sh"] }]⟩
        (cstr "al") none (cstr "root") (cstr "/bin/ls")
      = checkAuthorization
        ⟨defaultsNew, [{ ruleNew with user := some (cstr "bo") },
          { ruleNew with
            user := some (cstr "al")
            denyCommands := [cstr "/sbin/*", cstr "/bin/sh"] }]⟩
        (cstr "al") none (cstr "root") (cstr "/bin/ls") := by
  refine (checkAuthorization_moreDenies _ _ ⟨?_, ?_⟩ _ _ _ _ ?_).2
  · rfl
  · exact .cons ⟨.refl _, rfl⟩ (.cons ⟨List.sublist_cons_self _ _, rfl⟩ .nil)
  · decide

end Shakti
