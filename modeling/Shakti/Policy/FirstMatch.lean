import Shakti.Lib.FirstMatch
import Shakti.Policy.Authorize

/-!
# Shakti.Policy.FirstMatch

What `check_authorization` computes: the first deciding rule alone decides.

A rule is *applicable* to a caller, groups and target, and *deciding* when it is
also decisive about the command: the command matches one of its deny patterns, its
command list is empty, or the command matches one of its commands. The index scans
of the source are turned into these statements first; the results about the engine
are then about the first deciding rule (`FirstMatch.First`).
-/

namespace Shakti

open FirstMatch

/-! ### Applicable and deciding rules -/

/-- The rule's user is `*` or the caller. -/
def Rule.ForUser (r : Rule) (caller : CStr) : Prop :=
  r.user = some (cstr "*") ∨ r.user = some caller

/-- The rule's group is one of the caller's. -/
def Rule.ForGroup (r : Rule) (groups : Option (List CStr)) : Prop :=
  ∃ g, r.group = some g ∧ g ∈ groups.getD []

/-- The rule is about the caller, and its `run_as` is `*` or the target. -/
def Rule.Applicable (r : Rule) (caller : CStr) (groups : Option (List CStr)) (target : CStr) :
    Prop :=
  (r.ForUser caller ∨ r.ForGroup groups) ∧ (r.runAs = cstr "*" ∨ r.runAs = target)

/-- Some pattern of the list matches the command. -/
def MatchesSome (command : CStr) (patterns : List CStr) : Prop :=
  ∃ p ∈ patterns, commandMatches command p = true

/-- The rule has something to say about the command. -/
def Rule.Decisive (r : Rule) (command : CStr) : Prop :=
  MatchesSome command r.denyCommands ∨ r.commands = [] ∨ MatchesSome command r.commands

/-- The rule decides the request. -/
def Rule.Deciding (r : Rule) (caller : CStr) (groups : Option (List CStr))
    (target command : CStr) : Prop :=
  r.Applicable caller groups target ∧ r.Decisive command

/-! ### The scans of the engine -/

theorem userMatches_iff {r : Rule} {caller : CStr} :
    userMatches r caller = true ↔ r.ForUser caller := by
  unfold userMatches Rule.ForUser
  cases r.user <;> simp

theorem groupScan_iff {rg : CStr} {gs : List CStr} : groupScan rg gs = true ↔ rg ∈ gs := by
  induction gs with
  | nil => simp [groupScan]
  | cons g gs ih =>
      by_cases h : rg = g
      · simp [groupScan, h]
      · simp [groupScan, h, ih]

theorem groupMatches_iff {r : Rule} {groups : Option (List CStr)} :
    groupMatches r groups = true ↔ r.ForGroup groups := by
  unfold groupMatches Rule.ForGroup
  cases r.group with
  | none => simp
  | some rg =>
      cases groups with
      | none => simp
      | some gs => simpa using groupScan_iff

theorem targetOk_iff {r : Rule} {target : CStr} :
    targetOk r target = true ↔ r.runAs = cstr "*" ∨ r.runAs = target := by
  unfold targetOk
  split <;> simp [*]

theorem matchesAny_iff {command : CStr} {patterns : List CStr} :
    matchesAny command patterns = true ↔ MatchesSome command patterns := by
  unfold MatchesSome
  induction patterns with
  | nil => simp [matchesAny]
  | cons p ps ih =>
      by_cases h : commandMatches command p = true
      · simp [matchesAny, h]
      · simp [matchesAny, h, ih]

instance (r : Rule) (caller : CStr) (groups : Option (List CStr)) (target : CStr) :
    Decidable (r.Applicable caller groups target) :=
  decidable_of_iff ((userMatches r caller = true ∨ groupMatches r groups = true) ∧
      targetOk r target = true)
    (by rw [Rule.Applicable, userMatches_iff, groupMatches_iff, targetOk_iff])

instance (r : Rule) (command : CStr) : Decidable (r.Decisive command) :=
  decidable_of_iff (matchesAny command r.denyCommands = true ∨ r.commands = [] ∨
      matchesAny command r.commands = true)
    (by rw [Rule.Decisive, matchesAny_iff, matchesAny_iff])

instance (r : Rule) (caller : CStr) (groups : Option (List CStr)) (target command : CStr) :
    Decidable (r.Deciding caller groups target command) :=
  inferInstanceAs (Decidable (r.Applicable caller groups target ∧ r.Decisive command))

/-! ### One rule -/

/-- What a deciding rule makes of the request. -/
def ruleVerdict (defaults : Defaults) (command : CStr) (r : Rule) : AuthzResult :=
  if matchesAny command r.denyCommands then
    authzDenied (cstr "command explicitly denied by rule")
  else authzAllowed r defaults

section Engine

variable {policy : Policy} {defaults : Defaults} {caller : CStr} {groups : Option (List CStr)}
  {target command : CStr}

/-- One turn of the engine: a deciding rule gives its verdict, any other is passed
over. -/
theorem authorizeRules_cons (r : Rule) (rs : List Rule) :
    (r.Deciding caller groups target command →
      authorizeRules defaults caller groups target command (r :: rs)
        = ruleVerdict defaults command r) ∧
    (¬ r.Deciding caller groups target command →
      authorizeRules defaults caller groups target command (r :: rs)
        = authorizeRules defaults caller groups target command rs) := by
  have happ : r.Applicable caller groups target ↔
      (userMatches r caller = true ∨ groupMatches r groups = true) ∧
        targetOk r target = true := by
    rw [Rule.Applicable, userMatches_iff, groupMatches_iff, targetOk_iff]
  have hdec : r.Decisive command ↔
      matchesAny command r.denyCommands = true ∨ r.commands = [] ∨
        matchesAny command r.commands = true := by
    rw [Rule.Decisive, matchesAny_iff, matchesAny_iff]
  -- The tests of the loop, in its order: subject, target, deny patterns, command patterns.
  rw [Rule.Deciding, happ, hdec, authorizeRules, ruleVerdict]
  constructor
  · rintro ⟨⟨hsubject, htarget⟩, hd⟩
    have hs : (!userMatches r caller && !groupMatches r groups) = false := by
      rcases hsubject with h | h <;> simp [h]
    rw [hs, if_neg (by simp), if_pos htarget]
    split
    · rfl
    · rcases hd with h | h | h
      · contradiction
      · rw [if_pos h]
      · rw [if_pos h, ite_self]
  · intro h
    split
    · rfl
    case isFalse hs =>
      split
      case isFalse => rfl
      case isTrue htarget =>
        have hsubject : userMatches r caller = true ∨ groupMatches r groups = true := by
          cases hu : userMatches r caller
          · cases hg : groupMatches r groups
            · simp [hu, hg] at hs
            · exact Or.inr rfl
          · exact Or.inl rfl
        have hd : ¬ (matchesAny command r.denyCommands = true ∨ r.commands = [] ∨
            matchesAny command r.commands = true) := fun hd => h ⟨⟨hsubject, htarget⟩, hd⟩
        rw [if_neg (fun hx => hd (Or.inl hx)), if_neg (fun hx => hd (Or.inr (Or.inl hx))),
          if_neg (fun hx => hd (Or.inr (Or.inr hx)))]

/-! ### The first deciding rule -/

/-- Rules that do not decide are passed over. -/
theorem authorizeRules_append {pre rs : List Rule}
    (hpre : ∀ q ∈ pre, ¬ q.Deciding caller groups target command) :
    authorizeRules defaults caller groups target command (pre ++ rs)
      = authorizeRules defaults caller groups target command rs := by
  induction pre with
  | nil => rfl
  | cons q pre ih =>
      rw [List.cons_append, (authorizeRules_cons q _).2 (hpre q (by simp))]
      exact ih fun q' hq' => hpre q' (by simp [hq'])

/-- Without a deciding rule the request is denied for want of one. -/
theorem checkAuthorization_noMatch
    (h : ∀ r ∈ policy.rules, ¬ r.Deciding caller groups target command) :
    checkAuthorization policy caller groups target command
      = authzDenied (cstr "no matching rule") := by
  have happ : authorizeRules policy.defaults caller groups target command (policy.rules ++ [])
      = authorizeRules policy.defaults caller groups target command [] :=
    authorizeRules_append h
  rwa [List.append_nil] at happ

/-- The first deciding rule gives its verdict, whatever stands after it. -/
theorem checkAuthorization_first {pre : List Rule} {r : Rule}
    (h : First (fun r => r.Deciding caller groups target command) policy.rules pre r) :
    checkAuthorization policy caller groups target command
      = ruleVerdict policy.defaults command r := by
  obtain ⟨⟨post, hrs⟩, hr, hpre⟩ := h
  rw [checkAuthorization, hrs, authorizeRules_append hpre]
  exact (authorizeRules_cons r post).1 hr

/-- The engine allows exactly what the rules grant. -/
theorem allowed_iff_grants :
    (checkAuthorization policy caller groups target command).allowed = true ↔
      Grants (fun r => r.Deciding caller groups target command)
        (fun r => ¬ MatchesSome command r.denyCommands) policy.rules := by
  by_cases hex : ∃ r ∈ policy.rules, r.Deciding caller groups target command
  · obtain ⟨r, hr, hd⟩ := hex
    obtain ⟨pre, s, hfirst⟩ :=
      exists_first (p := fun r => r.Deciding caller groups target command) hr hd
    rw [checkAuthorization_first hfirst, ruleVerdict]
    constructor
    · intro h
      refine ⟨pre, s, hfirst, fun hdeny => ?_⟩
      rw [if_pos (matchesAny_iff.mpr hdeny)] at h
      simp [authzDenied] at h
    · rintro ⟨pre', s', hfirst', hgrants⟩
      obtain ⟨-, rfl⟩ := hfirst.unique hfirst'
      rw [if_neg (fun h => hgrants (matchesAny_iff.mp h))]
      rfl
  · have hno : ∀ r ∈ policy.rules, ¬ r.Deciding caller groups target command :=
      fun r hr hd => hex ⟨r, hr, hd⟩
    rw [checkAuthorization_noMatch hno]
    constructor
    · intro h
      simp [authzDenied] at h
    · rintro ⟨pre, s, ⟨⟨post, hrs⟩, hs, -⟩, -⟩
      exact absurd hs (hno s (by simp [hrs]))

end Engine

/-- The engine reads the applicable rules only. -/
theorem authorizeRules_filter (defaults : Defaults) (caller : CStr)
    (groups : Option (List CStr)) (target command : CStr) (rs : List Rule) :
    authorizeRules defaults caller groups target command
        (rs.filter (fun r => r.Applicable caller groups target))
      = authorizeRules defaults caller groups target command rs := by
  induction rs with
  | nil => rfl
  | cons r rs ih =>
      by_cases happ : r.Applicable caller groups target
      · rw [List.filter_cons_of_pos (by simpa using happ)]
        by_cases hd : r.Deciding caller groups target command
        · rw [(authorizeRules_cons r _).1 hd, (authorizeRules_cons r _).1 hd]
        · rw [(authorizeRules_cons r _).2 hd, (authorizeRules_cons r _).2 hd, ih]
      · rw [List.filter_cons_of_neg (by simpa using happ), ih,
          (authorizeRules_cons r _).2 (fun hd => happ hd.1)]

/-- **First-match semantics.** The request is denied for want of a match exactly when
no rule is deciding; otherwise the first deciding rule gives status and data; and two
rule lists with the same applicable rules are the same policy to the engine. -/
theorem checkAuthorization_firstMatch (policy : Policy) (caller : CStr)
    (groups : Option (List CStr)) (target command : CStr) :
    (((checkAuthorization policy caller groups target command).allowed = false ∧
        (checkAuthorization policy caller groups target command).reason
          = cstr "no matching rule") ↔
      ∀ r ∈ policy.rules, ¬ r.Deciding caller groups target command) ∧
    (∀ pre r, First (fun r => r.Deciding caller groups target command) policy.rules pre r →
      (MatchesSome command r.denyCommands →
        checkAuthorization policy caller groups target command
          = authzDenied (cstr "command explicitly denied by rule")) ∧
      (¬ MatchesSome command r.denyCommands →
        checkAuthorization policy caller groups target command =
          { allowed := true
            requireAuth := r.requireAuth && policy.defaults.requireAuth
            reason := cstr ""
            capabilities := r.capabilities
            logSession := r.logSession.getD policy.defaults.logSession
            selinux := r.selinuxContext
            apparmor := r.apparmorProfile
            logInput := r.logInput.getD policy.defaults.logInput })) ∧
    (∀ rules : List Rule,
      rules.filter (fun r => r.Applicable caller groups target)
        = policy.rules.filter (fun r => r.Applicable caller groups target) →
      checkAuthorization ⟨policy.defaults, rules⟩ caller groups target command
        = checkAuthorization policy caller groups target command) := by
  refine ⟨⟨fun hno r hr hd => ?_, fun h => ?_⟩, fun pre r hfirst => ⟨fun hdeny => ?_,
    fun hdeny => ?_⟩, fun rules hrules => ?_⟩
  · -- A deciding rule would give a verdict, and no verdict carries that reason.
    obtain ⟨pre, s, hfirst⟩ :=
      exists_first (p := fun r => r.Deciding caller groups target command) hr hd
    rw [checkAuthorization_first hfirst, ruleVerdict] at hno
    split at hno
    · exact absurd hno.2 (by decide)
    · exact absurd hno.1 (by simp [authzAllowed])
  · rw [checkAuthorization_noMatch h]
    exact ⟨rfl, rfl⟩
  · rw [checkAuthorization_first hfirst, ruleVerdict, if_pos (matchesAny_iff.mpr hdeny)]
  · rw [checkAuthorization_first hfirst, ruleVerdict,
      if_neg (fun h => hdeny (matchesAny_iff.mp h))]
    rfl
  · have hleft := authorizeRules_filter policy.defaults caller groups target command rules
    have hright :=
      authorizeRules_filter policy.defaults caller groups target command policy.rules
    rw [hrules] at hleft
    exact hleft.symm.trans hright

/-- Two of three rules pass the request by; the deny pattern of the one between them
decides it. -/
theorem checkAuthorization_firstMatch_deny :
    checkAuthorization
        ⟨defaultsNew, [{ ruleNew with user := some (cstr "bo") },
          { ruleNew with group := some (cstr "ops"), denyCommands := [cstr "/bin/*"] },
          { ruleNew with user := some (cstr "*") }]⟩
        (cstr "al") (some [cstr "ops"]) (cstr "root") (cstr "/bin/rm x")
      = authzDenied (cstr "command explicitly denied by rule") := by
  refine ((checkAuthorization_firstMatch _ _ _ _ _).2.1
    [{ ruleNew with user := some (cstr "bo") }]
    { ruleNew with group := some (cstr "ops"), denyCommands := [cstr "/bin/*"] }
    ⟨⟨[{ ruleNew with user := some (cstr "*") }], rfl⟩, ?_, ?_⟩).1 ?_
  · decide
  · decide
  · exact matchesAny_iff.mp (by decide)

end Shakti
