import Mathlib.Data.Fintype.EquivFin
import Shakti.Policy.FirstMatch
import Shakti.Policy.Lint

/-!
# Shakti.Policy.LintReports

What the linter's reports about rules say of the engine.

The linter compares each rule with the later ones and reports the first that has the same
user, group and `run_as`: "only the first matches". The engine does not stop at a rule that
is about the caller, though. It falls through to the next one when neither the deny nor the
allow patterns match, so the later rule has its turn with every command the earlier ones
leave open.

* `mem_lintPolicy_iff` — the linter's output, rule by rule.
* `Rule.Covered` — the earlier rules leave nothing open; `Rule.covered_iff` says so of all
  requests. The proof asks on behalf of a caller, a group and a target that stand for the
  rule's own fields, and that only a wildcard admits where the rule has one.
* `lintPolicy_shadowing_iff` — when the reports about shadowing are true.
-/

namespace Shakti

open FirstMatch

/-! ### The warnings -/

/-- The warning about a rule that is for nobody. -/
def neverMatchWarning (i : Nat) : LintWarning :=
  ⟨.error, some i, cstr "rule has neither 'user' nor 'group' — it will never match"⟩

/-- The warning about a rule that a later one repeats. -/
def duplicateWarning (i : Nat) : LintWarning :=
  ⟨.warn, some i, cstr "duplicate user/group/run_as as a later rule — only the first matches"⟩

/-- The warning about a deny pattern that overlaps no command of its rule. -/
def unreachableWarning (i : Nat) : LintWarning :=
  ⟨.warn, some i,
    cstr "deny_commands pattern doesn't overlap any commands entry — may be unreachable"⟩

/-- The first warning of a rule is there when it is for nobody. -/
theorem neverMatchWarning_mem_iff {i : Nat} {r : Rule} {later : List Rule} :
    neverMatchWarning i ∈ lintRule i r later ↔ r.user = none ∧ r.group = none := by
  have hall : cstr "rule has neither 'user' nor 'group' — it will never match"
      ≠ cstr "rule grants ALL commands to ALL users with NOPASSWD" := by decide
  by_cases hempty : r.commands = [] <;> simp [lintRule, neverMatchWarning, hempty, hall]

/-- The warning about a duplicate is there when a later rule has the same subject. -/
theorem duplicateWarning_mem_iff {i : Nat} {r : Rule} {later : List Rule} :
    duplicateWarning i ∈ lintRule i r later ↔ ∃ o ∈ later, sameSubject r o = true := by
  have hstar : cstr "duplicate user/group/run_as as a later rule — only the first matches"
      ≠ cstr "rule grants all users (*) NOPASSWD access — verify intended" := by decide
  have hany : cstr "duplicate user/group/run_as as a later rule — only the first matches"
      ≠ cstr "rule allows running as any user with all commands" := by decide
  have hdeny : cstr "duplicate user/group/run_as as a later rule — only the first matches"
      ≠ cstr "deny_commands pattern doesn't overlap any commands entry — may be unreachable" := by
    decide
  by_cases hempty : r.commands = [] <;>
    simp [lintRule, duplicateWarning, hempty, hstar, hany, hdeny]

/-- The warnings of the rules are those of each, given the rules behind it. -/
theorem mem_lintRules_iff {w : LintWarning} {n : Nat} {rules : List Rule} :
    w ∈ lintRules n rules ↔
      ∃ pre r post, rules = pre ++ r :: post ∧ w ∈ lintRule (n + pre.length) r post := by
  induction rules generalizing n with
  | nil => simp [lintRules]
  | cons q rules ih =>
      rw [lintRules, List.mem_append, ih]
      constructor
      · rintro (h | ⟨pre, r, post, rfl, h⟩)
        · exact ⟨[], q, rules, rfl, h⟩
        · exact ⟨q :: pre, r, post, rfl, by rwa [List.length_cons, Nat.add_right_comm] at *⟩
      · intro ⟨pre, r, post, hrules, h⟩
        cases pre with
        | nil =>
            obtain ⟨rfl, rfl⟩ := List.cons.inj hrules
            exact Or.inl h
        | cons p pre =>
            obtain ⟨rfl, rfl⟩ := List.cons.inj hrules
            exact Or.inr ⟨pre, r, post, rfl, by simpa [Nat.add_right_comm, Nat.add_assoc] using h⟩

/-- The warnings of a rule carry its index. -/
theorem lintRule_index {w : LintWarning} {n : Nat} {r : Rule} {later : List Rule}
    (h : w ∈ lintRule n r later) : w.ruleIndex = some n := by
  simp only [lintRule, List.mem_append, List.mem_ite_nil_right, List.mem_singleton] at h
  rcases h with (((⟨-, rfl⟩ | ⟨-, h⟩) | ⟨-, rfl⟩) | ⟨-, rfl⟩) | h
  · rfl
  · split at h <;> rw [List.mem_singleton.mp h]
  · rfl
  · rfl
  · split at h
    · simp at h
    · obtain ⟨deny, -, rfl⟩ := List.mem_map.mp h
      rfl

/-- The warnings about the policy as a whole carry none. -/
theorem lintGlobal_index {w : LintWarning} {policy : Policy} (h : w ∈ lintGlobal policy) :
    w.ruleIndex = none := by
  simp only [lintGlobal, List.mem_append, List.mem_ite_nil_right, List.mem_singleton] at h
  rcases h with (⟨-, rfl⟩ | ⟨-, rfl⟩) | ⟨-, rfl⟩ <;> rfl

/-- What the linter says about the rule behind `pre`. -/
theorem mem_lintPolicy_iff {w : LintWarning} {policy : Policy} {pre post : List Rule} {r : Rule}
    (hrules : policy.rules = pre ++ r :: post) (hindex : w.ruleIndex = some pre.length) :
    w ∈ lintPolicy policy ↔ w ∈ lintRule pre.length r post := by
  have hglobal : w ∉ lintGlobal policy := by
    intro h
    rw [lintGlobal_index h] at hindex
    contradiction
  rw [lintPolicy, List.mem_append, mem_lintRules_iff, or_iff_right hglobal]
  constructor
  · intro ⟨pre', r', post', hrules', h⟩
    have hlen : pre'.length = pre.length := by
      have hindex' := lintRule_index h
      rw [hindex, Option.some.injEq] at hindex'
      omega
    obtain ⟨rfl, hrest⟩ := List.append_inj (hrules.symm.trans hrules') hlen.symm
    obtain ⟨rfl, rfl⟩ := List.cons.inj hrest
    rwa [Nat.zero_add] at h
  · intro h
    exact ⟨pre, r, post, hrules, by rwa [Nat.zero_add]⟩

/-! ### Rules that another one covers -/

/-- There is a name that is not in the list. -/
theorem exists_fresh (names : List CStr) : ∃ name, name ∉ names := by
  have hinf : Infinite CStr :=
    Infinite.of_injective (fun n => CStr.read (List.replicate n 97)) (by
      intro n m h
      have hbytes := congrArg CStr.length h
      simp only [CStr.length] at hbytes
      rwa [CStr.read_of_noNul (by simp), CStr.read_of_noNul (by simp), List.length_replicate,
        List.length_replicate] at hbytes)
  obtain ⟨name, hname⟩ := hinf.exists_notMem_finset names.toFinset
  exact ⟨name, fun h => hname (List.mem_toFinset.mpr h)⟩

/-- A name that stands for the field `s` of a rule: the field admits it, and among the given
names only `s` itself and the wildcard do. -/
theorem exists_standIn (s : CStr) (names : List CStr) :
    ∃ name, (s = cstr "*" ∨ s = name) ∧
      ∀ t ∈ names, t = cstr "*" ∨ t = name → t = cstr "*" ∨ t = s := by
  by_cases hs : s = cstr "*"
  · obtain ⟨name, hname⟩ := exists_fresh names
    refine ⟨name, Or.inl hs, ?_⟩
    intro t ht hmatch
    refine Or.inl (hmatch.resolve_right ?_)
    rintro rfl
    exact hname ht
  · exact ⟨s, Or.inr rfl, fun t _ hmatch => hmatch⟩

/-- A rule for the stand-in of a user is for everybody, or for that user. -/
theorem Rule.ForUser.of_standIn {q : Rule} {earlier : List Rule} {caller u : CStr}
    (hforUser : q.ForUser caller) (hq : q ∈ earlier)
    (honly : ∀ t ∈ earlier.filterMap (·.user), t = cstr "*" ∨ t = caller →
      t = cstr "*" ∨ t = u) : q.user = some (cstr "*") ∨ q.user = some u := by
  rcases hforUser with huser | huser
  · exact Or.inl huser
  · have hmem : caller ∈ earlier.filterMap (·.user) := List.mem_filterMap.mpr ⟨q, hq, huser⟩
    rw [huser, Option.some.injEq, Option.some.injEq]
    exact honly caller hmem (Or.inr rfl)

/-- Whatever the rule is decisive about, an earlier rule is decisive about too, for the same
user (or for everybody) and the same target (or any); and likewise for its group. -/
structure Rule.Covered (o : Rule) (earlier : List Rule) : Prop where
  user : ∀ u command, o.user = some u → o.Decisive command →
    ∃ q ∈ earlier, q.Decisive command ∧ (q.user = some (cstr "*") ∨ q.user = some u) ∧
      (q.runAs = cstr "*" ∨ q.runAs = o.runAs)
  group : ∀ g command, o.group = some g → o.Decisive command →
    ∃ q ∈ earlier, q.Decisive command ∧ (q.user = some (cstr "*") ∨ q.group = some g) ∧
      (q.runAs = cstr "*" ∨ q.runAs = o.runAs)

/-- Before a covered rule decides, an earlier one does. -/
theorem Rule.Covered.deciding {o : Rule} {earlier : List Rule} (h : o.Covered earlier)
    {caller : CStr} {groups : Option (List CStr)} {target command : CStr}
    (hdeciding : o.Deciding caller groups target command) :
    ∃ q ∈ earlier, q.Deciding caller groups target command := by
  obtain ⟨⟨hsubject, htarget⟩, hdecisive⟩ := hdeciding
  have hruns : ∀ q : Rule, q.runAs = cstr "*" ∨ q.runAs = o.runAs →
      q.runAs = cstr "*" ∨ q.runAs = target := by
    intro q hq
    rcases hq with hq | hq
    · exact Or.inl hq
    · rw [hq]
      exact htarget
  rcases hsubject with (huser | huser) | ⟨g, hgroup, hmem⟩
  · obtain ⟨q, hq, hdec, hquser, hrun⟩ := h.user _ command huser hdecisive
    rw [or_self] at hquser
    exact ⟨q, hq, ⟨Or.inl (Or.inl hquser), hruns q hrun⟩, hdec⟩
  · obtain ⟨q, hq, hdec, hquser, hrun⟩ := h.user _ command huser hdecisive
    exact ⟨q, hq, ⟨Or.inl hquser, hruns q hrun⟩, hdec⟩
  · obtain ⟨q, hq, hdec, hqgroup, hrun⟩ := h.group g command hgroup hdecisive
    have hqsubject : q.ForUser caller ∨ q.ForGroup groups := by
      rcases hqgroup with hstar | hqgroup
      · exact Or.inl (Or.inl hstar)
      · exact Or.inr ⟨g, hqgroup, hmem⟩
    exact ⟨q, hq, ⟨hqsubject, hruns q hrun⟩, hdec⟩

/-- A covered rule is always passed over, or comes second. -/
theorem Rule.covered_iff {o : Rule} {earlier : List Rule} :
    o.Covered earlier ↔ ∀ caller groups target command,
      o.Deciding caller groups target command →
        ∃ q ∈ earlier, q.Deciding caller groups target command := by
  refine ⟨fun h _ _ _ _ => h.deciding, fun hall => ?_⟩
  -- Against a caller and a target that no rule names, only the wildcards are left.
  obtain ⟨target, htarget, honly⟩ := exists_standIn o.runAs (earlier.map (·.runAs))
  have hruns : ∀ q ∈ earlier, q.runAs = cstr "*" ∨ q.runAs = target →
      q.runAs = cstr "*" ∨ q.runAs = o.runAs :=
    fun q hq => honly q.runAs (List.mem_map_of_mem hq)
  constructor
  case user =>
    intro u command huser hdecisive
    obtain ⟨caller, hcaller, honlyUser⟩ := exists_standIn u (earlier.filterMap (·.user))
    have happ : o.Applicable caller none target := by
      refine ⟨Or.inl ?_, htarget⟩
      rw [Rule.ForUser, huser]
      simpa using hcaller
    obtain ⟨q, hq, ⟨hsubject, hrun⟩, hdec⟩ := hall caller none target command ⟨happ, hdecisive⟩
    have hquser : q.user = some (cstr "*") ∨ q.user = some u := by
      rcases hsubject with hquser | ⟨g, -, hmem⟩
      · exact hquser.of_standIn hq honlyUser
      · simp at hmem
    exact ⟨q, hq, hdec, hquser, hruns q hq hrun⟩
  case group =>
    intro g command hgroup hdecisive
    obtain ⟨caller, hcaller, honlyUser⟩ := exists_standIn (cstr "*") (earlier.filterMap (·.user))
    have happ : o.Applicable caller (some [g]) target :=
      ⟨Or.inr ⟨g, hgroup, by simp⟩, htarget⟩
    obtain ⟨q, hq, ⟨hsubject, hrun⟩, hdec⟩ :=
      hall caller (some [g]) target command ⟨happ, hdecisive⟩
    have hqgroup : q.user = some (cstr "*") ∨ q.group = some g := by
      rcases hsubject with hquser | ⟨g', hqgroup, hmem⟩
      · exact Or.inl ((or_self_iff).mp (hquser.of_standIn hq honlyUser))
      · rw [Option.getD_some, List.mem_singleton] at hmem
        exact Or.inr (hmem ▸ hqgroup)
    exact ⟨q, hq, hdec, hqgroup, hruns q hq hrun⟩

/-! ### Removing a rule -/

section Engine

variable {policy : Policy} {defaults : Defaults} {caller : CStr} {groups : Option (List CStr)}
  {target command : CStr}

/-- A rule does not decide the request exactly when it is passed over, or an earlier one
decides. -/
theorem not_first_iff {pre post : List Rule} {o : Rule} {rules : List Rule}
    (hrules : rules = pre ++ o :: post) :
    ¬ First (fun r => r.Deciding caller groups target command) rules pre o ↔
      (o.Deciding caller groups target command →
        ∃ q ∈ pre, q.Deciding caller groups target command) := by
  constructor
  · intro hno hdec
    by_contra hpre
    push Not at hpre
    exact hno ⟨⟨post, hrules⟩, hdec, hpre⟩
  · intro hcomes ⟨_, hdec, hpre⟩
    obtain ⟨q, hq, hqdec⟩ := hcomes hdec
    exact hpre q hq hqdec

/-- Without a rule that does not decide it, the request has the same result. -/
theorem authorizeRules_remove {pre post : List Rule} {o : Rule}
    (h : o.Deciding caller groups target command →
      ∃ q ∈ pre, q.Deciding caller groups target command) :
    authorizeRules defaults caller groups target command (pre ++ post)
      = authorizeRules defaults caller groups target command (pre ++ o :: post) := by
  by_cases hpre : ∃ q ∈ pre, q.Deciding caller groups target command
  · obtain ⟨q, hq, hdec⟩ := hpre
    obtain ⟨before, s, ⟨behind, rfl⟩, hs, hbefore⟩ :=
      exists_first (p := fun r => r.Deciding caller groups target command) hq hdec
    rw [List.append_assoc, List.append_assoc, authorizeRules_append hbefore,
      authorizeRules_append hbefore, List.cons_append, List.cons_append,
      (authorizeRules_cons s _).1 hs, (authorizeRules_cons s _).1 hs]
  · have hno : ∀ q ∈ pre, ¬ q.Deciding caller groups target command :=
      fun q hq hdec => hpre ⟨q, hq, hdec⟩
    rw [authorizeRules_append hno, authorizeRules_append hno,
      (authorizeRules_cons o post).2 (fun hdec => hpre (h hdec))]

end Engine

/-! ### Shadowing -/

/-- What the linter says about shadowing is true: a rule it reports as one that never
matches decides no request, and neither does the first duplicate of a rule it reports as
duplicated, so that removing it changes no result. -/
structure ShadowingTrue (policy : Policy) : Prop where
  never : ∀ pre r post, policy.rules = pre ++ r :: post →
    neverMatchWarning pre.length ∈ lintPolicy policy →
    ∀ caller groups target command,
      ¬ First (fun r => r.Deciding caller groups target command) policy.rules pre r
  duplicate : ∀ pre r mid o post, policy.rules = pre ++ r :: (mid ++ o :: post) →
    duplicateWarning pre.length ∈ lintPolicy policy →
    sameSubject r o = true → (∀ m ∈ mid, sameSubject r m = false) →
    ∀ caller groups target command,
      ¬ First (fun r => r.Deciding caller groups target command) policy.rules
          (pre ++ r :: mid) o ∧
      checkAuthorization ⟨policy.defaults, pre ++ r :: (mid ++ post)⟩ caller groups target command
        = checkAuthorization policy caller groups target command

/-- **Shadowing reports** are true of a policy exactly when every rule that is the first
duplicate of another is covered by the rules before it. The report that a rule never matches
is always true. -/
theorem lintPolicy_shadowing_iff (policy : Policy) :
    ShadowingTrue policy ↔
      ∀ pre r mid o post, policy.rules = pre ++ r :: (mid ++ o :: post) →
        sameSubject r o = true → (∀ m ∈ mid, sameSubject r m = false) →
        o.Covered (pre ++ r :: mid) := by
  constructor
  · intro htrue pre r mid o post hrules hsame hfirst
    have hwarn : duplicateWarning pre.length ∈ lintPolicy policy := by
      rw [mem_lintPolicy_iff hrules rfl, duplicateWarning_mem_iff]
      exact ⟨o, by simp, hsame⟩
    rw [Rule.covered_iff]
    intro caller groups target command
    have hrules' : policy.rules = (pre ++ r :: mid) ++ o :: post := by simp [hrules]
    exact (not_first_iff hrules').mp
      (htrue.duplicate pre r mid o post hrules hwarn hsame hfirst caller groups target command).1
  · intro hcovered
    constructor
    case never =>
      intro pre r post hrules hwarn caller groups target command
      rw [mem_lintPolicy_iff hrules rfl, neverMatchWarning_mem_iff] at hwarn
      obtain ⟨huser, hgroup⟩ := hwarn
      intro ⟨_, ⟨⟨hsubject, _⟩, _⟩, _⟩
      rcases hsubject with hforUser | ⟨g, hg, _⟩
      · simp [Rule.ForUser, huser] at hforUser
      · simp [hgroup] at hg
    case duplicate =>
      intro pre r mid o post hrules _ hsame hfirst caller groups target command
      have hrules' : policy.rules = (pre ++ r :: mid) ++ o :: post := by simp [hrules]
      have hcomes := Rule.covered_iff.mp (hcovered pre r mid o post hrules hsame hfirst) caller
        groups target command
      refine ⟨(not_first_iff hrules').mpr hcomes, ?_⟩
      rw [checkAuthorization, checkAuthorization, hrules', ← authorizeRules_remove hcomes]
      simp

/-- `al` may list, and `al` may show; the second rule has the subject of the first. -/
def twoRules : Policy :=
  ⟨defaultsNew, [{ ruleNew with user := some (cstr "al"), commands := [cstr "/bin/ls"] },
    { ruleNew with user := some (cstr "al"), commands := [cstr "/bin/cat"] }]⟩

/-- **A duplicate can decide.** The engine falls through the first rule, whose commands do not
match, to the second. -/
theorem lintPolicy_duplicate_decides : ¬ ShadowingTrue twoRules := by
  intro htrue
  have hresult := (htrue.duplicate [] _ [] _ [] rfl (by decide) (by decide)
    (by simp) (cstr "al") none (cstr "root") (cstr "/bin/cat")).2
  revert hresult
  decide

end Shakti
