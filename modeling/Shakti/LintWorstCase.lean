import Mathlib.Algebra.Order.BigOperators.Group.List
import Mathlib.Algebra.Order.Group.Nat
import Shakti.Main
import Shakti.Policy.LintReports
import Shakti.Policy.Matching

/-!
# Shakti.LintWorstCase

The linter's worst case: a rule that gives every command to everybody without a password.

The engine's side of it is a statement about all requests (`WorstCase`). It comes down to the
text of the rule (`worstCase_iff`): no deny pattern, a command list that is empty or has a
wildcard in it, and `require_auth` off in the rule or in the defaults. That no other list of
commands will do takes a command that none of finitely many patterns covers
(`exists_uncovered`).

The linter asks for one of these spellings only: the empty list, and `require_auth` off in the
rule itself (`reportsError_iff`). `lintPolicy_worstCase_iff` says which policies this is
enough for.
-/

namespace Shakti

open Effects.Prog

/-! ### Commands that no pattern covers -/

/-- A pattern without a wildcard does not cover a longer run of one letter. -/
theorem not_covers_replicate {p c : CStr} {n : Nat} (hc : c.bytes = List.replicate n 97)
    (hn : p.length < n) (hwild : ¬ (p = cstr "ALL" ∨ p = cstr "*")) : ¬ Covers c p := by
  have hlen : c.bytes.length = n := by rw [hc, List.length_replicate]
  have hbin : binPortion c = c.bytes := by
    rw [binPortion, List.takeWhile_eq_self_iff, hc]
    intro b hb
    rw [List.eq_of_mem_replicate hb]
    rfl
  have hmem : ∀ b ∈ c.bytes, b = 97 := by
    rw [hc]
    exact fun b hb => List.eq_of_mem_replicate hb
  intro hcovers
  cases hcovers with
  | wildcard h => exact hwild h
  | exact h =>
      rw [h] at hlen
      exact absurd hlen (by simpa [CStr.length] using Nat.ne_of_lt hn)
  | args q hq h =>
      rcases h with h | h
      · have hle : q.length ≤ p.length := by simp [CStr.length, hq]
        rw [h] at hlen
        omega
      · have hspace : (32 : UInt8) ∈ c.bytes := h.subset (by simp)
        exact absurd (hmem 32 hspace) (by decide)
  | directory d base _ _ h _ =>
      have hslash : (47 : UInt8) ∈ c.bytes := by
        rw [← hbin, h]
        simp
      exact absurd (hmem 47 hslash) (by decide)
  | basename _ _ _ h =>
      rw [hbin] at h
      rcases h with h | h
      · have heq : p.length = n := by rw [CStr.length, ← h, hlen]
        omega
      · have hslash : (47 : UInt8) ∈ c.bytes := h.subset (by simp)
        exact absurd (hmem 47 hslash) (by decide)

/-- Finitely many patterns without a wildcard leave a command open. -/
theorem exists_uncovered {patterns : List CStr} (hall : cstr "ALL" ∉ patterns)
    (hstar : cstr "*" ∉ patterns) : ∃ command, ¬ MatchesSome command patterns := by
  -- A run of one letter that is longer than all of them together.
  let n := (patterns.map CStr.length).sum + 1
  have hread : (CStr.read (List.replicate n 97)).bytes = List.replicate n 97 :=
    CStr.read_of_noNul (by simp)
  refine ⟨CStr.read (List.replicate n 97), ?_⟩
  intro ⟨p, hp, hmatch⟩
  have hlen : p.length < n :=
    Nat.lt_succ_of_le (List.le_sum_of_mem (List.mem_map_of_mem hp))
  have hwild : ¬ (p = cstr "ALL" ∨ p = cstr "*") := by
    intro h
    rcases h with rfl | rfl
    · exact hall hp
    · exact hstar hp
  exact not_covers_replicate hread hlen hwild ((commandMatches_iff _ _).mp hmatch)

/-- Every pattern matches its own text. -/
theorem commandMatches_self (p : CStr) : commandMatches p p = true :=
  (commandMatches_iff p p).mpr (.exact rfl)

/-! ### The worst case -/

/-- For some target, the rule alone lets every caller run every command, unasked. -/
def WorstCase (defaults : Defaults) (r : Rule) : Prop :=
  ∃ target, ∀ caller groups command,
    (checkAuthorization ⟨defaults, [r]⟩ caller groups target command).allowed = true ∧
    (checkAuthorization ⟨defaults, [r]⟩ caller groups target command).requireAuth = false

/-- The rule refuses no command: it has no deny pattern, and its command list is empty or has
a wildcard in it. -/
def Rule.GrantsAll (r : Rule) : Prop :=
  r.denyCommands = [] ∧ (r.commands = [] ∨ cstr "ALL" ∈ r.commands ∨ cstr "*" ∈ r.commands)

/-- Authentication is off for the rule, by its own flag or by the default. -/
def Rule.Unasked (r : Rule) (defaults : Defaults) : Prop :=
  r.requireAuth = false ∨ defaults.requireAuth = false

/-- What one rule for everybody makes of a request to its own target. -/
theorem checkAuthorization_single {defaults : Defaults} {r : Rule} {caller : CStr}
    {groups : Option (List CStr)} {target command : CStr} (huser : r.user = some (cstr "*")) :
    (checkAuthorization ⟨defaults, [r]⟩ caller groups target command).allowed = true ↔
      (r.runAs = cstr "*" ∨ r.runAs = target) ∧ ¬ MatchesSome command r.denyCommands ∧
        (r.commands = [] ∨ MatchesSome command r.commands) := by
  have hdeciding : r.Deciding caller groups target command ↔
      (r.runAs = cstr "*" ∨ r.runAs = target) ∧ r.Decisive command :=
    ⟨fun h => ⟨h.1.2, h.2⟩, fun h => ⟨⟨Or.inl (Or.inl huser), h.1⟩, h.2⟩⟩
  rw [checkAuthorization]
  by_cases hd : r.Deciding caller groups target command
  · rw [(authorizeRules_cons r []).1 hd, ruleVerdict]
    obtain ⟨htarget, hdecisive⟩ := hdeciding.mp hd
    by_cases hdeny : MatchesSome command r.denyCommands
    · rw [if_pos (matchesAny_iff.mpr hdeny)]
      simp [authzDenied, hdeny]
    · rw [if_neg (fun h => hdeny (matchesAny_iff.mp h))]
      exact iff_of_true rfl ⟨htarget, hdeny, hdecisive.resolve_left hdeny⟩
  · rw [(authorizeRules_cons r []).2 hd, authorizeRules]
    refine iff_of_false (by simp [authzDenied]) ?_
    intro h
    exact hd (hdeciding.mpr ⟨h.1, Or.inr h.2.2⟩)

/-- An allowed request to one rule asks for a password when both flags do. -/
theorem checkAuthorization_single_requireAuth {defaults : Defaults} {r : Rule} {caller : CStr}
    {groups : Option (List CStr)} {target command : CStr}
    (hallowed :
      (checkAuthorization ⟨defaults, [r]⟩ caller groups target command).allowed = true) :
    (checkAuthorization ⟨defaults, [r]⟩ caller groups target command).requireAuth
      = (r.requireAuth && defaults.requireAuth) := by
  rw [checkAuthorization] at *
  by_cases hd : r.Deciding caller groups target command
  · rw [(authorizeRules_cons r []).1 hd, ruleVerdict] at *
    split at hallowed
    · simp [authzDenied] at hallowed
    · rw [if_neg (by assumption)]
      rfl
  · rw [(authorizeRules_cons r []).2 hd, authorizeRules] at hallowed
    simp [authzDenied] at hallowed

/-- **The worst case in the rule's text.** -/
theorem worstCase_iff {defaults : Defaults} {r : Rule} (huser : r.user = some (cstr "*")) :
    WorstCase defaults r ↔ r.GrantsAll ∧ r.Unasked defaults := by
  constructor
  · intro ⟨target, hall⟩
    have hgrants : ∀ command, ¬ MatchesSome command r.denyCommands ∧
        (r.commands = [] ∨ MatchesSome command r.commands) := fun command =>
      ((checkAuthorization_single huser).mp (hall (cstr "") none command).1).2
    refine ⟨⟨?_, ?_⟩, ?_⟩
    · cases hdeny : r.denyCommands with
      | nil => rfl
      | cons d ds =>
          refine absurd ?_ (hgrants d).1
          exact ⟨d, by simp [hdeny], commandMatches_self d⟩
    · by_contra hno
      push Not at hno
      obtain ⟨hne, hnoAll, hnoStar⟩ := hno
      obtain ⟨command, hopen⟩ := exists_uncovered hnoAll hnoStar
      exact (hgrants command).2.elim hne hopen
    · have hfree := hall (cstr "") none (cstr "")
      rw [checkAuthorization_single_requireAuth hfree.1, Bool.and_eq_false_iff] at hfree
      exact hfree.2
  · intro ⟨⟨hdeny, hcommands⟩, hfree⟩
    refine ⟨r.runAs, ?_⟩
    intro caller groups command
    have hallowed :
        (checkAuthorization ⟨defaults, [r]⟩ caller groups r.runAs command).allowed = true := by
      rw [checkAuthorization_single huser]
      refine ⟨Or.inr rfl, by simp [hdeny, MatchesSome], ?_⟩
      rcases hcommands with h | h | h
      · exact Or.inl h
      · exact Or.inr ⟨_, h, (commandMatches_iff _ _).mpr (.wildcard (Or.inl rfl))⟩
      · exact Or.inr ⟨_, h, (commandMatches_iff _ _).mpr (.wildcard (Or.inr rfl))⟩
    refine ⟨hallowed, ?_⟩
    rw [checkAuthorization_single_requireAuth hallowed, Bool.and_eq_false_iff]
    exact hfree

/-! ### The linter's errors -/

/-- The linter reports an error about rule `i`. -/
def ReportsError (policy : Policy) (i : Nat) : Prop :=
  ∃ w ∈ lintPolicy policy, w.severity = .error ∧ w.ruleIndex = some i

/-- A rule for everybody is an error in one spelling: the empty command list, and
`require_auth` off in the rule itself. -/
theorem lintRule_error_iff {i : Nat} {r : Rule} {later : List Rule}
    (huser : r.user = some (cstr "*")) :
    (∃ w ∈ lintRule i r later, w.severity = .error) ↔ r.commands = [] ∧ r.requireAuth = false := by
  have hwarn : LintSev.warn ≠ .error := by decide
  constructor
  · intro h
    obtain ⟨w, hw, hsev⟩ := h
    simp only [lintRule, List.mem_append, List.mem_ite_nil_right, List.mem_singleton] at hw
    rcases hw with (((⟨hnone, -⟩ | ⟨hall, hw⟩) | ⟨-, rfl⟩) | ⟨-, rfl⟩) | hw
    · rw [huser] at hnone
      exact absurd hnone.1 (by simp)
    · split at hw
      case isTrue hempty => exact ⟨hempty, by simpa using hall.2⟩
      case isFalse =>
        rw [List.mem_singleton.mp hw] at hsev
        exact absurd hsev hwarn
    · exact absurd hsev hwarn
    · exact absurd hsev hwarn
    · split at hw
      · simp at hw
      · obtain ⟨deny, -, rfl⟩ := List.mem_map.mp hw
        exact absurd hsev hwarn
  · intro h
    obtain ⟨hempty, hauth⟩ := h
    refine ⟨⟨.error, some i, cstr "rule grants ALL commands to ALL users with NOPASSWD"⟩, ?_, rfl⟩
    simp [lintRule, huser, hempty, hauth]

theorem reportsError_iff {policy : Policy} {pre post : List Rule} {r : Rule}
    (hrules : policy.rules = pre ++ r :: post) (huser : r.user = some (cstr "*")) :
    ReportsError policy pre.length ↔ r.commands = [] ∧ r.requireAuth = false := by
  have hlint := @lintRule_error_iff pre.length r post huser
  rw [← hlint, ReportsError]
  constructor
  · intro ⟨w, hw, hsev, hindex⟩
    exact ⟨w, (mem_lintPolicy_iff hrules hindex).mp hw, hsev⟩
  · intro ⟨w, hw, hsev⟩
    have hindex := lintRule_index hw
    exact ⟨w, (mem_lintPolicy_iff hrules hindex).mpr hw, hsev, hindex⟩

/-! ### The exit status -/

/-- The print loop counts the errors. -/
theorem printWarnings_returns {ws : List LintWarning} {errors n : Nat} {tr : Trace}
    (h : Returns (printWarnings ws errors) tr n) :
    n = errors + (ws.filter (fun w => decide (w.severity = .error))).length := by
  induction ws generalizing errors tr with
  | nil =>
      obtain ⟨-, rfl⟩ := returns_pure_iff.mp h
      simp
  | cons w ws ih =>
      rw [printWarnings] at h
      obtain ⟨-, tr₁, -, -, -, h⟩ := returns_bind_iff.mp h
      obtain ⟨-, tr₂, -, -, -, h⟩ := returns_bind_iff.mp h
      obtain ⟨-, tr₃, -, -, -, h⟩ := returns_bind_iff.mp h
      obtain ⟨-, tr₄, -, -, -, h⟩ := returns_bind_iff.mp h
      rw [ih h]
      by_cases hsev : w.severity = .error
      · simp [hsev]
        omega
      · simp [hsev]

/-- The checking mode exits with `1` when the linter reports an error, else with `0`. -/
theorem checkPolicy_returns {policy : Policy} {tr : Trace} {code : Int}
    (h : Returns (checkPolicy policy) tr code) :
    code = if ∃ w ∈ lintPolicy policy, w.severity = .error then 1 else 0 := by
  rw [checkPolicy] at h
  obtain ⟨tr₁, tr₂, n, -, hprint, h⟩ := returns_bind_iff.mp h
  obtain ⟨-, tr₃, -, -, -, h⟩ := returns_bind_iff.mp h
  have hn := printWarnings_returns hprint
  rw [Nat.zero_add] at hn
  have hpos : 0 < n ↔ ∃ w ∈ lintPolicy policy, w.severity = .error := by
    rw [hn, List.length_pos_iff_exists_mem]
    simp
  by_cases herr : 0 < n
  · rw [if_pos herr] at h
    rw [if_pos (hpos.mp herr)]
    exact (returns_pure_iff.mp h).2
  · rw [if_neg herr] at h
    rw [if_neg (fun hex => herr (hpos.mpr hex))]
    exact (returns_pure_iff.mp h).2

/-! ### The worst case and the linter -/

/-- The linter catches the rule behind `pre` if it is the worst case: it reports an error about
it, and the checking mode does not exit with `0`. -/
def WorstCaseCaught (policy : Policy) (pre : List Rule) (r : Rule) : Prop :=
  WorstCase policy.defaults r →
    ReportsError policy pre.length ∧
    ∀ tr code, Returns (checkPolicy policy) tr code → code ≠ 0

/-- **When the worst case is caught.** A rule for everybody is caught exactly when it has the
spelling the linter looks for, or is not the worst case at all. -/
theorem lintPolicy_worstCase_iff {policy : Policy} {pre post : List Rule} {r : Rule}
    (hrules : policy.rules = pre ++ r :: post) (huser : r.user = some (cstr "*")) :
    WorstCaseCaught policy pre r ↔
      (r.GrantsAll → r.Unasked policy.defaults → r.commands = [] ∧ r.requireAuth = false) := by
  rw [WorstCaseCaught, worstCase_iff huser, reportsError_iff hrules huser]
  constructor
  · intro hcaught hgrants hfree
    exact (hcaught ⟨hgrants, hfree⟩).1
  · intro hspelled ⟨hgrants, hfree⟩
    have hspelling := hspelled hgrants hfree
    refine ⟨hspelling, ?_⟩
    intro tr code hrun
    obtain ⟨w, hw, hsev, -⟩ := (reportsError_iff hrules huser).mpr hspelling
    rw [checkPolicy_returns hrun, if_pos ⟨w, hw, hsev⟩]
    decide

/-- The grant of the documentation, in front of another rule: it is caught. -/
theorem lintPolicy_worstCase_empty :
    WorstCaseCaught
      ⟨defaultsNew, [{ ruleNew with user := some (cstr "al") },
        { ruleNew with user := some (cstr "*"), requireAuth := false }]⟩
      [{ ruleNew with user := some (cstr "al") }]
      { ruleNew with user := some (cstr "*"), requireAuth := false } :=
  (lintPolicy_worstCase_iff rfl rfl).mpr (fun _ _ => ⟨rfl, rfl⟩)

/-- The same grant, spelled with the word for it. -/
def allToAll : Rule :=
  { ruleNew with user := some (cstr "*"), commands := [cstr "ALL"], requireAuth := false }

/-- **The spelled-out worst case passes.** With `commands = ["ALL"]` the linter has a warning
only. -/
theorem lintPolicy_worstCase_missed : ¬ WorstCaseCaught ⟨defaultsNew, [allToAll]⟩ [] allToAll := by
  intro hcaught
  have hworst : WorstCase defaultsNew allToAll :=
    (worstCase_iff rfl).mpr ⟨⟨rfl, Or.inr (Or.inl (by simp [allToAll]))⟩, Or.inl rfl⟩
  have hrules : (⟨defaultsNew, [allToAll]⟩ : Policy).rules = [] ++ allToAll :: [] := rfl
  have hspelling := (reportsError_iff hrules rfl).mp (hcaught hworst).1
  simp [allToAll] at hspelling

end Shakti
