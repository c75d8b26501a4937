import Shakti.Policy.LintReports
import Shakti.Policy.Matching

/-!
# Shakti.Policy.Overlap

Deny patterns the linter calls unreachable.

The linter asks whether two patterns overlap by giving one of them to the matcher as if it
were a command. That finds a command both match, but not every one.

* `PatternsMeet` — the overlap of two patterns, decided on their texts: one of them, read
  as a command, matches the other, or one is a directory and the other a name, of which a
  path can be made. `patternsMeet_iff` says that this is exact.
* `OnlyDeny` — a request that the deny pattern alone stops, and that later rules grant.
* `lintPolicy_unreachable_iff` — when the report about a deny pattern is true.
-/

namespace Shakti

open FirstMatch

/-! ### The overlap of two patterns -/

/-- The binaries of the directory `p` include one of the name `b`. -/
def DirectoryNames (p b : CStr) : Prop :=
  ([47, 42] <:+ p.bytes ∧ 32 ∉ p.bytes) ∧ 47 ∉ b.bytes ∧ 32 ∉ b.bytes

instance (p b : CStr) : Decidable (DirectoryNames p b) :=
  inferInstanceAs (Decidable (_ ∧ _))

/-- Some command matches both patterns, as their texts tell. -/
def PatternsMeet (d a : CStr) : Prop :=
  (commandMatches d a = true ∨ commandMatches a d = true) ∨
    (DirectoryNames d a ∨ DirectoryNames a d)

instance (d a : CStr) : Decidable (PatternsMeet d a) :=
  inferInstanceAs (Decidable (_ ∨ _))

theorem PatternsMeet.symm {d a : CStr} (h : PatternsMeet d a) : PatternsMeet a d :=
  Or.imp Or.symm Or.symm h

section Pair

variable {c d a : CStr}

/-- The name in the directory is a command that both match. -/
theorem DirectoryNames.exists_command (h : DirectoryNames d a) :
    ∃ c, commandMatches c d = true ∧ commandMatches c a = true := by
  obtain ⟨⟨⟨dir, hbytes⟩, hspace⟩, hslash, hspace'⟩ := h
  have hdir : d.IsDirectory dir := hbytes.symm
  simp only [← hbytes, List.mem_append, not_or] at hspace
  have hnul : (0 : UInt8) ∉ dir ++ 47 :: a.bytes := by
    have hd : (0 : UInt8) ∉ dir ++ [47, 42] := hdir ▸ d.noNul
    have ha := a.noNul
    simp only [List.mem_append, List.mem_cons] at hd ⊢
    tauto
  have hbin : binPortion ⟨dir ++ 47 :: a.bytes, hnul⟩ = dir ++ 47 :: a.bytes := by
    refine List.takeWhile_eq_self_iff.mpr ?_
    intro x hx
    have hne : x ≠ 32 := by
      rintro rfl
      simp only [List.mem_append, List.mem_cons] at hx
      simp [hspace.1, hspace'] at hx
    simpa using hne
  refine ⟨⟨dir ++ 47 :: a.bytes, hnul⟩, ?_, ?_⟩
  · rw [commandMatches_directory hdir, hbin]
    exact Or.inr ⟨a.bytes, rfl, hslash⟩
  · have hargs : ¬ a.EndsWithArgs := fun hsuffix => hspace' (hsuffix.subset (by simp))
    have hnotDir : ¬ [47, 42] <:+ a.bytes := fun hsuffix => hslash (hsuffix.subset (by simp))
    rw [commandMatches_iff]
    refine .basename hargs hnotDir hslash (Or.inr ?_)
    rw [hbin]
    exact List.suffix_append dir _

/-- The pattern of arguments, read as a command, has the binary of the commands it covers. -/
theorem binPortion_args {q : Bytes} (hd : d.bytes = q ++ [32, 42])
    (hc : c.bytes = q ∨ q ++ [32] <+: c.bytes) : binPortion c = binPortion d := by
  rw [binPortion, binPortion, hd, Scan.takeWhile_ne_append_cons]
  rcases hc with hc | ⟨rest, hc⟩
  · rw [hc]
  · rw [← hc, List.append_assoc, List.singleton_append, Scan.takeWhile_ne_append_cons]

theorem notMem_binPortion (c : CStr) : (32 : UInt8) ∉ binPortion c := by
  intro h
  simpa using List.mem_takeWhile_imp h

/-- An argument pattern and another that covers a command of it. -/
theorem PatternsMeet.of_args {q : Bytes} (hd : d.bytes = q ++ [32, 42])
    (hc : c.bytes = q ∨ q ++ [32] <+: c.bytes) (ha : Covers c a) : PatternsMeet d a := by
  have hbin := binPortion_args hd hc
  rw [PatternsMeet, commandMatches_iff, commandMatches_iff]
  cases ha with
  | wildcard h => exact Or.inl (Or.inl (.wildcard h))
  | exact h =>
      subst h
      exact Or.inl (Or.inr (.args q hd hc))
  | args q' hq' hc' =>
      have hd' : q ++ [32] <+: d.bytes := ⟨[42], by rw [hd]; simp⟩
      have ha' : q' ++ [32] <+: a.bytes := ⟨[42], by rw [hq']; simp⟩
      -- Of the two texts in front of the `*`, one begins with the other.
      rcases hc with rfl | hc
      · rcases hc' with rfl | hc'
        · exact Or.inl (Or.inl (.args _ hq' (Or.inr hd')))
        · have hprefix : q' ++ [32] <+: d.bytes :=
            (hc'.trans (List.prefix_append _ [32])).trans hd'
          exact Or.inl (Or.inl (.args _ hq' (Or.inr hprefix)))
      · rcases hc' with rfl | hc'
        · have hprefix : q ++ [32] <+: a.bytes :=
            (hc.trans (List.prefix_append _ [32])).trans ha'
          exact Or.inl (Or.inr (.args _ hd (Or.inr hprefix)))
        · rcases List.prefix_or_prefix_of_prefix hc hc' with h | h
          · exact Or.inl (Or.inr (.args _ hd (Or.inr (h.trans ha'))))
          · exact Or.inl (Or.inl (.args _ hq' (Or.inr (h.trans hd'))))
  | directory dir base hargs hdir hpath hbase =>
      exact Or.inl (Or.inl (.directory dir base hargs hdir (hbin ▸ hpath) hbase))
  | basename hargs hnotDir hslash hname =>
      exact Or.inl (Or.inl (.basename hargs hnotDir hslash (hbin ▸ hname)))

/-- A directory and another pattern that covers a binary of it. -/
theorem PatternsMeet.of_directory {dir base : Bytes} (hd : d.IsDirectory dir)
    (hc : binPortion c = dir ++ 47 :: base) (hbase : 47 ∉ base) (hcd : Covers c d)
    (ha : Covers c a) : PatternsMeet d a := by
  cases ha with
  | wildcard h => exact Or.inl (Or.inl ((commandMatches_iff _ _).mpr (.wildcard h)))
  | exact h =>
      subst h
      exact Or.inl (Or.inr ((commandMatches_iff _ _).mpr hcd))
  | args q hq hc' => exact (PatternsMeet.of_args hq hc' hcd).symm
  | directory dir' base' hargs hdir hpath hbase' =>
      obtain ⟨rfl, -⟩ := (append_cons_inj_of_notMem hbase hbase').mp (hc.symm.trans hpath)
      have heq : d = a := CStr.ext (hd.trans hdir.symm)
      exact Or.inl (Or.inl ((commandMatches_iff _ _).mpr (.exact heq)))
  | basename hargs hnotDir hslash hname =>
      have hspace := notMem_binPortion c
      rcases hname with hname | ⟨pre, hname⟩
      · rw [← hname, hc] at hslash
        simp at hslash
      · obtain ⟨-, rfl⟩ := (append_cons_inj_of_notMem hbase hslash).mp (hc.symm.trans hname.symm)
        simp only [hc, List.mem_append, List.mem_cons, not_or] at hspace
        refine Or.inr (Or.inl ⟨⟨⟨dir, hd.symm⟩, ?_⟩, hslash, hspace.2.2⟩)
        rw [show d.bytes = _ from hd]
        simp [hspace.1]

/-- A name and another pattern that covers a binary of it. -/
theorem PatternsMeet.of_basename (hargs : ¬ d.EndsWithArgs) (hnotDir : ¬ [47, 42] <:+ d.bytes)
    (hslash : 47 ∉ d.bytes) (hname : binPortion c = d.bytes ∨ 47 :: d.bytes <:+ binPortion c)
    (ha : Covers c a) : PatternsMeet d a := by
  have hcd : Covers c d := .basename hargs hnotDir hslash hname
  cases ha with
  | wildcard h => exact Or.inl (Or.inl ((commandMatches_iff _ _).mpr (.wildcard h)))
  | exact h =>
      subst h
      exact Or.inl (Or.inr ((commandMatches_iff _ _).mpr hcd))
  | args q hq hc' => exact (PatternsMeet.of_args hq hc' hcd).symm
  | directory dir base _ hdir hpath hbase =>
      exact (PatternsMeet.of_directory hdir hpath hbase (.directory dir base ‹_› hdir hpath hbase)
        hcd).symm
  | basename _ _ hslash' hname' =>
      have heq : d.bytes = a.bytes := by
        rcases hname with hname | ⟨pre, hname⟩
        · rcases hname' with hname' | ⟨pre', hname'⟩
          · exact hname.symm.trans hname'
          · rw [← hname, ← hname'] at hslash
            simp at hslash
        · rcases hname' with hname' | ⟨pre', hname'⟩
          · rw [← hname', ← hname] at hslash'
            simp at hslash'
          · exact ((append_cons_inj_of_notMem hslash hslash').mp (hname.trans hname'.symm)).2
      exact Or.inl (Or.inl ((commandMatches_iff _ _).mpr (.exact (CStr.ext heq))))

/-- **Two patterns overlap** exactly when their texts meet. -/
theorem patternsMeet_iff (d a : CStr) :
    (∃ c, commandMatches c d = true ∧ commandMatches c a = true) ↔ PatternsMeet d a := by
  constructor
  · intro ⟨c, hd, ha⟩
    rw [commandMatches_iff] at hd ha
    cases hd with
    | wildcard h => exact Or.inl (Or.inr ((commandMatches_iff _ _).mpr (.wildcard h)))
    | exact h =>
        subst h
        exact Or.inl (Or.inl ((commandMatches_iff _ _).mpr ha))
    | args q hq hc => exact .of_args hq hc ha
    | directory dir base hargs hdir hpath hbase =>
        exact .of_directory hdir hpath hbase (.directory dir base hargs hdir hpath hbase) ha
    | basename hargs hnotDir hslash hname => exact .of_basename hargs hnotDir hslash hname ha
  · have hself : ∀ p, commandMatches p p = true :=
      fun p => (commandMatches_iff p p).mpr (.exact rfl)
    rintro ((h | h) | (h | h))
    · exact ⟨d, hself d, h⟩
    · exact ⟨a, h, hself a⟩
    · exact h.exists_command
    · obtain ⟨c, ha, hd⟩ := h.exists_command
      exact ⟨c, hd, ha⟩

end Pair

/-! ### What the linter reports -/

/-- The linter reports the deny pattern: the rule has commands, and the pattern passes the
test for an overlap with none of them. -/
def Rule.ReportsDeny (r : Rule) (d : CStr) : Prop :=
  d ∈ r.denyCommands ∧ r.commands ≠ [] ∧ denyOverlaps d r.commands = false

/-- The linter warns of a rule when it reports one of its deny patterns. -/
theorem unreachableWarning_mem_iff {i : Nat} {r : Rule} {later : List Rule} :
    unreachableWarning i ∈ lintRule i r later ↔ ∃ d, r.ReportsDeny d := by
  have hstar : cstr "deny_commands pattern doesn't overlap any commands entry — may be unreachable"
      ≠ cstr "rule grants all users (*) NOPASSWD access — verify intended" := by decide
  have hany : cstr "deny_commands pattern doesn't overlap any commands entry — may be unreachable"
      ≠ cstr "rule allows running as any user with all commands" := by decide
  have hdup : cstr "deny_commands pattern doesn't overlap any commands entry — may be unreachable"
      ≠ cstr "duplicate user/group/run_as as a later rule — only the first matches" := by
    decide
  by_cases hempty : r.commands = [] <;>
    simp [lintRule, unreachableWarning, Rule.ReportsDeny, hempty, hstar, hany, hdup]

/-! ### Deleting a deny pattern -/

/-- The rule without the deny pattern. -/
def Rule.withoutDeny (r : Rule) (d : CStr) : Rule :=
  { r with denyCommands := r.denyCommands.filter (· ≠ d) }

/-- The request comes to the rule, whose deny pattern `d` is the only one to stop it, and the
rules behind it grant it. -/
structure OnlyDeny (pre : List Rule) (r : Rule) (post : List Rule) (d caller : CStr)
    (groups : Option (List CStr)) (target command : CStr) : Prop where
  passed : ∀ q ∈ pre, ¬ q.Deciding caller groups target command
  applicable : r.Applicable caller groups target
  denied : commandMatches command d = true
  only : ¬ MatchesSome command (r.withoutDeny d).denyCommands
  granted : Grants (fun q => q.Deciding caller groups target command)
    (fun q => ¬ MatchesSome command q.denyCommands) post

section Delete

variable {pre post : List Rule} {r : Rule} {d caller : CStr} {groups : Option (List CStr)}
  {target command : CStr}

theorem withoutDeny_applicable_iff :
    (r.withoutDeny d).Applicable caller groups target ↔ r.Applicable caller groups target :=
  Iff.rfl

/-- What the rule denies: what it denies without the pattern, and what the pattern matches. -/
theorem matchesSome_withoutDeny (hd : d ∈ r.denyCommands) :
    MatchesSome command r.denyCommands ↔
      MatchesSome command (r.withoutDeny d).denyCommands ∨ commandMatches command d = true := by
  constructor
  · intro ⟨p, hp, hmatch⟩
    by_cases hpd : p = d
    · exact Or.inr (hpd ▸ hmatch)
    · exact Or.inl ⟨p, List.mem_filter.mpr ⟨hp, by simpa using hpd⟩, hmatch⟩
  · rintro (⟨p, hp, hmatch⟩ | hmatch)
    · exact ⟨p, (List.mem_filter.mp hp).1, hmatch⟩
    · exact ⟨d, hd, hmatch⟩

/-- The rule is decisive about what it denies, and without the pattern about what its commands
or its other patterns match. -/
theorem withoutDeny_decisive_iff (hcommands : r.commands ≠ []) :
    (r.withoutDeny d).Decisive command ↔
      MatchesSome command (r.withoutDeny d).denyCommands ∨ MatchesSome command r.commands := by
  rw [Rule.Decisive]
  exact or_congr_right (or_iff_right hcommands)

/-- Behind the rules that pass the request over, the rule without the pattern grants what it
granted, unless the request is reopened. -/
theorem grants_withoutDeny_cons_iff (hd : d ∈ r.denyCommands) (hcommands : r.commands ≠ [])
    (hdisjoint : commandMatches command d = true → ¬ MatchesSome command r.commands)
    (hpre : ∀ q ∈ pre, ¬ q.Deciding caller groups target command) :
    (Grants (fun q => q.Deciding caller groups target command)
        (fun q => ¬ MatchesSome command q.denyCommands) (r.withoutDeny d :: post) ↔
      Grants (fun q => q.Deciding caller groups target command)
        (fun q => ¬ MatchesSome command q.denyCommands) (r :: post)) ↔
      ¬ OnlyDeny pre r post d caller groups target command := by
  rw [grants_cons_iff, grants_cons_iff, matchesSome_withoutDeny hd]
  simp only [Rule.Deciding, withoutDeny_applicable_iff]
  by_cases happ : r.Applicable caller groups target
  case neg =>
    have hno : ¬ OnlyDeny pre r post d caller groups target command := fun h => happ h.applicable
    simp [happ, hno]
  by_cases hmatch : commandMatches command d = true
  case neg =>
    have hno : ¬ OnlyDeny pre r post d caller groups target command := fun h => hmatch h.denied
    have hsame : r.Decisive command ↔ (r.withoutDeny d).Decisive command := by
      rw [Rule.Decisive, Rule.Decisive, matchesSome_withoutDeny hd, or_iff_left hmatch]
      rfl
    simp [hmatch, hno, hsame]
  have hdecisive : r.Decisive command := Or.inl ⟨d, hd, hmatch⟩
  by_cases honly : MatchesSome command (r.withoutDeny d).denyCommands
  · have hno : ¬ OnlyDeny pre r post d caller groups target command := fun h => h.only honly
    have hdecisive' : (r.withoutDeny d).Decisive command := Or.inl honly
    simp [happ, hdecisive, hdecisive', honly, hno]
  · have hpassed : ¬ (r.withoutDeny d).Decisive command := by
      rw [withoutDeny_decisive_iff hcommands, or_iff_right honly]
      exact hdisjoint hmatch
    have hopen : OnlyDeny pre r post d caller groups target command ↔
        Grants (fun q => q.Deciding caller groups target command)
          (fun q => ¬ MatchesSome command q.denyCommands) post :=
      ⟨fun h => h.granted, fun h => ⟨hpre, happ, hmatch, honly, h⟩⟩
    rw [hopen]
    simp [happ, hdecisive, hpassed, hmatch, Rule.Deciding]

end Delete

/-- The report about a deny pattern is true: no command matches it and a command pattern of
the rule, and deleting it changes the status of no request. -/
structure DenyUnreachable (defaults : Defaults) (pre : List Rule) (r : Rule) (post : List Rule)
    (d : CStr) : Prop where
  disjoint : ∀ command, commandMatches command d = true →
    ∀ a ∈ r.commands, commandMatches command a = false
  deletable : ∀ caller groups target command,
    (checkAuthorization ⟨defaults, pre ++ r.withoutDeny d :: post⟩ caller groups target
        command).allowed
      = (checkAuthorization ⟨defaults, pre ++ r :: post⟩ caller groups target command).allowed

/-- No command matches both patterns, for every command pattern of the rule. -/
theorem disjoint_iff {r : Rule} {d : CStr} :
    (∀ command, commandMatches command d = true →
      ∀ a ∈ r.commands, commandMatches command a = false) ↔
      ∀ a ∈ r.commands, ¬ PatternsMeet d a := by
  simp only [← patternsMeet_iff, ← Bool.not_eq_true]
  exact ⟨fun h a ha ⟨c, hc, hca⟩ => h c hc a ha hca, fun h c hc a ha hca => h a ha ⟨c, hc, hca⟩⟩

/-- **Unreachable denies.** The report about a deny pattern is true exactly when its text
meets that of no command pattern of the rule, and it is not all that stands between a
request and a later rule that grants it. -/
theorem lintPolicy_unreachable_iff (defaults : Defaults) (pre : List Rule) (r : Rule)
    (post : List Rule) (d : CStr) (hreport : r.ReportsDeny d) :
    unreachableWarning pre.length ∈ lintPolicy ⟨defaults, pre ++ r :: post⟩ ∧
    (DenyUnreachable defaults pre r post d ↔
      (∀ a ∈ r.commands, ¬ PatternsMeet d a) ∧
      ∀ caller groups target command, ¬ OnlyDeny pre r post d caller groups target command) := by
  obtain ⟨hd, hcommands, hoverlaps⟩ := hreport
  constructor
  · rw [mem_lintPolicy_iff rfl rfl, unreachableWarning_mem_iff]
    exact ⟨d, hd, hcommands, hoverlaps⟩
  have hrequest : (∀ a ∈ r.commands, ¬ PatternsMeet d a) → ∀ caller groups target command,
      ((checkAuthorization ⟨defaults, pre ++ r.withoutDeny d :: post⟩ caller groups target
          command).allowed
        = (checkAuthorization ⟨defaults, pre ++ r :: post⟩ caller groups target command).allowed ↔
      ¬ OnlyDeny pre r post d caller groups target command) := by
    intro hmeet caller groups target command
    have hdisjoint : commandMatches command d = true → ¬ MatchesSome command r.commands := by
      intro hmatch ⟨a, ha, hca⟩
      rw [disjoint_iff.mpr hmeet command hmatch a ha] at hca
      contradiction
    rw [Bool.eq_iff_iff, allowed_iff_grants, allowed_iff_grants]
    -- A rule before that decides hides both rules, and taking the deny out changes nothing.
    by_cases hpre : ∀ q ∈ pre, ¬ q.Deciding caller groups target command
    · rw [grants_append_iff hpre, grants_append_iff hpre,
        grants_withoutDeny_cons_iff hd hcommands hdisjoint hpre]
    · have hsome : ∃ q ∈ pre, q.Deciding caller groups target command := by
        push Not at hpre
        exact hpre
      exact iff_of_true (grants_append_of_decided hsome) (fun h => hpre h.passed)
  constructor
  · intro htrue
    have hmeet := disjoint_iff.mp htrue.disjoint
    exact ⟨hmeet, fun caller groups target command =>
      (hrequest hmeet caller groups target command).mp
        (htrue.deletable caller groups target command)⟩
  · intro ⟨hmeet, hopen⟩
    exact ⟨disjoint_iff.mpr hmeet, fun caller groups target command =>
      (hrequest hmeet caller groups target command).mpr (hopen caller groups target command)⟩

/-- A deny pattern that no command reaches: the commands list has another path, and no rule
follows. -/
theorem lintPolicy_unreachable_path :
    DenyUnreachable defaultsNew []
      { ruleNew with
        user := some (cstr "al")
        commands := [cstr "/bin/ls"]
        denyCommands := [cstr "/bin/rm"] } [] (cstr "/bin/rm") := by
  refine (lintPolicy_unreachable_iff _ _ _ _ _ ⟨?_, ?_, ?_⟩).2.mpr ⟨?_, ?_⟩
  · decide
  · decide
  · decide
  · decide
  · intro caller groups target command hopen
    exact not_grants_nil hopen.granted

/-- `al` may list, and nothing. -/
def listNothing : Rule :=
  { ruleNew with
    user := some (cstr "al")
    commands := [cstr "/bin/ls"]
    denyCommands := [cstr "*"] }

/-- **A report can be false.** The pattern `*` does not match `/bin/ls` as a pattern, but
`/bin/ls` matches it. -/
theorem lintPolicy_unreachable_false :
    listNothing.ReportsDeny (cstr "*") ∧
      ¬ DenyUnreachable defaultsNew [] listNothing [] (cstr "*") := by
  constructor
  · exact ⟨by decide, by decide, by decide⟩
  · intro htrue
    have hno := htrue.disjoint (cstr "/bin/ls") (by decide) (cstr "/bin/ls")
      (by decide)
    revert hno
    decide

end Shakti
