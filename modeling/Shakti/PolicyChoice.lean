import Shakti.ExecGate
import Shakti.Policy.FirstMatch

/-!
# Shakti.PolicyChoice

Whose policy a run obeys.

`-p`/`--policy` is open to every caller. The file it names passes the same test as the
default policy (regular, root's, not world-writable), and nothing more: a run is bound
to the policy loaded from the path its own words name (`shkRun_namedPolicy`), which
need not be one the administrator wrote as a policy (`shkRun_logAsPolicy`).
-/

namespace Shakti

open Effects Effects.Prog

/-! ### Policies of a machine at rest -/

/-- On the machine `v`, `load_policy(path)` delivers `policy`. -/
def FileView.Loads (v : FileView) (path : CStr) (policy : Policy) : Prop :=
  ∃ tr, (∀ e ∈ tr, v.Answers e) ∧ Returns (loadPolicy path) tr (some policy)

/-- What a run on the machine loaded is what the machine loads. -/
theorem FileView.loads_of_did {v : FileView} {tr : Trace} (hv : ∀ e ∈ tr, v.Answers e)
    {path : CStr} {policy : Policy} (h : Did tr (loadPolicy path) (some policy)) :
    v.Loads path policy := by
  obtain ⟨mid, hmid, hload⟩ := h
  exact ⟨mid, fun e he => hv e (hmid.subset he), hload⟩

/-- A policy is loaded from a trusted file only. -/
theorem FileView.Loads.trusted {v : FileView} {path : CStr} {policy : Policy}
    (h : v.Loads path policy) : ∃ st, v.stat path = some st ∧ policyFileTrusted st = true := by
  obtain ⟨tr, hv, hload⟩ := h
  obtain ⟨st, tr', rfl, hrest⟩ := returns_ask_bind_iff.mp hload
  have hstat : st = v.stat path := hv ⟨.stat path, st⟩ (List.mem_cons_self ..)
  cases st with
  | none => simpa using (returns_pure_iff.mp hrest).2
  | some st =>
      dsimp only at hrest
      split at hrest
      case isTrue htrusted => exact ⟨st, hstat.symm, htrusted⟩
      case isFalse => simpa using (returns_pure_iff.mp hrest).2

/-- The machine determines the policy. -/
theorem FileView.Loads.unique {v : FileView} {path : CStr} {policy policy' : Policy}
    (h : v.Loads path policy) (h' : v.Loads path policy') : policy = policy' := by
  obtain ⟨tr, hv, hload⟩ := h
  obtain ⟨tr', hv', hload'⟩ := h'
  exact Option.some_inj.mp (v.returns_unique (fileOnly_loadPolicy path) hv hv' hload hload')

/-! ### The path on the command line -/

/-- Some `-p` or `--policy` among the words is followed by `path`. -/
def NamesPolicy (words : List CStr) (path : CStr) : Prop :=
  ∃ opt, (opt = cstr "-p" ∨ opt = cstr "--policy") ∧ [opt, path] <:+: words

theorem NamesPolicy.cons {words : List CStr} {path : CStr} (h : NamesPolicy words path)
    (w : CStr) : NamesPolicy (w :: words) path := by
  obtain ⟨opt, hopt, hsub⟩ := h
  exact ⟨opt, hopt, hsub.trans (List.infix_cons List.infix_rfl)⟩

/-- The words leave the policy path alone, or one of their options names it. -/
theorem returns_parseCliLoop {cli cli' : CliArgs} {words : List CStr} {tr : Trace}
    (h : Returns (parseCliLoop cli words) tr (some cli')) :
    cli'.policy = cli.policy ∨ NamesPolicy words cli'.policy := by
  fun_induction parseCliLoop cli words
  case case1 =>
    obtain ⟨-, heq⟩ := returns_pure_iff.mp h
    cases heq
    exact Or.inl rfl
  case case2 | case4 =>
    -- An option without its value.
    simpa using (returns_pure_iff.mp h).2
  case case3 ih => exact (ih h).imp_right (fun hn => (hn.cons _).cons _)
  case case5 opt _ hopt p rest ih =>
    rcases ih h with hthis | hlater
    · rw [hthis]
      exact Or.inr ⟨opt, hopt, (List.prefix_append [opt, p] rest).isInfix⟩
    · exact Or.inr ((hlater.cons _).cons _)
  case case6 ih | case7 ih | case8 ih | case9 ih | case10 ih =>
    exact (ih h).imp_right (·.cons _)
  case case11 | case13 =>
    -- The command starts here.
    obtain ⟨-, heq⟩ := returns_pure_iff.mp h
    cases heq
    exact Or.inl rfl
  case case12 =>
    obtain ⟨t₁, tr₁, _, rfl, -, h⟩ := returns_bind_iff.mp h
    obtain ⟨t₂, tr₂, _, rfl, -, h⟩ := returns_bind_iff.mp h
    obtain ⟨t₃, tr₃, _, rfl, -, h⟩ := returns_bind_iff.mp h
    simpa using (returns_pure_iff.mp h).2

theorem returns_parseCliFrom {args : List CStr} {cli : CliArgs} {tr : Trace}
    (h : Returns (parseCliFrom args) tr (some cli)) :
    cli.policy = defaultPolicyPath ∨ NamesPolicy args cli.policy := by
  rcases returns_parseCliLoop h with hdefault | ⟨opt, hopt, hsub⟩
  · exact Or.inl hdefault
  · exact Or.inr ⟨opt, hopt, hsub.trans (List.drop_suffix 1 args).isInfix⟩

/-! ### The policy a run obeys -/

/-- What a run that executes its command owes to the policy its words name. -/
structure Obeys (v : FileView) (args : List CStr) (cli : CliArgs) (caller : CStr)
    (groups : List CStr) (policy : Policy) (argv : List CStr) (tr : Trace) : Prop where
  parsed : Did tr (parseCliFrom args) (some cli)
  /-- The default path, or one named with `-p`. -/
  named : cli.policy = defaultPolicyPath ∨ NamesPolicy args cli.policy
  callerFound : ∃ uid gid, Did tr (sys .getuid) uid ∧
    Did tr (identityLookupUid uid) (.found (caller, gid))
  groupsFound : ∃ nss nss', Did tr (identityLookupGroups nss caller) (groups, nss')
  /-- The file at the path is regular, root's and not world-writable. -/
  trusted : ∃ st, v.stat cli.policy = some st ∧ policyFileTrusted st = true
  loaded : v.Loads cli.policy policy
  allowed : (checkAuthorization policy caller (some groups) cli.target
    (shkJoinCommand argv)).allowed = true

/-- **The policy of a run.** On a machine whose files do not change, a run that is about
to execute a command is allowed to by the policy of the path its words name, which is
the default path when no `-p` or `--policy` is among them. -/
theorem shkRun_namedPolicy {v : FileView} {fuel : Nat} {args : List CStr} {site : ExecSite}
    {tr : Trace} {path : CStr} {argv env : List CStr} (hsite : site ≠ .suAuthenticate)
    (hv : ∀ e ∈ tr, v.Answers e)
    (h : Issues (shkRun fuel args) tr (.execve site path argv env)) :
    ∃ cli caller groups policy, Obeys v args cli caller groups policy argv tr ∧
      ((∀ opt ∈ args, opt ≠ cstr "-p" ∧ opt ≠ cstr "--policy") →
        cli.policy = defaultPolicyPath) := by
  obtain ⟨cli, uid, callerGid, caller, policy, nss, nss', groups, tr₁, tr₂, rfl, hadm, h⟩ :=
    issues_shkRun hsite h
  obtain ⟨eval, authz, capMask, targetUid, targetGid, happ, -⟩ := issues_runRequest hsite h
  obtain ⟨gid, hcaller⟩ := hadm.callerFound
  obtain ⟨mid, -, hcli⟩ := hadm.parsed
  have hnamed := returns_parseCliFrom hcli
  have hload : v.Loads cli.policy policy :=
    FileView.loads_of_did hv (hadm.policyLoaded.left tr₂)
  refine ⟨cli, caller, groups, policy, {
    parsed := hadm.parsed.left tr₂
    named := hnamed
    callerFound := ⟨uid, gid, hadm.uidRead.left tr₂, hcaller.left tr₂⟩
    groupsFound := ⟨nss, nss', hadm.groupsFound.left tr₂⟩
    trusted := hload.trusted
    loaded := hload
    allowed := happ.authz_eq ▸ happ.allowed }, fun hno => hnamed.resolve_right ?_⟩
  rintro ⟨opt, hopt, hsub⟩
  have hne := hno opt (hsub.subset (List.mem_cons_self ..))
  exact hopt.elim hne.1 hne.2

/-- A machine whose policy grants `id` to root only. A log of root's holds a line its
writer was made to log. -/
def logMachine : FileView := rootFiles
  [(cstr "/etc/passwd", 420, twoUsers),
    (defaultPolicyPath, 384, utf8 "[[rules]]\nuser=\"root\"\ncommands=[\"/bin/id\"]\n"),
    (cstr "/var/log/web.log", 420,
      utf8 "GET /\n[[rules]]\nuser=\"al\"\nrequire_auth=false\nGET /x\n"),
    (cstr "/bin/sh", 493, [])]

/-- The words that name the log as the policy. -/
def logArgs : List CStr := ["shakti", "-p", "/var/log/web.log", "/bin/sh"].map cstr

/-- The run of an ordinary user with these words. -/
def logRun : Trace := (play logMachine.machine ⟨1000, 1000, []⟩ (shkRun 1 logArgs)).1

theorem logRun_issues : Issues (shkRun 1 logArgs) logRun
    (SysCall.execve .execTarget (cstr "/bin/sh") [cstr "/bin/sh"]
      (fixedEnv ⟨cstr "al", 1000, 1000, cstr "root", cstr "/root", cstr "/bin/sh"⟩)) :=
  play_issues (by decide)

theorem shkRun_namedPolicy_log :
    ∃ cli caller groups policy,
      Obeys logMachine logArgs cli caller groups policy [cstr "/bin/sh"] logRun ∧
      ((∀ opt ∈ logArgs, opt ≠ cstr "-p" ∧ opt ≠ cstr "--policy") →
        cli.policy = defaultPolicyPath) :=
  shkRun_namedPolicy (by decide) (logMachine.machine_answers _ _) logRun_issues

/-- The real uid a run was started with: the answer to its first `getuid`. -/
def realUid (tr : Trace) : Option Nat :=
  tr.findSome? fun
    | ⟨.getuid, uid⟩ => some uid
    | _ => none

/-- The default policy of the machine, as parsed. -/
def logMachinePolicy : Policy where
  defaults := defaultsNew
  rules := [{ ruleNew with user := some (cstr "root"), commands := [cstr "/bin/id"] }]

theorem logMachine_loads : logMachine.Loads defaultPolicyPath logMachinePolicy :=
  ⟨_, logMachine.machine_answers ⟨1000, 1000, []⟩ (loadPolicy defaultPolicyPath),
    play_returns (by decide)⟩

/-- Under the default policy nobody runs a shell. -/
theorem logMachinePolicy_denies (caller : CStr) (groups : Option (List CStr)) (target : CStr) :
    (checkAuthorization logMachinePolicy caller groups target
      (shkJoinCommand [cstr "/bin/sh"])).allowed = false := by
  rw [checkAuthorization_noMatch]
  · rfl
  · rintro r hr ⟨-, hdecisive⟩
    obtain rfl := List.mem_singleton.mp hr
    exact absurd hdecisive (by decide)

/-- **A caller can choose the authority.** The log of `logMachine` passes the test of a
policy file, and its user runs a shell that the default policy lets nobody run. -/
theorem shkRun_logAsPolicy :
    ¬ ∀ (v : FileView) (fuel : Nat) (args : List CStr) (site : ExecSite) (tr : Trace)
      (path : CStr) (argv env : List CStr) (uid : Nat), site ≠ .suAuthenticate →
      (∀ e ∈ tr, v.Answers e) → realUid tr = some uid → uid ≠ 0 →
      Issues (shkRun fuel args) tr (.execve site path argv env) →
      ∃ caller groups target policy, v.Loads defaultPolicyPath policy ∧
        (checkAuthorization policy caller groups target (shkJoinCommand argv)).allowed = true := by
  intro hclaim
  have hanswers : ∀ e ∈ logRun, logMachine.Answers e := logMachine.machine_answers _ _
  have huid : realUid logRun = some 1000 := by decide
  obtain ⟨caller, groups, target, policy, hload, hallow⟩ :=
    hclaim logMachine 1 logArgs _ logRun _ _ _ 1000 (by decide) hanswers huid (by decide)
      logRun_issues
  obtain rfl := hload.unique logMachine_loads
  rw [logMachinePolicy_denies] at hallow
  exact absurd hallow (by decide)

end Shakti
