import Shakti.ExecGate

/-!
# Shakti.Plan

`shk_run` in two phases: what it decides, and the hand-over to an exec path.

Every run first works out a `Plan`, which is an exit status, or a command to execute with the
logs of its session; then it carries the plan out (`shkRun_eq_plan`). The first phase neither
changes the credentials of the process nor executes the target, so that what is to hold of a run
is proved of the two phases separately. What a plan to execute rests on is `Planned`
(`planned_of_returns`).
-/

namespace Shakti

open Effects

/-- A command to execute, and how. -/
structure Handover where
  nss : NssState
  caller : CStr
  target : CStr
  req : ExecRequest
  logs : SessionLogs

/-- What a run has decided on. -/
inductive Plan
  | exit (code : Int)
  | execute (handover : Handover)

/-- Carry a plan out. -/
def Plan.run (fuel : Nat) : Plan → Sys Int
  | .exit code => pure code
  | .execute x => runExec fuel x.nss x.caller x.target x.req x.logs

/-- The plan of an authorized request. -/
def planAuthorized (nss : NssState) (policy : Policy) (caller : CStr)
    (callerUid : Nat) (target : CStr) (eval : Evaluation) (argv : List CStr) : Sys Plan := do
  let resolved := eval.resolvedCommand.getD (cstr "")
  match capsParseSet eval.capabilities with
  | none => do
      auditLog .command caller target resolved false
        (cstr "policy names an unknown capability")
      writeLine 2 (cstr "shakti: policy rule names an unknown capability; refusing to exec\n")
      pure (.exit 1)
  | some capMask => do
      let ok ← runAuth caller target resolved eval
      if !ok then pure (.exit 1)
      else do
        let user ← identityLookupUser target
        match user with
        | .found (targetUid, targetGid) => do
            let usePty := sessionNeedsPty eval.logSession callerUid targetUid
            let logs ← openLogs policy.defaults.sessionLogDir caller target resolved
              eval.logSession eval.logInput usePty
            match logs with
            | none => pure (.exit 1)
            | some logs =>
                pure (.execute
                  { nss := nss
                    caller := caller
                    target := target
                    req :=
                      { resolved := resolved
                        argv := argv
                        env := eval.environment.getD []
                        targetUser := target
                        targetUid := targetUid
                        targetGid := targetGid
                        capMask := capMask
                        seCtx := eval.selinuxContext
                        aaProf := eval.apparmorProfile }
                    logs := logs })
        | _ => do
            fileWrite 2 (utf8 "shakti: cannot resolve target user\n")
            pure (.exit 1)

/-- The plan of a request. -/
def planRequest (fuel : Nat) (nss : NssState) (cli : CliArgs) (policy : Policy) (caller : CStr)
    (callerUid callerGid : Nat) (groups : List CStr) : Sys Plan := do
  let (eval, argv) ← evaluateWithPolicy fuel ⟨cli.policy, cli.target, .interactive⟩ policy
    caller callerUid callerGid (some groups) cli.argv
  if !eval.authorized then do
    auditLog .command caller cli.target (eval.resolvedCommand.getD (cstr "")) false
      eval.errorMsg
    complain eval.errorMsg
    pure (.exit 1)
  else planAuthorized nss policy caller callerUid cli.target eval argv

/-- The plan under a loaded policy. -/
def planPolicy (fuel : Nat) (cli : CliArgs) (policy : Policy) (caller : CStr)
    (callerUid callerGid : Nat) : Sys Plan :=
  let nss := identitySetNssGroups nssInitial policy.defaults.nssGroups
  if cli.check then do
    let code ← checkPolicy policy
    pure (.exit code)
  else do
    let (status, nss) ← identityNssStatus nss
    auditNssBackend caller status
    let (groups, nss) ← identityLookupGroups nss caller
    if cli.list then do
      listPermissions policy caller (some groups)
      pure (.exit 0)
    else planRequest fuel nss cli policy caller callerUid callerGid groups

/-- The plan of a resolved caller. -/
def planModes (fuel : Nat) (cli : CliArgs) (caller : CStr) (callerUid callerGid : Nat) :
    Sys Plan :=
  if cli.invalidate then do
    let code ← runInvalidate cli caller
    pure (.exit code)
  else if !cli.check && !cli.list && cli.argv.isEmpty then do
    printUsage
    pure (.exit 1)
  else do
    let policy ← loadPolicy cli.policy
    match policy with
    | none => do
        writeLine 2 (cstr "shakti: failed to load policy\n")
        pure (.exit 1)
    | some policy => planPolicy fuel cli policy caller callerUid callerGid

/-- The plan of a command line. -/
def planRun (fuel : Nat) (args : List CStr) : Sys Plan := do
  initTracing
  let cli ← parseCliFrom args
  match cli with
  | none => do
      printUsage
      pure (.exit 1)
  | some cli =>
      if cli.help then do
        printUsage
        pure (.exit 0)
      else if cli.version then do
        fileWrite 1 shaktiVersionString.bytes
        fileWrite 1 (utf8 "\n")
        pure (.exit 0)
      else do
        let callerUid : Nat ← sys .getuid
        let callerGid : Nat ← sys .getgid
        let user ← identityLookupUid callerUid
        match user with
        | .found (caller, _) => planModes fuel cli caller callerUid callerGid
        | _ => do
            fileWrite 2 (utf8 "shakti: cannot resolve caller username\n")
            pure (.exit 1)

/-! ### The two phases -/

section Phases

open Prog

variable {α β γ : Type}

theorem seq_assoc (p : Sys α) (f : α → Sys β) (g : β → Sys γ) :
    (p >>= f) >>= g = p >>= fun a => f a >>= g := by
  induction p with
  | pure a => rfl
  | call c k ih => exact congrArg (Prog.call c) (funext ih)

theorem seq_pure (a : α) (f : α → Sys β) : (Pure.pure a : Sys α) >>= f = f a := rfl

theorem seq_pure_right (p : Sys α) : (p >>= fun a => Pure.pure a) = p := by
  induction p with
  | pure a => rfl
  | call c k ih => exact congrArg (Prog.call c) (funext ih)

theorem seq_ite (b : Prop) [Decidable b] (p q : Sys α) (f : α → Sys β) :
    (if b then p else q) >>= f = if b then p >>= f else q >>= f := by
  split
  · rfl
  · rfl

theorem planAuthorized_run (fuel : Nat) (nss : NssState) (policy : Policy) (caller : CStr)
    (callerUid : Nat) (target : CStr) (eval : Evaluation) (argv : List CStr) :
    planAuthorized nss policy caller callerUid target eval argv >>= Plan.run fuel =
      runAuthorized fuel nss policy caller callerUid target eval argv := by
  unfold planAuthorized runAuthorized
  dsimp only
  cases capsParseSet eval.capabilities with
  | none => simp only [seq_assoc, seq_pure, Plan.run]
  | some capMask =>
      simp only [seq_assoc, seq_ite, seq_pure, Plan.run]
      congr 1
      funext ok
      congr 1
      congr 1
      funext user
      cases user with
      | found ids =>
          simp only [seq_assoc]
          congr 1
          funext logs
          cases logs with
          | none => rfl
          | some logs => rfl
      | notFound => rfl
      | ioError => rfl

theorem planRequest_run (fuel : Nat) (nss : NssState) (cli : CliArgs) (policy : Policy)
    (caller : CStr) (callerUid callerGid : Nat) (groups : List CStr) :
    planRequest fuel nss cli policy caller callerUid callerGid groups >>= Plan.run fuel =
      runRequest fuel nss cli policy caller callerUid callerGid groups := by
  simp only [planRequest, runRequest, seq_assoc, seq_ite, seq_pure, planAuthorized_run, Plan.run]

theorem planPolicy_run (fuel : Nat) (cli : CliArgs) (policy : Policy) (caller : CStr)
    (callerUid callerGid : Nat) :
    planPolicy fuel cli policy caller callerUid callerGid >>= Plan.run fuel =
      runPolicy fuel cli policy caller callerUid callerGid := by
  simp only [planPolicy, runPolicy, seq_assoc, seq_ite, seq_pure, seq_pure_right,
    planRequest_run, Plan.run]

theorem planModes_run (fuel : Nat) (cli : CliArgs) (caller : CStr) (callerUid callerGid : Nat) :
    planModes fuel cli caller callerUid callerGid >>= Plan.run fuel =
      runModes fuel cli caller callerUid callerGid := by
  simp only [planModes, runModes, seq_assoc, seq_ite, seq_pure, seq_pure_right, Plan.run]
  congr 2
  congr 1
  funext policy
  cases policy with
  | none => rfl
  | some policy => exact planPolicy_run fuel cli policy caller callerUid callerGid

/-- **A run is a plan that is carried out.** -/
theorem shkRun_eq_plan (fuel : Nat) (args : List CStr) :
    shkRun fuel args = planRun fuel args >>= Plan.run fuel := by
  simp only [planRun, shkRun, seq_assoc]
  congr 1
  funext _
  congr 1
  funext cli
  cases cli with
  | none => rfl
  | some cli =>
      simp only [seq_assoc, seq_ite, seq_pure, Plan.run]
      congr 2
      congr 1
      funext callerUid
      congr 1
      funext callerGid
      congr 1
      funext user
      cases user with
      | found ids => exact (planModes_run fuel cli ids.1 callerUid callerGid).symm
      | notFound => rfl
      | ioError => rfl

end Phases

/-! ### What a plan to execute rests on -/

/-- What a run has found and done when it has decided to execute `x`. -/
structure Planned (fuel : Nat) (args : List CStr) (cli : CliArgs) (callerUid : Nat)
    (policy : Policy) (eval : Evaluation) (tr : Trace) (x : Handover) : Prop where
  parsed : Prog.Did tr (parseCliFrom args) (some cli)
  modes : cli.help = false ∧ cli.version = false ∧ cli.invalidate = false ∧ cli.check = false ∧
    cli.list = false
  uidRead : Prog.Did tr (sys .getuid) callerUid
  callerFound : ∃ gid, Prog.Did tr (identityLookupUid callerUid) (.found (x.caller, gid))
  policyLoaded : Prog.Did tr (loadPolicy cli.policy) (some policy)
  evaluated : ∃ callerGid groups, Prog.Did tr
    (evaluateWithPolicy fuel ⟨cli.policy, cli.target, .interactive⟩ policy x.caller callerUid
      callerGid (some groups) cli.argv) (eval, x.req.argv)
  authorized : eval.authorized = true
  authenticated : Prog.Did tr (runAuth x.caller cli.target x.req.resolved eval) true
  target_eq : x.target = cli.target ∧ x.req.targetUser = cli.target
  targetFound :
    Prog.Did tr (identityLookupUser cli.target) (.found (x.req.targetUid, x.req.targetGid))
  logsOpened : Prog.Did tr (openLogs policy.defaults.sessionLogDir x.caller cli.target
    x.req.resolved eval.logSession eval.logInput x.logs.usePty) (some x.logs)
  pty : x.logs.usePty = sessionNeedsPty eval.logSession callerUid x.req.targetUid
  resolved : x.req.resolved = eval.resolvedCommand.getD (cstr "")
  environment : x.req.env = eval.environment.getD []
  capMask : capsParseSet eval.capabilities = some x.req.capMask

section Planned

open Prog

variable {tr : Trace} {x : Handover}

/-- Who gives up has not decided to execute anything. -/
theorem not_returns_exit {p : Sys Unit} {code : Int}
    (h : Returns (p >>= fun _ => Pure.pure (Plan.exit code)) tr (.execute x)) : False := by
  obtain ⟨_, _, heq⟩ := returns_map_iff.mp h
  cases heq

/-- The part of the facts that `planAuthorized` contributes. -/
structure AuthorizedPlan (nss : NssState) (policy : Policy) (caller : CStr) (callerUid : Nat)
    (target : CStr) (eval : Evaluation) (argv : List CStr) (tr : Trace) (x : Handover) : Prop where
  same : x.nss = nss ∧ x.caller = caller ∧ x.target = target ∧ x.req.targetUser = target ∧
    x.req.argv = argv
  authenticated : Did tr (runAuth caller target x.req.resolved eval) true
  targetFound : Did tr (identityLookupUser target) (.found (x.req.targetUid, x.req.targetGid))
  logsOpened : Did tr (openLogs policy.defaults.sessionLogDir caller target x.req.resolved
    eval.logSession eval.logInput x.logs.usePty) (some x.logs)
  pty : x.logs.usePty = sessionNeedsPty eval.logSession callerUid x.req.targetUid
  resolved : x.req.resolved = eval.resolvedCommand.getD (cstr "")
  environment : x.req.env = eval.environment.getD []
  capMask : capsParseSet eval.capabilities = some x.req.capMask

theorem usePty_of_openLogs {dir caller target resolved : CStr} {doLog logInput usePty : Bool}
    {logs : SessionLogs}
    (h : Returns (openLogs dir caller target resolved doLog logInput usePty) tr (some logs)) :
    logs.usePty = usePty := by
  unfold openLogs at h
  split at h
  · obtain ⟨t₁, t₂, logfd, rfl, -, h⟩ := returns_bind_iff.mp h
    split at h
    · obtain ⟨t₃, t₄, _, rfl, -, h⟩ := returns_bind_iff.mp h
      obtain ⟨_, _, heq⟩ := returns_map_iff.mp h
      cases heq
    split at h
    · obtain ⟨t₃, t₄, inlogfd, rfl, -, h⟩ := returns_bind_iff.mp h
      split at h
      · obtain ⟨t₅, t₆, _, rfl, -, h⟩ := returns_bind_iff.mp h
        obtain ⟨_, _, heq⟩ := returns_map_iff.mp h
        cases heq
      · cases (returns_pure_iff.mp h).2
        rfl
    · cases (returns_pure_iff.mp h).2
      rfl
  · cases (returns_pure_iff.mp h).2
    rfl

theorem returns_planAuthorized {nss : NssState} {policy : Policy} {caller : CStr}
    {callerUid : Nat} {target : CStr} {eval : Evaluation} {argv : List CStr}
    (h : Returns (planAuthorized nss policy caller callerUid target eval argv) tr (.execute x)) :
    AuthorizedPlan nss policy caller callerUid target eval argv tr x := by
  unfold planAuthorized at h
  dsimp only at h
  cases hcaps : capsParseSet eval.capabilities with
  | none =>
      rw [hcaps] at h
      obtain ⟨t₁, t₂, _, rfl, -, h⟩ := returns_bind_iff.mp h
      exact (not_returns_exit h).elim
  | some capMask =>
      rw [hcaps] at h
      obtain ⟨t₁, t₂, ok, rfl, hauth, h⟩ := returns_bind_iff.mp h
      cases ok with
      | false => cases (returns_pure_iff.mp h).2
      | true =>
          obtain ⟨t₃, t₄, user, rfl, huser, h⟩ := returns_bind_iff.mp h
          cases user with
          | notFound => exact (not_returns_exit h).elim
          | ioError => exact (not_returns_exit h).elim
          | found ids =>
              obtain ⟨t₅, t₆, logs, rfl, hlogs, h⟩ := returns_bind_iff.mp h
              cases logs with
              | none => cases (returns_pure_iff.mp h).2
              | some logs =>
                  cases (returns_pure_iff.mp h).2
                  have hpty := usePty_of_openLogs hlogs
                  exact {
                    same := ⟨rfl, rfl, rfl, rfl, rfl⟩
                    authenticated := hauth.did.left _
                    targetFound := (huser.did.left _).right t₁
                    logsOpened := by
                      rw [hpty]
                      exact ((hlogs.did.left _).right t₃).right t₁
                    pty := hpty
                    resolved := rfl
                    environment := rfl
                    capMask := hcaps }

/-- **A plan to execute has passed every check.** -/
theorem planned_of_returns {fuel : Nat} {args : List CStr}
    (h : Returns (planRun fuel args) tr (.execute x)) :
    ∃ cli callerUid policy eval, Planned fuel args cli callerUid policy eval tr x := by
  obtain ⟨t₁, t₂, _, rfl, -, h⟩ := returns_bind_iff.mp h
  obtain ⟨t₃, t₄, cli, rfl, hcli, h⟩ := returns_bind_iff.mp h
  cases cli with
  | none => exact (not_returns_exit h).elim
  | some cli =>
  dsimp only at h
  split at h
  · exact (not_returns_exit h).elim
  rename_i hhelp
  split at h
  · obtain ⟨t₅, t₆, _, rfl, -, h⟩ := returns_bind_iff.mp h
    exact (not_returns_exit h).elim
  rename_i hversion
  obtain ⟨t₅, t₆, callerUid, rfl, huid, h⟩ := returns_bind_iff.mp h
  obtain ⟨t₇, t₈, callerGid, rfl, -, h⟩ := returns_bind_iff.mp h
  obtain ⟨t₉, t₁₀, user, rfl, huser, h⟩ := returns_bind_iff.mp h
  cases user with
  | notFound => exact (not_returns_exit h).elim
  | ioError => exact (not_returns_exit h).elim
  | found ids =>
  obtain ⟨caller, gid⟩ := ids
  dsimp only at h
  unfold planModes at h
  split at h
  · obtain ⟨_, _, heq⟩ := returns_map_iff.mp h
    cases heq
  rename_i hinvalidate
  split at h
  · exact (not_returns_exit h).elim
  obtain ⟨t₁₁, t₁₂, policy, rfl, hpolicy, h⟩ := returns_bind_iff.mp h
  cases policy with
  | none => exact (not_returns_exit h).elim
  | some policy =>
  dsimp only at h
  unfold planPolicy at h
  dsimp only at h
  split at h
  · obtain ⟨_, _, heq⟩ := returns_map_iff.mp h
    cases heq
  rename_i hcheck
  obtain ⟨t₁₃, t₁₄, ⟨status, nss⟩, rfl, -, h⟩ := returns_bind_iff.mp h
  obtain ⟨t₁₅, t₁₆, _, rfl, -, h⟩ := returns_bind_iff.mp h
  obtain ⟨t₁₇, t₁₈, ⟨groups, nss'⟩, rfl, -, h⟩ := returns_bind_iff.mp h
  dsimp only at h
  split at h
  · exact (not_returns_exit h).elim
  rename_i hlist
  obtain ⟨t₁₉, t₂₀, ⟨eval, argv⟩, rfl, heval, h⟩ := returns_bind_iff.mp h
  dsimp only at h
  split at h
  · obtain ⟨t₂₁, t₂₂, _, rfl, -, h⟩ := returns_bind_iff.mp h
    exact (not_returns_exit h).elim
  rename_i hauthorized
  have hplan := returns_planAuthorized h
  obtain ⟨-, hcaller, htarget, huser', hargv⟩ := hplan.same
  -- Each fact is about a part of the run.
  have hin : t₂₀ <:+: t₁ ++ (t₃ ++ (t₅ ++ (t₇ ++ (t₉ ++ (t₁₁ ++ (t₁₃ ++ (t₁₅ ++
      (t₁₇ ++ (t₁₉ ++ t₂₀))))))))) :=
    ⟨t₁ ++ t₃ ++ t₅ ++ t₇ ++ t₉ ++ t₁₁ ++ t₁₃ ++ t₁₅ ++ t₁₇ ++ t₁₉, [], by simp⟩
  exact ⟨cli, callerUid, policy, eval, {
    parsed := (hcli.did.left _).right t₁
    modes := by simp_all
    uidRead := ((huid.did.left _).right t₃).right t₁
    callerFound := ⟨gid, hcaller ▸ ((((huser.did.left _).right t₇).right t₅).right t₃).right t₁⟩
    policyLoaded := (((((hpolicy.did.left _).right t₉).right t₇).right t₅).right t₃).right t₁
    evaluated := ⟨callerGid, groups, hcaller ▸ hargv ▸ (((((((((heval.did.left _).right t₁₇).right
      t₁₅).right t₁₃).right t₁₁).right t₉).right t₇).right t₅).right t₃).right t₁⟩
    authorized := by simpa using hauthorized
    authenticated := hcaller ▸ hplan.authenticated.mono hin
    target_eq := ⟨htarget, huser'⟩
    targetFound := hplan.targetFound.mono hin
    logsOpened := hcaller ▸ hplan.logsOpened.mono hin
    pty := hplan.pty
    resolved := hplan.resolved
    environment := hplan.environment
    capMask := hplan.capMask }⟩

end Planned

end Shakti
