import Shakti.Machine
import Shakti.Quiet

/-!
# Shakti.ExecGate

The gate in front of `execve`: what must have happened in a run of `shk_run` that
is about to execute the target's command.

Each part of the run is inverted on its own, from the exec paths outwards. A part
that returned contributes what its result says about it (`returns_…`); a part that
reached `execve` contributes what it did before (`issues_…`), and the parts in
between are discarded because they are quiet.
-/

namespace Shakti

open Effects Effects.Prog

/-! ### Reaching `execve` -/

/-- The `execve` calls that run the target's command. -/
@[simp] def TargetExec : SysCall → Prop
  | .execve site _ _ _ => site ≠ .suAuthenticate
  | _ => False

theorem TargetExec.loud {c : SysCall} (hc : TargetExec c) : Loud c := by
  cases c <;> simp_all

theorem Quiet.avoidsExec {α : Type} {p : Sys α} (hp : Quiet p) : Avoids TargetExec p :=
  hp.mono fun _ => TargetExec.loud

@[simp] theorem Confirming.avoidsExec {α : Type} {p : Sys α} (hp : Confirming p) :
    Avoids TargetExec p :=
  hp.mono fun c hc => by cases c <;> simp_all

/-- A run that reached `execve` has completed every quiet part before it. -/
theorem issues_after_quiet {α β : Type} {p : Sys α} {f : α → Sys β} {tr : Trace} {c : SysCall}
    (h : Issues (p >>= f) tr c) (hc : TargetExec c) (hp : Quiet p) :
    ∃ tr₁ tr₂ a, tr = tr₁ ++ tr₂ ∧ Returns p tr₁ a ∧ Issues (f a) tr₂ c :=
  h.bind_avoids hp hc.loud

/-- A quiet program does not reach `execve`. -/
theorem Quiet.not_issues {α : Type} {p : Sys α} (hp : Quiet p) {tr : Trace} {c : SysCall}
    (hc : TargetExec c) : ¬ Issues p tr c :=
  Avoids.not_issues hp hc.loud

/-! ### The exec paths -/

/-- What an exec path did with its request `req` before `execve`. -/
structure HandOver (nss : NssState) (req : ExecRequest) (tr : Trace) (path : CStr)
    (argv env : List CStr) : Prop where
  path_eq : path = req.resolved
  argv_eq : argv = req.argv
  env_eq : env = req.env
  dropped :
    Did tr (dropPrivileges nss req.targetUser req.targetUid req.targetGid req.capMask) ()
  lsmApplied : ∃ r, 0 ≤ r ∧ Did tr (lsmApplyExec req.seCtx req.aaProf) r

variable {site : ExecSite} {nss : NssState} {req : ExecRequest} {tr : Trace} {path : CStr}
  {argv env : List CStr}

theorem HandOver.right (h : HandOver nss req tr path argv env) (tr' : Trace) :
    HandOver nss req (tr' ++ tr) path argv env where
  path_eq := h.path_eq
  argv_eq := h.argv_eq
  env_eq := h.env_eq
  dropped := h.dropped.right tr'
  lsmApplied := by
    obtain ⟨r, hr, hd⟩ := h.lsmApplied
    exact ⟨r, hr, hd.right tr'⟩

theorem returns_buildPtrArray {vec vec' : List CStr}
    (h : Returns (buildPtrArray vec) tr vec') : vec' = vec := by
  obtain ⟨tr₁, tr₂, arr, rfl, -, h⟩ := returns_bind_iff.mp h
  split at h
  · obtain ⟨_, _, _, -, -, h⟩ := returns_bind_iff.mp h
    obtain ⟨r, -⟩ := returns_call_iff.mp h
    exact r.elim
  · exact (returns_pure_iff.mp h).2

theorem returns_applyLsmOrDie {seCtx aaProf : CStr}
    (h : Returns (applyLsmOrDie seCtx aaProf) tr ()) :
    ∃ r, 0 ≤ r ∧ Did tr (lsmApplyExec seCtx aaProf) r := by
  obtain ⟨tr₁, tr₂, r, rfl, hr, h⟩ := returns_bind_iff.mp h
  split at h
  · obtain ⟨_, _, _, -, -, h⟩ := returns_bind_iff.mp h
    obtain ⟨x, -⟩ := returns_call_iff.mp h
    exact x.elim
  case isFalse hneg => exact ⟨r, by omega, hr.did.left tr₂⟩

theorem issues_dropAndExec {s : ExecSite} (hsite : site ≠ .suAuthenticate)
    (h : Issues (dropAndExec s nss req) tr (.execve site path argv env)) :
    HandOver nss req tr path argv env := by
  obtain ⟨tr₁, tr₂, _, rfl, hdrop, h⟩ := issues_after_quiet h hsite (by simp)
  obtain ⟨tr₃, tr₄, argv', rfl, hargv, h⟩ := issues_after_quiet h hsite (by simp)
  obtain ⟨tr₅, tr₆, envp', rfl, henv, h⟩ := issues_after_quiet h hsite (by simp)
  obtain ⟨tr₇, tr₈, _, rfl, hlsm, h⟩ := issues_after_quiet h hsite (by simp)
  obtain rfl := returns_buildPtrArray hargv
  obtain rfl := returns_buildPtrArray henv
  obtain ⟨r, hr, happly⟩ := returns_applyLsmOrDie hlsm
  rcases issues_call_iff.mp h with ⟨rfl, hc⟩ | ⟨_, _, -, h⟩
  · cases hc
    exact ⟨rfl, rfl, rfl, hdrop.did.left _,
      r, hr, (((happly.left _).right _).right _).right _⟩
  · exact absurd h not_issues_pure

/-- The direct path: `_exec_target`. -/
theorem issues_execTarget (hsite : site ≠ .suAuthenticate)
    (h : Issues (execTarget nss req) tr (.execve site path argv env)) :
    HandOver nss req tr path argv env := by
  obtain ⟨tr₁, tr₂, _, rfl, -, h⟩ := issues_after_quiet h hsite (by simp)
  rcases issues_bind_iff.mp h with h | ⟨_, _, _, -, -, h⟩
  · exact (issues_dropAndExec hsite h).right tr₁
  · exact absurd h (Quiet.not_issues (by simp) hsite)

theorem issues_ptyChild {slave : Int} (hsite : site ≠ .suAuthenticate)
    (h : Issues (ptyChild slave nss req) tr (.execve site path argv env)) :
    HandOver nss req tr path argv env := by
  obtain ⟨tr₁, tr₂, _, rfl, -, h⟩ := issues_after_quiet h hsite (by simp)
  obtain ⟨tr₃, tr₄, _, rfl, -, h⟩ := issues_after_quiet h hsite (by simp)
  obtain ⟨tr₅, tr₆, r0, rfl, -, h⟩ := issues_after_quiet h hsite (by simp)
  split at h
  · exact absurd h (Quiet.not_issues (by simp) hsite)
  obtain ⟨tr₇, tr₈, r1, rfl, -, h⟩ := issues_after_quiet h hsite (by simp)
  split at h
  · exact absurd h (Quiet.not_issues (by simp) hsite)
  obtain ⟨tr₉, tr₁₀, r2, rfl, -, h⟩ := issues_after_quiet h hsite (by simp)
  split at h
  · exact absurd h (Quiet.not_issues (by simp) hsite)
  obtain ⟨tr₁₁, tr₁₂, _, rfl, -, h⟩ := issues_after_quiet h hsite (by simp)
  rcases issues_bind_iff.mp h with h | ⟨_, _, _, -, -, h⟩
  · exact ((((((issues_dropAndExec hsite h).right _).right _).right _).right _).right _).right _
  · exact absurd h (Quiet.not_issues (by simp) hsite)

/-- The pseudo-terminal path: only its child reaches `execve`. -/
theorem issues_execTargetPty {fuel : Nat} {logfd inlogfd : Int} {caller : CStr}
    (hsite : site ≠ .suAuthenticate)
    (h : Issues (execTargetPty fuel nss req logfd inlogfd caller) tr
      (.execve site path argv env)) :
    HandOver nss req tr path argv env := by
  obtain ⟨tr₁, tr₂, start, rfl, -, h⟩ := issues_after_quiet h hsite (by simp)
  obtain ⟨tr₃, tr₄, _, rfl, -, h⟩ := issues_after_quiet h hsite (by simp)
  obtain ⟨tr₅, tr₆, _, rfl, -, h⟩ := issues_after_quiet h hsite (by simp)
  obtain ⟨tr₇, tr₈, master, rfl, -, h⟩ := issues_after_quiet h hsite (by simp)
  split at h
  · exact absurd h (Quiet.not_issues (by simp) hsite)
  obtain ⟨tr₉, tr₁₀, slave, rfl, -, h⟩ := issues_after_quiet h hsite (by simp)
  split at h
  · exact absurd h (Quiet.not_issues (by simp) hsite)
  obtain ⟨tr₁₁, tr₁₂, pid, rfl, -, h⟩ := issues_after_quiet h hsite (by simp)
  split at h
  · exact absurd h (Quiet.not_issues (by simp) hsite)
  split at h
  · exact ((((((issues_ptyChild hsite h).right _).right _).right _).right _).right _).right _
  · exact absurd h (Quiet.not_issues (by simp) hsite)

/-! ### The audit trail and the backends -/

@[simp] theorem avoidsExec_auditLog (action : AuditAction) (caller target command : CStr)
    (success : Bool) (reason : CStr) :
    Avoids TargetExec (auditLog action caller target command success reason) := by
  refine .bind (Quiet.avoidsExec (by simp [buildFileLine])) fun line => ?_
  simp

@[simp] theorem avoidsExec_suChild (rfd wfd : Int) (username : CStr) :
    Avoids TargetExec (suChild rfd wfd username) := by
  simp [suChild, suChild.suExec, sysExit]

/-! ### The parts of the run -/

/-- A password loop that succeeded has seen the backends accept a password. -/
theorem returns_promptLoop {username : CStr} {left attempt : Nat} {tr : Trace}
    (h : Returns (promptLoop username left attempt) tr true) :
    ∃ password, Did tr (authenticate username password) 1 := by
  induction left generalizing attempt tr with
  | zero => simpa using (returns_pure_iff.mp h).2
  | succ left ih =>
      obtain ⟨t₁, tr₁, _, rfl, -, h⟩ := returns_bind_iff.mp h
      obtain ⟨t₂, tr₂, _, rfl, -, h⟩ := returns_bind_iff.mp h
      obtain ⟨t₃, tr₃, _, rfl, -, h⟩ := returns_bind_iff.mp h
      obtain ⟨t₄, tr₄, buf, rfl, -, h⟩ := returns_bind_iff.mp h
      suffices ∃ password, Did tr₄ (authenticate username password) 1 by
        obtain ⟨password, hd⟩ := this
        exact ⟨password, (((hd.right t₄).right t₃).right t₂).right t₁⟩
      dsimp only at h
      split at h
      · split at h
        · obtain ⟨t₅, tr₅, _, rfl, -, h⟩ := returns_bind_iff.mp h
          obtain ⟨password, hd⟩ := ih h
          exact ⟨password, hd.right t₅⟩
        · simpa using (returns_pure_iff.mp h).2
      · obtain ⟨t₅, tr₅, r, rfl, hr, h⟩ := returns_bind_iff.mp h
        split at h
        case isTrue hr1 => exact ⟨CStr.read buf, (hr1 ▸ hr.did).left tr₅⟩
        case isFalse =>
          obtain ⟨t₆, tr₆, _, rfl, -, h⟩ := returns_bind_iff.mp h
          obtain ⟨password, hd⟩ := ih h
          exact ⟨password, (hd.right t₆).right t₅⟩

/-- A run that goes on past authentication did not need it, had a valid timestamp,
or authenticated the caller. -/
theorem returns_runAuth {caller target resolved : CStr} {eval : Evaluation} {tr : Trace}
    (h : Returns (runAuth caller target resolved eval) tr true) :
    eval.requireAuth = false ∨ eval.timestampValid = true ∨
      ∃ password, Did tr (authenticate caller password) 1 := by
  unfold runAuth at h
  split at h
  · obtain ⟨t₁, tr₁, saved, rfl, -, h⟩ := returns_bind_iff.mp h
    obtain ⟨t₂, tr₂, ok, rfl, hok, h⟩ := returns_bind_iff.mp h
    obtain ⟨t₃, tr₃, _, rfl, -, h⟩ := returns_bind_iff.mp h
    cases ok with
    | true =>
        obtain ⟨password, hd⟩ := returns_promptLoop hok
        exact Or.inr (Or.inr ⟨password, (hd.left _).right t₁⟩)
    | false =>
        obtain ⟨t₄, tr₄, _, rfl, -, h⟩ := returns_bind_iff.mp h
        obtain ⟨t₅, tr₅, _, rfl, -, h⟩ := returns_bind_iff.mp h
        simpa using (returns_pure_iff.mp h).2
  case isFalse hneeded =>
    cases hra : eval.requireAuth with
    | false => exact Or.inl rfl
    | true => exact Or.inr (Or.inl (by simpa [hra] using hneeded))

/-- The logs a request requires are open. Keystrokes are logged beside a transcript
only: `log_input` asks for a log where `log_session` does. -/
structure LogsOpen (dir caller : CStr) (logSession logInput : Bool) (tr : Trace) : Prop where
  transcript : logSession = true →
    ∃ fd, 0 ≤ fd ∧ Did tr (openSessionLog dir caller (cstr ".log")) fd
  keystrokes : logSession = true → logInput = true →
    ∃ fd, 0 ≤ fd ∧ Did tr (openSessionLog dir caller (cstr ".input.log")) fd

theorem LogsOpen.mono {dir caller : CStr} {logSession logInput : Bool} {tr tr' : Trace}
    (h : LogsOpen dir caller logSession logInput tr) (hsub : tr <:+: tr') :
    LogsOpen dir caller logSession logInput tr' where
  transcript hs := by
    obtain ⟨fd, hfd, hd⟩ := h.transcript hs
    exact ⟨fd, hfd, hd.mono hsub⟩
  keystrokes hs hi := by
    obtain ⟨fd, hfd, hd⟩ := h.keystrokes hs hi
    exact ⟨fd, hfd, hd.mono hsub⟩

theorem returns_openLogs {dir caller target resolved : CStr} {doLog logInput usePty : Bool}
    {tr : Trace} {logs : SessionLogs}
    (h : Returns (openLogs dir caller target resolved doLog logInput usePty) tr (some logs)) :
    LogsOpen dir caller doLog logInput tr := by
  cases doLog with
  | false => exact ⟨by simp, by simp⟩
  | true =>
      obtain ⟨t₁, tr₁, logfd, rfl, hlog, h⟩ := returns_bind_iff.mp h
      split at h
      · obtain ⟨t₂, tr₂, _, rfl, -, h⟩ := returns_bind_iff.mp h
        obtain ⟨t₃, tr₃, _, rfl, -, h⟩ := returns_bind_iff.mp h
        simpa using (returns_pure_iff.mp h).2
      rename_i hfd
      refine ⟨fun _ => ⟨logfd, by omega, hlog.did.left _⟩, ?_⟩
      rintro - rfl
      obtain ⟨t₂, tr₂, inlogfd, rfl, hin, h⟩ := returns_bind_iff.mp h
      split at h
      · obtain ⟨t₃, tr₃, _, rfl, -, h⟩ := returns_bind_iff.mp h
        obtain ⟨t₄, tr₄, _, rfl, -, h⟩ := returns_bind_iff.mp h
        simpa using (returns_pure_iff.mp h).2
      · rename_i hinfd
        exact ⟨inlogfd, by omega, (hin.did.left _).right t₁⟩

/-- What the record of an authorizing evaluation says about the request. -/
structure Verdict (policy : Policy) (caller : CStr) (groups : Option (List CStr))
    (target : CStr) (cmd argv : List CStr) (eval : Evaluation) (authz : AuthzResult) : Prop where
  authz_eq : authz = checkAuthorization policy caller groups target (shkJoinCommand argv)
  allowed : authz.allowed = true
  callerValid : validateUsername caller = .ok
  commandValid : validateCommand cmd policy.defaults.maxCommandLen = .ok
  requireAuth : eval.requireAuth = authz.requireAuth
  capabilities : eval.capabilities = authz.capabilities
  logSession : eval.logSession = authz.logSession
  logInput : eval.logInput = authz.logInput
  selinux : eval.selinuxContext = authz.selinux
  apparmor : eval.apparmorProfile = authz.apparmor

/-- What an authorizing run of `evaluate_with_policy` has done. -/
structure Approved (policy : Policy) (caller : CStr) (groups : Option (List CStr))
    (target : CStr) (cmd argv : List CStr) (eval : Evaluation) (authz : AuthzResult)
    (tr : Trace) : Prop extends Verdict policy caller groups target cmd argv eval authz where
  resolved : ∃ n buf, Did tr (resolveCommand (cmd.headD (cstr "")) [] 4096) (.ok n, buf) ∧
    eval.resolvedCommand = some (CStr.read buf) ∧ argv = cmd.set 0 (CStr.read buf)
  timestamp : eval.timestampValid = true →
    Did tr (checkTimestamp caller policy.defaults.timestampTtl) true

theorem Approved.mono {policy : Policy} {caller : CStr} {groups : Option (List CStr)}
    {target : CStr} {cmd argv : List CStr} {eval : Evaluation} {authz : AuthzResult}
    {tr tr' : Trace} (h : Approved policy caller groups target cmd argv eval authz tr)
    (hsub : tr <:+: tr') : Approved policy caller groups target cmd argv eval authz tr' where
  toVerdict := h.toVerdict
  resolved := by
    obtain ⟨n, buf, hd, heq⟩ := h.resolved
    exact ⟨n, buf, hd.mono hsub, heq⟩
  timestamp hv := (h.timestamp hv).mono hsub

/-- The evaluation of an allowed request: it copies the verdict, and its timestamp
flag is set only by a timestamp check that succeeded. -/
theorem returns_evaluateAllowed {fuel : Nat} {config : Config} {defaults : Defaults}
    {caller : CStr} {callerUid callerGid : Nat} {authz : AuthzResult} {e e' : Evaluation}
    {tr : Trace}
    (h : Returns (evaluateAllowed fuel config defaults caller callerUid callerGid authz e) tr e') :
    e'.resolvedCommand = e.resolvedCommand ∧ e'.requireAuth = authz.requireAuth ∧
      e'.capabilities = authz.capabilities ∧ e'.logSession = authz.logSession ∧
      e'.logInput = authz.logInput ∧ e'.selinuxContext = authz.selinux ∧
      e'.apparmorProfile = authz.apparmor ∧
      (e'.timestampValid = true → Did tr (checkTimestamp caller defaults.timestampTtl) true) := by
  obtain ⟨t₁, tr₁, tsValid, rfl, hts, h⟩ := returns_bind_iff.mp h
  have hcheck : tsValid = true → Did t₁ (checkTimestamp caller defaults.timestampTtl) true := by
    rintro rfl
    split at hts
    · exact hts.did
    · simpa using (returns_pure_iff.mp hts).2
  split at h
  · obtain ⟨-, rfl⟩ := returns_pure_iff.mp h
    exact ⟨rfl, rfl, rfl, rfl, rfl, rfl, rfl, fun hv => (hcheck hv).left _⟩
  · obtain ⟨t₂, tr₂, home, rfl, -, h⟩ := returns_bind_iff.mp h
    obtain ⟨t₃, tr₃, shell, rfl, -, h⟩ := returns_bind_iff.mp h
    obtain ⟨t₄, tr₄, env, rfl, -, h⟩ := returns_bind_iff.mp h
    obtain ⟨-, rfl⟩ := returns_pure_iff.mp h
    exact ⟨rfl, rfl, rfl, rfl, rfl, rfl, rfl, fun hv => (hcheck hv).left _⟩

theorem returns_evaluateWithPolicy {fuel : Nat} {config : Config} {policy : Policy}
    {caller : CStr} {callerUid callerGid : Nat} {groups : Option (List CStr)}
    {cmd argv : List CStr} {eval : Evaluation} {tr : Trace}
    (h : Returns (evaluateWithPolicy fuel config policy caller callerUid callerGid groups cmd) tr
      (eval, argv)) (hauth : eval.authorized = true) :
    ∃ authz, Approved policy caller groups config.targetUser cmd argv eval authz tr := by
  unfold evaluateWithPolicy at h
  -- Every refusal returns a record whose `authorized` is that of `eval_new`.
  split at h
  case h_2 =>
    obtain ⟨-, heq⟩ := returns_pure_iff.mp h
    cases heq
    simp [evalFail, evalNew] at hauth
  case h_1 hcaller =>
    split at h
    case h_2 =>
      obtain ⟨-, heq⟩ := returns_pure_iff.mp h
      cases heq
      simp [evalFail, evalNew] at hauth
    case h_1 hcmd =>
      obtain ⟨t₁, tr₁, ⟨rl, buf⟩, rfl, hres, h⟩ := returns_bind_iff.mp h
      cases rl with
      | error code =>
          obtain ⟨-, heq⟩ := returns_pure_iff.mp h
          cases heq
          simp [evalFail, evalNew] at hauth
      | ok n =>
          dsimp only at h
          split at h
          · obtain ⟨-, heq⟩ := returns_pure_iff.mp h
            cases heq
            simp [evalNew] at hauth
          case isFalse hallowed =>
            obtain ⟨t₂, tr₂, e, rfl, he, h⟩ := returns_bind_iff.mp h
            obtain ⟨-, heq⟩ := returns_pure_iff.mp h
            cases heq
            obtain ⟨hrc, hra, hcaps, hls, hli, hse, haa, hts⟩ := returns_evaluateAllowed he
            exact ⟨_, {
              authz_eq := rfl
              allowed := by simpa using hallowed
              callerValid := hcaller
              commandValid := hcmd
              resolved := ⟨n, buf, hres.did.left _, hrc, rfl⟩
              requireAuth := hra
              timestamp := fun hv => ((hts hv).left _).right t₁
              capabilities := hcaps
              logSession := hls
              logInput := hli
              selinux := hse
              apparmor := haa }⟩

/-- What `runAuthorized` has done in front of `execve`. -/
structure Prepared (nss : NssState) (policy : Policy) (caller target : CStr)
    (eval : Evaluation) (capMask targetUid targetGid : Nat) (tr : Trace) (path : CStr) :
    Prop where
  path_eq : path = eval.resolvedCommand.getD (cstr "")
  capMask_eq : capsParseSet eval.capabilities = some capMask
  authenticated : eval.requireAuth = false ∨ eval.timestampValid = true ∨
    ∃ password, Did tr (authenticate caller password) 1
  targetFound : Did tr (identityLookupUser target) (.found (targetUid, targetGid))
  logsOpen : LogsOpen policy.defaults.sessionLogDir caller eval.logSession eval.logInput tr
  audited : ∃ reason, Did tr (auditLog .command caller target path true reason) ()
  dropped : Did tr (dropPrivileges nss target targetUid targetGid capMask) ()
  lsmApplied : ∃ r, 0 ≤ r ∧ Did tr (lsmApplyExec eval.selinuxContext eval.apparmorProfile) r

theorem issues_runExec {fuel : Nat} {caller target : CStr} {logs : SessionLogs}
    (hsite : site ≠ .suAuthenticate)
    (h : Issues (runExec fuel nss caller target req logs) tr (.execve site path argv env)) :
    HandOver nss req tr path argv env ∧
      ∃ reason, Did tr (auditLog .command caller target req.resolved true reason) () := by
  obtain ⟨t₁, tr₁, _, rfl, haudit, h⟩ :=
    h.bind_avoids (avoidsExec_auditLog ..) (P := TargetExec) hsite
  refine ⟨HandOver.right ?_ t₁, _, haudit.did.left tr₁⟩
  split at h
  · exact issues_execTargetPty hsite h
  · rcases issues_bind_iff.mp h with h | ⟨_, _, _, -, -, h⟩
    · exact issues_execTarget hsite h
    · exact absurd h not_issues_pure

theorem avoidsExec_openLogs {dir caller target resolved : CStr} {doLog logInput usePty : Bool} :
    Avoids TargetExec (openLogs dir caller target resolved doLog logInput usePty) := by
  simp [openLogs, Quiet.avoidsExec]

theorem avoidsExec_runAuth {caller target resolved : CStr} {eval : Evaluation} :
    Avoids TargetExec (runAuth caller target resolved eval) := by
  simp [runAuth, maskAuthSignals, restoreSignals, promptAndAuthenticate, Quiet.avoidsExec]

theorem issues_runAuthorized {fuel : Nat} {policy : Policy} {caller target : CStr}
    {callerUid : Nat} {eval : Evaluation} {argv' : List CStr} (hsite : site ≠ .suAuthenticate)
    (h : Issues (runAuthorized fuel nss policy caller callerUid target eval argv') tr
      (.execve site path argv env)) :
    argv = argv' ∧ ∃ capMask targetUid targetGid,
      Prepared nss policy caller target eval capMask targetUid targetGid tr path := by
  unfold runAuthorized at h
  dsimp only at h
  split at h
  · exact absurd h (Avoids.not_issues (P := TargetExec) (by simp) hsite)
  rename_i capMask hmask
  obtain ⟨t₁, tr₁, ok, rfl, hauth, h⟩ := h.bind_avoids avoidsExec_runAuth (P := TargetExec) hsite
  cases ok with
  | false => exact absurd h not_issues_pure
  | true =>
    obtain ⟨t₂, tr₂, user, rfl, huser, h⟩ := issues_after_quiet h hsite (by simp)
    rcases user with - | - | ⟨targetUid, targetGid⟩
    · exact absurd h (Quiet.not_issues (by simp) hsite)
    · exact absurd h (Quiet.not_issues (by simp) hsite)
    -- Every step before the exec avoids it, so each has returned and left its trace.
    obtain ⟨t₃, tr₃, logs, rfl, hlogs, h⟩ :=
      h.bind_avoids avoidsExec_openLogs (P := TargetExec) hsite
    cases logs with
    | none => exact absurd h not_issues_pure
    | some logs =>
      obtain ⟨hhand, reason, haudit⟩ := issues_runExec hsite h
      obtain ⟨r, hr, hlsm⟩ := hhand.lsmApplied
      refine ⟨hhand.argv_eq, capMask, targetUid, targetGid, {
        path_eq := hhand.path_eq
        capMask_eq := hmask
        authenticated := ?_
        targetFound := (huser.did.left _).right t₁
        logsOpen := (returns_openLogs hlogs).mono ?_
        audited := ⟨reason, hhand.path_eq ▸ ((haudit.right t₃).right t₂).right t₁⟩
        dropped := ((hhand.dropped.right t₃).right t₂).right t₁
        lsmApplied := ⟨r, hr, ((hlsm.right t₃).right t₂).right t₁⟩ }⟩
      · rcases returns_runAuth hauth with hno | hts | ⟨password, hd⟩
        · exact Or.inl hno
        · exact Or.inr (Or.inl hts)
        · exact Or.inr (Or.inr ⟨password, hd.left _⟩)
      · exact ⟨t₁ ++ t₂, tr₃, by simp⟩

/-! ### The gate -/

/-- The values a run of `shk_run` computed on its way to `execve`. -/
structure ExecContext where
  cli : CliArgs
  callerUid : Nat
  caller : CStr
  policy : Policy
  /-- The group backend's state, as the two group lookups found it. -/
  nss : NssState
  nss' : NssState
  groups : List CStr
  authz : AuthzResult
  capMask : Nat
  targetUid : Nat
  targetGid : Nat

/-- **The gate.** In the run `tr`, everything that has to precede
`execve(path, argv, env)` has happened, with the values of `ctx` throughout. -/
structure ExecGate (args : List CStr) (ctx : ExecContext) (tr : Trace) (path : CStr)
    (argv : List CStr) : Prop where
  /-- The command line was parsed. -/
  parsed : Did tr (parseCliFrom args) (some ctx.cli)
  /-- The caller is whom the real uid names. -/
  callerUid : Did tr (sys .getuid) ctx.callerUid
  caller : ∃ gid, Did tr (identityLookupUid ctx.callerUid) (.found (ctx.caller, gid))
  policyLoaded : Did tr (loadPolicy ctx.cli.policy) (some ctx.policy)
  callerValid : validateUsername ctx.caller = .ok
  commandValid : validateCommand ctx.cli.argv ctx.policy.defaults.maxCommandLen = .ok
  groups : Did tr (identityLookupGroups ctx.nss ctx.caller) (ctx.groups, ctx.nss')
  /-- What is executed is the resolved command, with the caller's arguments. -/
  resolved : ∃ n buf, Did tr (resolveCommand (ctx.cli.argv.headD (cstr "")) [] 4096) (.ok n, buf) ∧
    path = CStr.read buf ∧ argv = ctx.cli.argv.set 0 path
  /-- The engine allowed exactly the vector that is executed, as the target. -/
  authz : ctx.authz = checkAuthorization ctx.policy ctx.caller (some ctx.groups) ctx.cli.target
    (shkJoinCommand argv)
  allowed : ctx.authz.allowed = true
  /-- No authentication was needed, a timestamp was valid, or a backend accepted. -/
  authenticated : ctx.authz.requireAuth = false ∨
    Did tr (checkTimestamp ctx.caller ctx.policy.defaults.timestampTtl) true ∨
    ∃ password, Did tr (authenticate ctx.caller password) 1
  /-- The deciding rule's capabilities are the mask the privilege drop was given. -/
  capabilities : capsParseSet ctx.authz.capabilities = some ctx.capMask
  target : Did tr (identityLookupUser ctx.cli.target) (.found (ctx.targetUid, ctx.targetGid))
  dropped : Did tr
    (dropPrivileges ctx.nss' ctx.cli.target ctx.targetUid ctx.targetGid ctx.capMask) ()
  logsOpen : LogsOpen ctx.policy.defaults.sessionLogDir ctx.caller ctx.authz.logSession
    ctx.authz.logInput tr
  /-- The `COMMAND` record with status `ALLOWED` is in the audit trail. -/
  audited : ∃ reason, Did tr (auditLog .command ctx.caller ctx.cli.target path true reason) ()
  lsmApplied : ∃ r, 0 ≤ r ∧ Did tr (lsmApplyExec ctx.authz.selinux ctx.authz.apparmor) r

theorem Prepared.mono {policy : Policy} {caller target : CStr} {eval : Evaluation}
    {capMask targetUid targetGid : Nat} {tr tr' : Trace}
    (h : Prepared nss policy caller target eval capMask targetUid targetGid tr path)
    (hsub : tr <:+: tr') :
    Prepared nss policy caller target eval capMask targetUid targetGid tr' path where
  path_eq := h.path_eq
  capMask_eq := h.capMask_eq
  authenticated := by
    rcases h.authenticated with hno | hts | ⟨password, hd⟩
    · exact Or.inl hno
    · exact Or.inr (Or.inl hts)
    · exact Or.inr (Or.inr ⟨password, hd.mono hsub⟩)
  targetFound := h.targetFound.mono hsub
  logsOpen := h.logsOpen.mono hsub
  audited := by
    obtain ⟨reason, hd⟩ := h.audited
    exact ⟨reason, hd.mono hsub⟩
  dropped := h.dropped.mono hsub
  lsmApplied := by
    obtain ⟨r, hr, hd⟩ := h.lsmApplied
    exact ⟨r, hr, hd.mono hsub⟩

theorem issues_runRequest {fuel : Nat} {cli : CliArgs} {policy : Policy} {caller : CStr}
    {callerUid callerGid : Nat} {groups : List CStr} (hsite : site ≠ .suAuthenticate)
    (h : Issues (runRequest fuel nss cli policy caller callerUid callerGid groups) tr
      (.execve site path argv env)) :
    ∃ eval authz capMask targetUid targetGid,
      Approved policy caller (some groups) cli.target cli.argv argv eval authz tr ∧
      Prepared nss policy caller cli.target eval capMask targetUid targetGid tr path := by
  obtain ⟨t₁, tr₁, ⟨eval, argv'⟩, rfl, heval, h⟩ := issues_after_quiet h hsite (by simp)
  dsimp only at h
  split at h
  · exact absurd h (Avoids.not_issues (P := TargetExec) (by simp) hsite)
  rename_i hauth
  obtain ⟨authz, happ⟩ := returns_evaluateWithPolicy heval (by simpa using hauth)
  obtain ⟨rfl, capMask, targetUid, targetGid, hprep⟩ := issues_runAuthorized hsite h
  exact ⟨eval, authz, capMask, targetUid, targetGid, happ.mono ⟨[], tr₁, rfl⟩,
    hprep.mono ⟨t₁, [], by simp⟩⟩

/-- From a loaded policy on, only a request reaches `execve`, and it does so with the
groups of the caller. -/
theorem issues_runPolicy {fuel : Nat} {cli : CliArgs} {policy : Policy} {caller : CStr}
    {callerUid callerGid : Nat} (hsite : site ≠ .suAuthenticate)
    (h : Issues (runPolicy fuel cli policy caller callerUid callerGid) tr
      (.execve site path argv env)) :
    ∃ nss nss' groups tr₁ tr₂, tr = tr₁ ++ tr₂ ∧
      Did tr₁ (identityLookupGroups nss caller) (groups, nss') ∧
      Issues (runRequest fuel nss' cli policy caller callerUid callerGid groups) tr₂
        (.execve site path argv env) := by
  unfold runPolicy at h
  dsimp only at h
  split at h
  · exact absurd h (Quiet.not_issues (by simp) hsite)
  obtain ⟨t₁, tr₁, ⟨status, nss⟩, rfl, -, h⟩ := issues_after_quiet h hsite (by simp)
  have hnss : Avoids TargetExec (auditNssBackend caller status) := by
    rcases status with _ | ready
    · simp [auditNssBackend]
    · cases ready <;> simp [auditNssBackend]
  obtain ⟨t₂, tr₂, _, rfl, -, h⟩ := h.bind_avoids hnss (P := TargetExec) hsite
  obtain ⟨t₃, tr₃, ⟨groups, nss'⟩, rfl, hgroups, h⟩ := issues_after_quiet h hsite (by simp)
  dsimp only at h
  split at h
  · exact absurd h (Quiet.not_issues (by simp) hsite)
  · exact ⟨nss, nss', groups, t₁ ++ (t₂ ++ t₃), tr₃, by simp,
      (hgroups.did.right t₂).right t₁, h⟩

/-- Only a run whose policy loaded gets past the modes. -/
theorem issues_runModes {fuel : Nat} {cli : CliArgs} {caller : CStr}
    {callerUid callerGid : Nat} (hsite : site ≠ .suAuthenticate)
    (h : Issues (runModes fuel cli caller callerUid callerGid) tr
      (.execve site path argv env)) :
    ∃ policy tr₁ tr₂, tr = tr₁ ++ tr₂ ∧ Returns (loadPolicy cli.policy) tr₁ (some policy) ∧
      Issues (runPolicy fuel cli policy caller callerUid callerGid) tr₂
        (.execve site path argv env) := by
  unfold runModes at h
  split at h
  · refine absurd h (Avoids.not_issues (P := TargetExec) ?_ hsite)
    simp [runInvalidate, Quiet.avoidsExec]
  split at h
  · exact absurd h (Quiet.not_issues (by simp) hsite)
  obtain ⟨t₁, tr₁, policy, rfl, hload, h⟩ := issues_after_quiet h hsite (by simp)
  cases policy with
  | none => exact absurd h (Quiet.not_issues (by simp) hsite)
  | some policy => exact ⟨policy, t₁, tr₁, rfl, hload, h⟩

/-- What a run has done before it evaluates its request: whose request it is, under
which policy, and with which groups. -/
structure Admitted (args : List CStr) (cli : CliArgs) (callerUid : Nat) (caller : CStr)
    (policy : Policy) (nss nss' : NssState) (groups : List CStr) (tr : Trace) : Prop where
  parsed : Did tr (parseCliFrom args) (some cli)
  uidRead : Did tr (sys .getuid) callerUid
  callerFound : ∃ gid, Did tr (identityLookupUid callerUid) (.found (caller, gid))
  policyLoaded : Did tr (loadPolicy cli.policy) (some policy)
  groupsFound : Did tr (identityLookupGroups nss caller) (groups, nss')

/-- Only the request of a run whose caller, policy and groups were found reaches
`execve`. -/
theorem issues_shkRun {fuel : Nat} {args : List CStr} (hsite : site ≠ .suAuthenticate)
    (h : Issues (shkRun fuel args) tr (.execve site path argv env)) :
    ∃ cli callerUid callerGid caller policy nss nss' groups tr₁ tr₂, tr = tr₁ ++ tr₂ ∧
      Admitted args cli callerUid caller policy nss nss' groups tr₁ ∧
      Issues (runRequest fuel nss' cli policy caller callerUid callerGid groups) tr₂
        (.execve site path argv env) := by
  obtain ⟨t₁, tr₁, _, rfl, -, h⟩ := issues_after_quiet h hsite (by simp [initTracing])
  obtain ⟨t₂, tr₂, cli, rfl, hcli, h⟩ := issues_after_quiet h hsite (by simp [parseCliFrom])
  cases cli with
  | none => exact absurd h (Quiet.not_issues (by simp) hsite)
  | some cli =>
    dsimp only at h
    split at h
    · exact absurd h (Quiet.not_issues (by simp) hsite)
    split at h
    · exact absurd h (Quiet.not_issues (by simp) hsite)
    obtain ⟨t₃, tr₃, callerUid, rfl, huid, h⟩ := issues_after_quiet h hsite (by simp)
    obtain ⟨t₄, tr₄, callerGid, rfl, -, h⟩ := issues_after_quiet h hsite (by simp)
    obtain ⟨t₅, tr₅, user, rfl, huser, h⟩ := issues_after_quiet h hsite (by simp)
    rcases user with - | - | ⟨caller, gid⟩
    · exact absurd h (Quiet.not_issues (by simp) hsite)
    · exact absurd h (Quiet.not_issues (by simp) hsite)
    obtain ⟨policy, t₆, tr₆, rfl, hload, h⟩ := issues_runModes hsite h
    obtain ⟨nss, nss', groups, t₇, tr₇, rfl, hgroups, h⟩ := issues_runPolicy hsite h
    refine ⟨cli, callerUid, callerGid, caller, policy, nss, nss', groups,
      t₁ ++ (t₂ ++ (t₃ ++ (t₄ ++ (t₅ ++ (t₆ ++ t₇))))), tr₇, by simp, ?_, h⟩
    exact {
      parsed := (hcli.did.left _).right t₁
      uidRead := ((huid.did.left _).right t₂).right t₁
      callerFound := ⟨gid, ((((huser.did.left _).right t₄).right t₃).right t₂).right t₁⟩
      policyLoaded :=
        (((((hload.did.left _).right t₅).right t₄).right t₃).right t₂).right t₁
      groupsFound := (((((hgroups.right t₆).right t₅).right t₄).right t₃).right t₂).right t₁ }

/-- **The exec gate of `shk_run`.** Whatever the machine answers, a run that is about
to execute the target's command has passed every check, on the values it executes
with. -/
theorem shkRun_execGate {fuel : Nat} {args : List CStr} (hsite : site ≠ .suAuthenticate)
    (h : Issues (shkRun fuel args) tr (.execve site path argv env)) :
    ∃ ctx, ExecGate args ctx tr path argv := by
  obtain ⟨cli, callerUid, callerGid, caller, policy, nss, nss', groups, tr₁, tr₂, rfl, hadm, h⟩ :=
    issues_shkRun hsite h
  obtain ⟨eval, authz, capMask, targetUid, targetGid, happ, hprep⟩ := issues_runRequest hsite h
  have hrest : tr₂ <:+: tr₁ ++ tr₂ := (List.suffix_append tr₁ tr₂).isInfix
  obtain ⟨n, buf, hres, hrc, hargv⟩ := happ.resolved
  have hpath : path = CStr.read buf := by simpa [hrc] using hprep.path_eq
  obtain ⟨gid, hcaller⟩ := hadm.callerFound
  refine ⟨⟨cli, callerUid, caller, policy, nss, nss', groups, authz, capMask, targetUid,
    targetGid⟩, {
      parsed := hadm.parsed.left tr₂
      callerUid := hadm.uidRead.left tr₂
      caller := ⟨gid, hcaller.left tr₂⟩
      policyLoaded := hadm.policyLoaded.left tr₂
      callerValid := happ.callerValid
      commandValid := happ.commandValid
      groups := hadm.groupsFound.left tr₂
      resolved := ⟨n, buf, hres.mono hrest, hpath, hpath ▸ hargv⟩
      authz := happ.authz_eq
      allowed := happ.allowed
      authenticated := ?_
      capabilities := happ.capabilities ▸ hprep.capMask_eq
      target := hprep.targetFound.mono hrest
      dropped := hprep.dropped.mono hrest
      logsOpen := happ.logSession ▸ happ.logInput ▸ hprep.logsOpen.mono hrest
      audited := (hprep.mono hrest).audited
      lsmApplied := happ.selinux ▸ happ.apparmor ▸ (hprep.mono hrest).lsmApplied }⟩
  rcases hprep.authenticated with hno | hts | ⟨password, hd⟩
  · exact Or.inl (happ.requireAuth ▸ hno)
  · exact Or.inr (Or.inl ((happ.timestamp hts).mono hrest))
  · exact Or.inr (Or.inr ⟨password, hd.mono hrest⟩)

/-- A machine on which the policy lets `al` run `id` as root without a password. -/
def idMachine : FileView := rootFiles
  [(cstr "/etc/passwd", 420, twoUsers),
    (defaultPolicyPath, 384, utf8 "[[rules]]\nuser=\"al\"\nrequire_auth=false\n"),
    (cstr "/bin/id", 493, [])]

theorem shkRun_execGate_id :
    ∃ ctx, ExecGate [cstr "shakti", cstr "/bin/id"] ctx
      (play idMachine.machine ⟨1000, 1000, []⟩ (shkRun 1 [cstr "shakti", cstr "/bin/id"])).1
      (cstr "/bin/id") [cstr "/bin/id"] := by
  have h : Issues (shkRun 1 [cstr "shakti", cstr "/bin/id"])
      (play idMachine.machine ⟨1000, 1000, []⟩ (shkRun 1 [cstr "shakti", cstr "/bin/id"])).1
      (SysCall.execve .execTarget (cstr "/bin/id") [cstr "/bin/id"]
        (fixedEnv ⟨cstr "al", 1000, 1000, cstr "root", cstr "/root", cstr "/bin/sh"⟩)) :=
    play_issues (by decide)
  exact shkRun_execGate (by decide) h

end Shakti
