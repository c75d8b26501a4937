import Shakti.Api
import Shakti.Cli
import Shakti.Exec
import Shakti.Policy.Lint

/-!
# Shakti.Main

The command-line program (`main.cyr`): `shk_run`, from the argument vector to
`execve` or an exit status, with the listing and checking modes.

`shk_run` is one long function in the source. It is cut here where it changes
subject: the caller and the modes (`shkRun`, `runModes`), the request
(`runRequest`), its authentication (`runAuth`), the logs (`openLogs`), and the
hand-over to an exec path (`runExec`).
-/

namespace Shakti

open Effects

/-! ### Listing and checking -/

/-- One line of `_list_permissions`. -/
def listLine (r : Rule) (what : Bytes) : Sys Unit := do
  fileWrite 1 (utf8 "    (")
  fileWrite 1 r.runAs.bytes
  fileWrite 1 (utf8 ") ")
  (if !r.requireAuth then fileWrite 1 (utf8 "NOPASSWD: ") else pure ())
  fileWrite 1 what

/-- The patterns of one listed rule. -/
def listCommands (r : Rule) : List CStr → Sys Unit
  | [] => pure ()
  | c :: cs => do
      listLine r c.bytes
      fileWrite 1 (utf8 "\n")
      listCommands r cs

/-- The rule loop of `_list_permissions`. -/
def listRules (username : CStr) (groups : Option (List CStr)) : List Rule → Bool → Sys Unit
  | [], found => if !found then fileWrite 1 (utf8 "    (none)\n") else pure ()
  | r :: rs, found =>
      if userMatches r username || groupMatches r groups then do
        (if r.commands = [] then listLine r (utf8 "ALL\n") else listCommands r r.commands)
        listRules username groups rs true
      else listRules username groups rs found

/-- `_list_permissions`. -/
def listPermissions (policy : Policy) (username : CStr) (groups : Option (List CStr)) :
    Sys Unit := do
  fileWrite 1 (utf8 "User ")
  fileWrite 1 username.bytes
  fileWrite 1 (utf8 " may run:\n\n")
  listRules username groups policy.rules false

/-- The rule a warning is about, when it is about one. -/
def printRuleIndex : Option Nat → Sys Unit
  | none => pure ()
  | some i => do
      fileWrite 1 (utf8 "rule[")
      fileWrite 1 (decimal i).bytes
      fileWrite 1 (utf8 "]: ")

/-- The print loop of `_check_policy`; `errors` counts the errors printed. -/
def printWarnings : List LintWarning → Nat → Sys Nat
  | [], errors => pure errors
  | w :: ws, errors => do
      fileWrite 1 (utf8 (if w.severity = .error then "  [ERROR] " else "  [WARN]  "))
      printRuleIndex w.ruleIndex
      fileWrite 1 w.message.bytes
      fileWrite 1 (utf8 "\n")
      printWarnings ws (if w.severity = .error then errors + 1 else errors)

/-- `_check_policy`. -/
def checkPolicy (policy : Policy) : Sys Int := do
  let warns := lintPolicy policy
  let errors ← printWarnings warns 0
  (if warns = [] then fileWrite 1 (utf8 "No issues found.\n") else pure ())
  if 0 < errors then pure 1 else pure 0

/-! ### Messages and signals -/

/-- `_print_usage`. -/
def printUsage : Sys Unit := do
  writeLine 2 (cstr "Usage: shakti [OPTIONS] [--] COMMAND [ARGS...]\n\n")
  writeLine 2 (cstr "AGNOS privilege escalation tool.\n\nOptions:\n")
  writeLine 2 (cstr "  -u, --user USER      Run command as USER (default: root)\n")
  writeLine 2 (cstr "  -p, --policy FILE    Use alternate policy file\n")
  writeLine 2 (cstr "  -k, --invalidate     Invalidate cached credentials\n")
  writeLine 2 (cstr "  -l, --list           List allowed commands for current user\n")
  writeLine 2 (cstr "  -c, --check          Lint the policy file\n")
  writeLine 2 (cstr "  -h, --help           Show this help message\n")
  writeLine 2 (cstr "  -V, --version        Show version\n")

/-- `shakti_version_string`. -/
def shaktiVersionString : CStr := cstr "shakti 0.7.0 (cyrius port)"

/-- `shakti: <msg>` on stderr. -/
def complain (msg : CStr) : Sys Unit := do
  fileWrite 2 (utf8 "shakti: ")
  fileWrite 2 msg.bytes
  fileWrite 2 (utf8 "\n")

/-- `_build_auth_sigmask`: SIGINT, SIGQUIT and SIGTSTP. -/
def buildAuthSigmask : Nat := 1 <<< 1 ||| 1 <<< 2 ||| 1 <<< 19

/-- `_mask_auth_signals`: the signal mask that was in force before. -/
def maskAuthSignals : Sys Nat := sys (.sigprocmask sigBlock buildAuthSigmask)

/-- `_restore_signals`. -/
def restoreSignals (old : Nat) : Sys Unit := do
  let _ ← sys (.sigprocmask sigSetmask old)
  pure ()

/-! ### The run -/

/-- The session logs of a request: whether the transcript and the keystrokes are
logged, whether the command runs on a pseudo-terminal, and the descriptors (`-1`
for a log that is not asked for). -/
structure SessionLogs where
  doLog : Bool
  doInput : Bool
  usePty : Bool
  logfd : Int
  inlogfd : Int

/-- The reason text of the `COMMAND` audit record of an authorized request. -/
def authorizedReason (capMask : Nat) (logs : SessionLogs) (seCtx aaProf : CStr) : CStr :=
  cstr "authorized ; CAPS=" ++ capsDescribe capMask
    ++ cstr " ; SESSION_LOG=" ++ (if logs.doLog then cstr "on" else cstr "off")
    ++ cstr " ; INPUT_LOG=" ++ (if logs.doInput then cstr "on" else cstr "off")
    ++ cstr " ; PTY=" ++ (if logs.usePty then cstr "on" else cstr "off")
    ++ (if logs.usePty && !logs.doLog then cstr " (lateral-uid TIOCSTI isolation)" else cstr "")
    ++ cstr " ; LSM=" ++ lsmDescribe seCtx aaProf

/-- The audit record of the authorized command, and the hand-over to the direct or
the pseudo-terminal exec path. -/
def runExec (fuel : Nat) (nss : NssState) (caller target : CStr) (req : ExecRequest)
    (logs : SessionLogs) : Sys Int := do
  auditLog .command caller target req.resolved true
    (authorizedReason req.capMask logs req.seCtx req.aaProf)
  if logs.usePty then execTargetPty fuel nss req logs.logfd logs.inlogfd caller
  else do
    let _ ← execTarget nss req
    pure 127

/-- The transcript and keystroke logs. A log that is required and cannot be opened
ends the run: `none`, reported and audited. -/
def openLogs (sessDir caller target resolved : CStr) (doLog logInput usePty : Bool) :
    Sys (Option SessionLogs) :=
  if doLog then do
    let logfd ← openSessionLog sessDir caller (cstr ".log")
    if logfd < 0 then do
      auditLog .command caller target resolved false
        (cstr "session logging required but log could not be opened")
      writeLine 2 (cstr
        "shakti: cannot open session log (session_log_dir must be root-owned); refusing\n")
      pure none
    else if logInput then do
      let inlogfd ← openSessionLog sessDir caller (cstr ".input.log")
      if inlogfd < 0 then do
        auditLog .command caller target resolved false
          (cstr "keystroke logging required but input log could not be opened")
        writeLine 2 (cstr "shakti: cannot open keystroke log; refusing\n")
        pure none
      else pure (some ⟨true, true, usePty, logfd, inlogfd⟩)
    else pure (some ⟨true, false, usePty, logfd, -1⟩)
  else pure (some ⟨false, false, usePty, -1, -1⟩)

/-- Authentication, when the evaluation asks for it and no valid timestamp stands
in for it. The result is whether the run goes on. -/
def runAuth (caller target resolved : CStr) (eval : Evaluation) : Sys Bool :=
  if eval.requireAuth && !eval.timestampValid then do
    let saved ← maskAuthSignals
    let ok ← promptAndAuthenticate caller
    restoreSignals saved
    if !ok then do
      auditLog .authFailure caller target resolved false (cstr "auth failed")
      fileWrite 2 (utf8 "shakti: authentication failure\n")
      pure false
    else do
      let _ ← updateTimestamp caller
      pure true
  else pure true

/-- From an authorized evaluation to the exec paths: the capability mask,
authentication, the target's ids, the logs. -/
def runAuthorized (fuel : Nat) (nss : NssState) (policy : Policy) (caller : CStr)
    (callerUid : Nat) (target : CStr) (eval : Evaluation) (argv : List CStr) : Sys Int := do
  let resolved := eval.resolvedCommand.getD (cstr "")
  match capsParseSet eval.capabilities with
  | none => do
      auditLog .command caller target resolved false
        (cstr "policy names an unknown capability")
      writeLine 2 (cstr "shakti: policy rule names an unknown capability; refusing to exec\n")
      pure 1
  | some capMask => do
      let ok ← runAuth caller target resolved eval
      if !ok then pure 1
      else do
        let user ← identityLookupUser target
        match user with
        | .found (targetUid, targetGid) => do
            let usePty := sessionNeedsPty eval.logSession callerUid targetUid
            let logs ← openLogs policy.defaults.sessionLogDir caller target resolved
              eval.logSession eval.logInput usePty
            match logs with
            | none => pure 1
            | some logs =>
                runExec fuel nss caller target
                  { resolved := resolved
                    argv := argv
                    env := eval.environment.getD []
                    targetUser := target
                    targetUid := targetUid
                    targetGid := targetGid
                    capMask := capMask
                    seCtx := eval.selinuxContext
                    aaProf := eval.apparmorProfile }
                  logs
        | _ => do
            fileWrite 2 (utf8 "shakti: cannot resolve target user\n")
            pure 1

/-- The evaluation of the request under the policy. -/
def runRequest (fuel : Nat) (nss : NssState) (cli : CliArgs) (policy : Policy) (caller : CStr)
    (callerUid callerGid : Nat) (groups : List CStr) : Sys Int := do
  let (eval, argv) ← evaluateWithPolicy fuel ⟨cli.policy, cli.target, .interactive⟩ policy
    caller callerUid callerGid (some groups) cli.argv
  if !eval.authorized then do
    auditLog .command caller cli.target (eval.resolvedCommand.getD (cstr "")) false
      eval.errorMsg
    complain eval.errorMsg
    pure 1
  else runAuthorized fuel nss policy caller callerUid cli.target eval argv

/-- The audit record of the group backend, when NSS was asked for. -/
def auditNssBackend (caller : CStr) : Option Bool → Sys Unit
  | some true => auditLog .nssBackend caller (cstr "") (cstr "") true
      (cstr "nss group dispatch ready (getgrouplist via trusted helper)")
  | some false => auditLog .nssBackend caller (cstr "") (cstr "") false
      (cstr "nss_groups requested but helper unavailable; using /etc/group")
  | none => pure ()

/-- From a loaded policy on: the check and list modes, or the request. -/
def runPolicy (fuel : Nat) (cli : CliArgs) (policy : Policy) (caller : CStr)
    (callerUid callerGid : Nat) : Sys Int :=
  let nss := identitySetNssGroups nssInitial policy.defaults.nssGroups
  if cli.check then checkPolicy policy
  else do
    let (status, nss) ← identityNssStatus nss
    auditNssBackend caller status
    let (groups, nss) ← identityLookupGroups nss caller
    if cli.list then do
      listPermissions policy caller (some groups)
      pure 0
    else runRequest fuel nss cli policy caller callerUid callerGid groups

/-- The invalidate mode. -/
def runInvalidate (cli : CliArgs) (caller : CStr) : Sys Int := do
  let ir ← invalidateTimestamp caller
  if ir = .ok then do
    auditLog .timestampInvalidated caller cli.target (cstr "") true (cstr "user-requested")
    pure 0
  else do
    complain (shkErrMsg ir)
    pure 1

/-- From a resolved caller on: the invalidate mode, the usage check, the policy. -/
def runModes (fuel : Nat) (cli : CliArgs) (caller : CStr) (callerUid callerGid : Nat) :
    Sys Int :=
  if cli.invalidate then runInvalidate cli caller
  else if !cli.check && !cli.list && cli.argv.isEmpty then do
    printUsage
    pure 1
  else do
    let policy ← loadPolicy cli.policy
    match policy with
    | none => do
        writeLine 2 (cstr "shakti: failed to load policy\n")
        pure 1
    | some policy => runPolicy fuel cli policy caller callerUid callerGid

/-- `shk_run` on the words of the command line. `fuel` bounds the loops whose length
the kernel decides (the terminal relay, the read of the environment): past it the
next call never returns. -/
def shkRun (fuel : Nat) (args : List CStr) : Sys Int := do
  initTracing
  let cli ← parseCliFrom args
  match cli with
  | none => do
      printUsage
      pure 1
  | some cli =>
      if cli.help then do
        printUsage
        pure 0
      else if cli.version then do
        fileWrite 1 shaktiVersionString.bytes
        fileWrite 1 (utf8 "\n")
        pure 0
      else do
        let callerUid : Nat ← sys .getuid
        let callerGid : Nat ← sys .getgid
        let user ← identityLookupUid callerUid
        match user with
        | .found (caller, _) => runModes fuel cli caller callerUid callerGid
        | _ => do
            fileWrite 2 (utf8 "shakti: cannot resolve caller username\n")
            pure 1

end Shakti
