import Shakti.Machine
import Shakti.Main

/-!
# Shakti.CallClasses

What the functions of the sources do to the machine, in classes of the calls they make.

* `Looking` — the program only looks: at the clock, at files and directories, at the group
  database, at the ids of the process.
* `Asking` — it may also call the libc functions of the NSS backend.
* `Writing` — it may also write to open descriptors.
* `Telling` — it may also write to the audit trail and to the log.
* `Using` — it may write, and do with a descriptor it has what does not change files.
* `Confirming` — it may use descriptors, and what the two password backends use.
* `Filing` — it may write, and make, open and remove files.
* `Dropping` — it may look, ask and write, change the credentials, and exit.

Each function is in the smallest class that fits. Whatever calls a property is about, a function
of one of these classes avoids them by class (`Prog.Avoids.mono`); only what is in none of them is
left to be looked at one by one.
-/

namespace Shakti

open Effects Effects.Prog

/-- The calls that do more than write. -/
@[simp] def BeyondTelling : SysCall → Prop
  | .alloc _ | .getuid | .getgid | .getpid | .clockGettime | .stat _ | .lstat _ | .readlink _
  | .readFile _ | .dirList _ | .capget _ _ | .grpGetgrouplist _ _ _ | .grpGetgrgid _
  | .fdlopenInitTrusted | .dlopen _ | .dlsym _ _ | .getgrouplist _ _ _ _ | .getgrgidR _ _
  | .write _ _ | .sakshiSetLevel | .sakshiInfo _ | .sakshiWarn _ => False
  | .appendLocked path _ => path ≠ defaultAuditLogPath
  | _ => True

/-- The calls that do more than look or ask. -/
@[simp] def BeyondAsking : SysCall → Prop
  | .write _ _ | .appendLocked _ _ | .sakshiSetLevel | .sakshiInfo _ | .sakshiWarn _ => True
  | c => BeyondTelling c

/-- The calls of the NSS backend. -/
@[simp] def Foreign : SysCall → Prop
  | .fdlopenInitTrusted | .dlopen _ | .dlsym _ _ | .getgrouplist _ _ _ _ | .getgrgidR _ _ => True
  | _ => False

/-- The calls that do more than look. -/
@[simp] def BeyondLooking (c : SysCall) : Prop := Foreign c ∨ BeyondAsking c

/-- No run of the program does more than look. -/
abbrev Looking {α : Type} (p : Sys α) : Prop := Avoids BeyondLooking p

/-- No run of the program does more than look and ask. -/
abbrev Asking {α : Type} (p : Sys α) : Prop := Avoids BeyondAsking p

/-- No run of the program does more than look, ask and write. -/
abbrev Telling {α : Type} (p : Sys α) : Prop := Avoids BeyondTelling p

theorem BeyondTelling.asking {c : SysCall} (hc : BeyondTelling c) : BeyondAsking c := by
  cases c <;> simp_all

@[simp] theorem Looking.asking {α : Type} {p : Sys α} (hp : Looking p) : Asking p :=
  hp.mono fun _ => Or.inr

@[simp] theorem Asking.telling {α : Type} {p : Sys α} (hp : Asking p) : Telling p :=
  hp.mono fun _ => BeyondTelling.asking

/-- The calls that do more than look, ask and write. -/
@[simp] def BeyondWriting : SysCall → Prop
  | .appendLocked _ _ | .sakshiSetLevel | .sakshiInfo _ | .sakshiWarn _ => True
  | c => BeyondTelling c

/-- The calls that do more than write, and use descriptors. -/
@[simp] def BeyondUsing : SysCall → Prop
  | .read _ _ | .ioctl _ _ _ | .poll _ | .close _ | .signalfd _ | .sigprocmask _ _ | .blocked =>
      False
  | c => BeyondWriting c

/-- The calls that do more than use descriptors, and confirm a password. -/
@[simp] def BeyondConfirming : SysCall → Prop
  | .pamUnixAuthenticate _ _ | .pipe | .fork | .waitpid _ | .dup2 _ _
  | .execve .suAuthenticate _ _ _ => False
  | .open path flags mode => ¬ (path = cstr "/dev/null" ∧ flags = oWronly ∧ mode = 0)
  | .exit code => code ≠ 127
  | c => BeyondUsing c

/-- The calls that do more than write, and make, open and remove files. -/
@[simp] def BeyondFiling : SysCall → Prop
  | .open _ _ _ | .openat _ _ _ _ | .fstatat _ | .mkdir _ _ | .unlink _ | .close _ => False
  | c => BeyondWriting c

/-- The calls that do more than write, and drop privileges or give up. -/
@[simp] def BeyondDropping : SysCall → Prop
  | .setgroups _ | .setgid _ | .setuid _ | .prctl _ _ _ | .capset _ _ _ => False
  | .exit code => code ≠ 1
  | c => BeyondWriting c

/-- No run of the program does more than look, ask and write to descriptors. -/
abbrev Writing {α : Type} (p : Sys α) : Prop := Avoids BeyondWriting p

/-- No run of the program does more than write and use descriptors. -/
abbrev Using {α : Type} (p : Sys α) : Prop := Avoids BeyondUsing p

/-- No run of the program does more than confirm a password. -/
abbrev Confirming {α : Type} (p : Sys α) : Prop := Avoids BeyondConfirming p

/-- No run of the program does more than write and handle files. -/
abbrev Filing {α : Type} (p : Sys α) : Prop := Avoids BeyondFiling p

/-- No run of the program does more than write and drop privileges. -/
abbrev Dropping {α : Type} (p : Sys α) : Prop := Avoids BeyondDropping p

theorem BeyondWriting.asking {c : SysCall} (hc : BeyondWriting c) : BeyondAsking c := by
  cases c <;> simp_all

theorem BeyondTelling.writing {c : SysCall} (hc : BeyondTelling c) : BeyondWriting c := by
  cases c <;> simp_all

theorem BeyondUsing.writing {c : SysCall} (hc : BeyondUsing c) : BeyondWriting c := by
  cases c <;> simp_all

theorem BeyondConfirming.using {c : SysCall} (hc : BeyondConfirming c) : BeyondUsing c := by
  cases c with
  | execve => trivial
  | _ => simp_all

theorem BeyondFiling.writing {c : SysCall} (hc : BeyondFiling c) : BeyondWriting c := by
  cases c <;> simp_all

theorem BeyondDropping.writing {c : SysCall} (hc : BeyondDropping c) : BeyondWriting c := by
  cases c <;> simp_all

@[simp] theorem Asking.writing {α : Type} {p : Sys α} (hp : Asking p) : Writing p :=
  hp.mono fun _ => BeyondWriting.asking

@[simp] theorem Writing.telling {α : Type} {p : Sys α} (hp : Writing p) : Telling p :=
  hp.mono fun _ => BeyondTelling.writing

@[simp] theorem Writing.using {α : Type} {p : Sys α} (hp : Writing p) : Using p :=
  hp.mono fun _ => BeyondUsing.writing

@[simp] theorem Asking.using {α : Type} {p : Sys α} (hp : Asking p) : Using p := hp.writing.using

@[simp] theorem Using.confirming {α : Type} {p : Sys α} (hp : Using p) : Confirming p :=
  hp.mono fun _ => BeyondConfirming.using

@[simp] theorem Writing.confirming {α : Type} {p : Sys α} (hp : Writing p) : Confirming p :=
  hp.using.confirming

@[simp] theorem Writing.filing {α : Type} {p : Sys α} (hp : Writing p) : Filing p :=
  hp.mono fun _ => BeyondFiling.writing

@[simp] theorem Asking.filing {α : Type} {p : Sys α} (hp : Asking p) : Filing p :=
  hp.writing.filing

@[simp] theorem Writing.dropping {α : Type} {p : Sys α} (hp : Writing p) : Dropping p :=
  hp.mono fun _ => BeyondDropping.writing

@[simp] theorem Asking.dropping {α : Type} {p : Sys α} (hp : Asking p) : Dropping p :=
  hp.writing.dropping

theorem FileOnly.looking {α : Type} {p : Sys α} (hp : FileOnly p) : Looking p :=
  hp.mono fun c hc => by cases c <;> simp_all

/-! ### Commands and LSMs -/

@[simp] theorem looking_fileReadAll (path : CStr) (cap : Nat) : Looking (fileReadAll path cap) := by
  simp [fileReadAll]

@[simp] theorem looking_isExecutable (path : CStr) : Looking (isExecutable path) := by
  refine .bind (by simp) fun st => ?_
  cases st <;> simp

@[simp] theorem looking_resolveInPath (cmd : CStr) (outCap : Nat) (segs : List Bytes)
    (out : Bytes) : Looking (resolveInPath cmd outCap segs out) := by
  induction segs generalizing out with
  | nil => simp [resolveInPath]
  | cons seg segs ih => simp [resolveInPath, ih]

@[simp] theorem looking_resolveCommand (cmd : CStr) (out : Bytes) (outCap : Nat) :
    Looking (resolveCommand cmd out outCap) := by
  simp [resolveCommand]

@[simp] theorem looking_lsmActiveHas (name : CStr) : Looking (lsmActiveHas name) := by
  refine .bind (by simp) fun buf => avoids_ite.mpr ⟨by simp, fun _ => ?_⟩
  refine .bind (by simp) fun content => ?_
  rcases content with _ | (_ | ⟨b, bs⟩) <;> simp

@[simp] theorem looking_capsCapgetEffective : Looking capsCapgetEffective :=
  avoids_capsCapgetEffective (by simp) (by simp)

@[simp] theorem filing_writeExecAttr (fd : Int) (data : Bytes) :
    Filing (writeExecAttr fd data) := by
  simp [writeExecAttr]

@[simp] theorem filing_lsmSetSelinuxExec (ctx : CStr) : Filing (lsmSetSelinuxExec ctx) := by
  simp [lsmSetSelinuxExec]

@[simp] theorem filing_lsmSetApparmorExec (profile : CStr) :
    Filing (lsmSetApparmorExec profile) := by
  simp [lsmSetApparmorExec]

@[simp] theorem filing_lsmApplyExec (selinuxCtx apparmorProfile : CStr) :
    Filing (lsmApplyExec selinuxCtx apparmorProfile) := by
  simp [lsmApplyExec]

/-! ### Users and groups -/

@[simp] theorem looking_identityLookupUid (uid : Nat) : Looking (identityLookupUid uid) := by
  refine .bind (by simp) fun content => ?_
  cases content <;> simp

@[simp] theorem looking_identityLookupUser (name : CStr) : Looking (identityLookupUser name) := by
  refine avoids_ite.mpr ⟨by simp, fun _ => .bind (by simp) fun content => ?_⟩
  cases content <;> simp

@[simp] theorem looking_targetHome (username : CStr) : Looking (targetHome username) := by
  refine avoids_ite.mpr ⟨by simp, fun _ => .bind (by simp) fun content => ?_⟩
  split <;> simp

@[simp] theorem looking_targetShell (username : CStr) : Looking (targetShell username) := by
  refine .bind (by simp) fun content => ?_
  split <;> simp

/-- The calls a gid lookup does not make: it only asks the two group backends. -/
@[simp] def BeyondLookup : SysCall → Prop
  | .fdlopenInitTrusted | .dlopen _ | .dlsym _ _ | .getgrouplist _ _ _ _
  | .grpGetgrouplist _ _ _ => False
  | _ => True

theorem beyondLookup_of_beyondAsking {c : SysCall} (hc : BeyondAsking c) : BeyondLookup c := by
  cases c <;> simp_all

@[simp] theorem lookupOnly_identityNssInit (nss : NssState) :
    Avoids BeyondLookup (identityNssInit nss) := by
  unfold identityNssInit
  split <;> simp

@[simp] theorem lookupOnly_useNss (nss : NssState) : Avoids BeyondLookup (useNss nss) := by
  simp [useNss]

@[simp] theorem lookupOnly_getgrouplist (viaNss : Bool) (nss : NssState) (user : CStr)
    (gid : Int) (max : Nat) :
    Avoids BeyondLookup (getgrouplist viaNss nss user gid max) := by
  simp [getgrouplist, identityNssGetgrouplist]

theorem lookupOnly_identityLookupGids (nss : NssState) (username : CStr)
    (primaryGid maxCount : Nat) :
    Avoids BeyondLookup (identityLookupGids nss username primaryGid maxCount) := by
  refine avoids_ite.mpr ⟨by simp, fun _ => avoids_ite.mpr ⟨by simp, fun _ => ?_⟩⟩
  refine .bind (by simp) fun viaNss => .bind (by simp) ?_
  rintro ⟨⟨n, gids⟩, viaNss, nss⟩
  cases hw : gidsWritten n maxCount <;> simp [hw]

@[simp] theorem asking_identityNssInit (nss : NssState) : Asking (identityNssInit nss) :=
  (lookupOnly_identityNssInit nss).mono fun _ => beyondLookup_of_beyondAsking

@[simp] theorem asking_identityNssStatus (nss : NssState) : Asking (identityNssStatus nss) := by
  simp [identityNssStatus]

@[simp] theorem asking_useNss (nss : NssState) : Asking (useNss nss) :=
  (lookupOnly_useNss nss).mono fun _ => beyondLookup_of_beyondAsking

@[simp] theorem asking_getgrouplist (viaNss : Bool) (nss : NssState) (user : CStr) (gid : Int)
    (max : Nat) : Asking (getgrouplist viaNss nss user gid max) :=
  (lookupOnly_getgrouplist viaNss nss user gid max).mono fun _ => beyondLookup_of_beyondAsking

@[simp] theorem asking_groupName (viaNss : Bool) (nss : NssState) (gid : Nat) :
    Asking (groupName viaNss nss gid) := by
  refine avoids_ite.mpr ⟨fun _ => ?_, fun _ => .bind (by simp) fun name => ?_⟩
  · refine avoids_ite.mpr ⟨by simp, fun _ => .bind (by simp) fun r => ?_⟩
    rcases r with ⟨rc, _ | name⟩ <;> simp
  · cases name <;> simp

@[simp] theorem asking_groupNames (viaNss : Bool) (nss : NssState) (gids : List Nat) :
    Asking (groupNames viaNss nss gids) := by
  induction gids with
  | nil => simp [groupNames]
  | cons gid gids ih => simp [groupNames, ih]

@[simp] theorem asking_identityLookupGroups (nss : NssState) (username : CStr) :
    Asking (identityLookupGroups nss username) := by
  refine avoids_ite.mpr ⟨by simp, fun _ => ?_⟩
  refine .bind (by simp) fun viaNss => .bind (by simp) fun user => .bind (by simp) fun r => ?_
  obtain ⟨⟨n, gids⟩, viaNss, nss⟩ := r
  cases hw : gidsWritten n 256 <;> simp [hw]

@[simp] theorem asking_identityLookupGids (nss : NssState) (username : CStr)
    (primaryGid maxCount : Nat) : Asking (identityLookupGids nss username primaryGid maxCount) :=
  (lookupOnly_identityLookupGids nss username primaryGid maxCount).mono
    fun _ => beyondLookup_of_beyondAsking

/-! ### Policies -/

@[simp] theorem fileOnly_fileReadAll (path : CStr) (cap : Nat) :
    FileOnly (fileReadAll path cap) := by
  simp [fileReadAll]

@[simp] theorem fileOnly_loadFragment (path : CStr) : FileOnly (loadFragment path) := by
  refine .bind (by simp) fun st => ?_
  rcases st with _ | st
  · simp
  · refine avoids_ite.mpr ⟨fun _ => .bind (by simp) fun content => ?_, by simp⟩
    rcases content with _ | (_ | ⟨b, bs⟩) <;> simp

@[simp] theorem fileOnly_loadFragmentLoop (dir : CStr) (names : List CStr) :
    FileOnly (loadFragmentLoop dir names) := by
  induction names with
  | nil => simp [loadFragmentLoop]
  | cons name names ih => simp [loadFragmentLoop, ih]

@[simp] theorem fileOnly_shkLoadFragments (dir : CStr) : FileOnly (shkLoadFragments dir) := by
  refine .bind (by simp) fun st => ?_
  cases st <;> simp

@[simp] theorem fileOnly_loadPolicyBytes (bytes : Bytes) :
    FileOnly (loadPolicyBytes bytes) := by
  unfold loadPolicyBytes
  dsimp only
  split <;> simp

/-- Loading a policy looks at files only. -/
@[simp] theorem fileOnly_loadPolicy (path : CStr) : FileOnly (loadPolicy path) := by
  refine .bind (by simp) fun st => ?_
  rcases st with _ | st
  · simp
  · refine avoids_ite.mpr ⟨fun _ => .bind (by simp) fun content => ?_, by simp⟩
    rcases content with _ | (_ | ⟨b, bs⟩) <;> simp

@[simp] theorem looking_loadPolicy (path : CStr) : Looking (loadPolicy path) :=
  (fileOnly_loadPolicy path).looking

/-! ### Timestamps and session logs -/

@[simp] theorem looking_shkNowSecs : Looking shkNowSecs := by
  simp [shkNowSecs]

@[simp] theorem looking_shkTtySession : Looking shkTtySession := by
  simp [shkTtySession]

@[simp] theorem looking_timestampPath (user : CStr) : Looking (timestampPath user) := by
  simp [timestampPath]

@[simp] theorem looking_checkTimestamp (user : CStr) (ttl : Nat) :
    Looking (checkTimestamp user ttl) := by
  refine .bind (by simp) fun path => .bind (by simp) fun st => ?_
  cases st <;> simp

@[simp] theorem filing_shkEnsureTsDir : Filing shkEnsureTsDir := by
  refine .bind (by simp) fun st => ?_
  cases st <;> simp

@[simp] theorem filing_updateTimestamp (user : CStr) : Filing (updateTimestamp user) := by
  unfold updateTimestamp
  split <;> simp

@[simp] theorem filing_invalidateTimestamp (user : CStr) :
    Filing (invalidateTimestamp user) := by
  unfold invalidateTimestamp
  split
  · refine .bind (by simp) fun path => .bind (by simp) fun st => ?_
    cases st <;> simp
  · simp

@[simp] theorem filing_openSessionLog (dir caller suffix : CStr) :
    Filing (openSessionLog dir caller suffix) := by
  refine .bind (by simp) fun dfd => avoids_ite.mpr ⟨by simp, fun _ => ?_⟩
  refine .bind (by simp) fun stbuf => .bind (by simp) fun st => ?_
  cases st <;> simp

/-! ### Writing -/

@[simp] theorem writing_fileWrite (fd : Int) (data : Bytes) : Writing (fileWrite fd data) := by
  simp [fileWrite]

@[simp] theorem writing_writeLine (fd : Int) (s : CStr) : Writing (writeLine fd s) :=
  writing_fileWrite fd s.bytes

@[simp] theorem writing_complain (msg : CStr) : Writing (complain msg) := by
  simp [complain]

@[simp] theorem writing_printUsage : Writing printUsage := by
  simp [printUsage]

@[simp] theorem writing_parseCliLoop (cli : CliArgs) (args : List CStr) :
    Writing (parseCliLoop cli args) := by
  fun_induction parseCliLoop cli args <;> simp [*]

@[simp] theorem writing_parseCliFrom (args : List CStr) : Writing (parseCliFrom args) :=
  writing_parseCliLoop ..

@[simp] theorem writing_listLine (r : Rule) (what : Bytes) : Writing (listLine r what) := by
  simp [listLine]

@[simp] theorem writing_listCommands (r : Rule) (cs : List CStr) :
    Writing (listCommands r cs) := by
  induction cs with
  | nil => simp [listCommands]
  | cons c cs ih => simp [listCommands, ih]

@[simp] theorem writing_listRules (username : CStr) (groups : Option (List CStr))
    (rules : List Rule) (found : Bool) : Writing (listRules username groups rules found) := by
  induction rules generalizing found with
  | nil => simp [listRules]
  | cons r rules ih => simp [listRules, ih]

@[simp] theorem writing_listPermissions (policy : Policy) (username : CStr)
    (groups : Option (List CStr)) : Writing (listPermissions policy username groups) := by
  simp [listPermissions]

@[simp] theorem writing_printRuleIndex (index : Option Nat) : Writing (printRuleIndex index) := by
  cases index <;> simp [printRuleIndex]

@[simp] theorem writing_printWarnings (ws : List LintWarning) (errors : Nat) :
    Writing (printWarnings ws errors) := by
  induction ws generalizing errors with
  | nil => simp [printWarnings]
  | cons w ws ih => simp [printWarnings, ih]

@[simp] theorem writing_checkPolicy (policy : Policy) : Writing (checkPolicy policy) := by
  simp [checkPolicy]

@[simp] theorem writing_sessionFullWrite (fd : Int) (fuel : Nat) (data : Bytes) :
    Writing (sessionFullWrite fd fuel data) :=
  avoids_sessionFullWrite (by simp) fuel data

@[simp] theorem writing_fullWrite (fd : Int) (data : Bytes) : Writing (fullWrite fd data) := by
  simp [fullWrite]

@[simp] theorem writing_sessionLogHeader (logfd : Int) (caller target command tty : CStr)
    (start : Int) : Writing (sessionLogHeader logfd caller target command tty start) := by
  simp [sessionLogHeader]

@[simp] theorem writing_sessionLogFooter (logfd status start finish : Int) :
    Writing (sessionLogFooter logfd status start finish) := by
  simp [sessionLogFooter]

@[simp] theorem writing_openTranscript (logfd : Int) (caller : CStr) (req : ExecRequest)
    (start : Int) : Writing (openTranscript logfd caller req start) := by
  simp [openTranscript]

/-! ### Using descriptors -/

@[simp] theorem using_sysBlocked {α : Type} : Using (sysBlocked : Sys α) :=
  avoids_sysBlocked (by simp)

@[simp] theorem using_fileRead (fd : Int) (count : Nat) : Using (fileRead fd count) :=
  avoids_fileRead (by simp)

@[simp] theorem using_shkReadEnvironLoop (fd : Int) (fuel cap : Nat) (buf : Bytes) :
    Using (shkReadEnvironLoop fd fuel cap buf) :=
  avoids_shkReadEnvironLoop (by simp) (by simp) (by simp) fuel cap buf

@[simp] theorem using_readPasswordLoop (left pos : Nat) (buf : Bytes) :
    Using (readPasswordLoop left pos buf) :=
  avoids_readPasswordLoop (by simp) left pos buf

@[simp] theorem using_readPasswordInto (buf : Bytes) (cap : Nat) :
    Using (readPasswordInto buf cap) := by
  refine .bind (by simp) fun termios => ?_
  cases termios <;> simp

@[simp] theorem using_sessionCopyWinsize (fromFd toFd : Int) :
    Using (sessionCopyWinsize fromFd toFd) := by
  apply avoids_sessionCopyWinsize <;> simp

@[simp] theorem using_sessionSigwinchFd : Using sessionSigwinchFd := by
  simp [sessionSigwinchFd]

@[simp] theorem using_sessionSlaveEchoOn (master : Int) : Using (sessionSlaveEchoOn master) := by
  apply avoids_sessionSlaveEchoOn <;> simp

@[simp] theorem using_drainWinch (winchFd : Int) (fuel : Nat) : Using (drainWinch winchFd fuel) :=
  avoids_drainWinch (by simp) (by simp) fuel

@[simp] theorem using_relayMaster (master logfd : Int) (hup : Bool) (fuel : Nat) :
    Using (relayMaster master logfd hup fuel) :=
  avoids_relayMaster (by simp) (by simp) (by simp) (by simp) fuel

@[simp] theorem using_logKeystrokes (master inlogfd : Int) (chunk : Bytes) :
    Using (logKeystrokes master inlogfd chunk) := by
  simp [logKeystrokes]

@[simp] theorem using_relayResize (master winchFd : Int) (revents fuel : Nat) :
    Using (relayResize master winchFd revents fuel) := by
  simp [relayResize]

@[simp] theorem using_relayStdin (master inlogfd : Int) : Using (relayStdin master inlogfd) := by
  simp [relayStdin]

@[simp] theorem using_sessionRelayLoop (master logfd inlogfd winchFd : Int) (fuel : Nat)
    (stdinOpen : Bool) : Using (sessionRelayLoop master logfd inlogfd winchFd fuel stdinOpen) := by
  apply avoids_sessionRelayLoop <;> simp

@[simp] theorem using_sessionRelay (fuel : Nat) (master logfd inlogfd : Int) :
    Using (sessionRelay fuel master logfd inlogfd) := by
  simp [sessionRelay]

@[simp] theorem using_saveTermios : Using saveTermios := by
  simp [saveTermios]

@[simp] theorem using_enterRawMode (orig : Option Bytes) : Using (enterRawMode orig) := by
  cases orig <;> simp [enterRawMode]

@[simp] theorem using_restoreTermios (orig : Option Bytes) : Using (restoreTermios orig) := by
  cases orig <;> simp [restoreTermios]

@[simp] theorem using_closeLog (fd rc start finish : Int) :
    Using (closeLog fd rc start finish) := by
  simp [closeLog]

/-! ### Confirming a password -/

@[simp] theorem confirming_suChild (rfd wfd : Int) (username : CStr) :
    Confirming (suChild rfd wfd username) := by
  simp [suChild, suChild.suExec, sysExit]

@[simp] theorem confirming_suAuthenticate (username password : CStr) :
    Confirming (suAuthenticate username password) := by
  refine .bind (by simp) fun pfd => avoids_ite.mpr ⟨by simp, fun _ => ?_⟩
  refine .bind (by simp) fun fds => ?_
  rcases fds with _ | ⟨rfd, wfd⟩ <;> simp [suParent]

@[simp] theorem confirming_authenticate (username password : CStr) :
    Confirming (authenticate username password) := by
  refine .bind (.bind (by simp) fun rc => by cases rc <;> simp) fun pam => ?_
  rcases pam with _ | _ | _ <;> simp

@[simp] theorem confirming_promptLoop (username : CStr) (left attempt : Nat) :
    Confirming (promptLoop username left attempt) := by
  induction left generalizing attempt with
  | zero => simp [promptLoop]
  | succ left ih => simp [promptLoop, ih]

@[simp] theorem confirming_promptAndAuthenticate (username : CStr) :
    Confirming (promptAndAuthenticate username) := by
  simp [promptAndAuthenticate]

/-! ### The evaluation -/

section Evaluation

variable {P : SysCall → Prop}

/-- Of the calls that do more than use descriptors, an evaluation makes one. -/
theorem avoids_sanitizeEnvironment (husing : ∀ c, P c → BeyondUsing c)
    (hopen : ¬ P (.open (cstr "/proc/self/environ") 0 0)) (fuel : Nat) (envKeep : List CStr)
    (ids : Identities) : Avoids P (sanitizeEnvironment fuel envKeep ids) := by
  have huse {α : Type} {p : Sys α} (hp : Using p) : Avoids P p := hp.mono husing
  refine .bind (.bind ?_ fun _ => by simp) fun _ => by simp
  refine .bind ((avoids_ask _).mpr hopen) fun fd => avoids_ite.mpr ⟨by simp, fun _ => ?_⟩
  exact huse (by simp)

theorem avoids_evaluateAllowed (husing : ∀ c, P c → BeyondUsing c)
    (hopen : ¬ P (.open (cstr "/proc/self/environ") 0 0)) (fuel : Nat) (config : Config)
    (defaults : Defaults) (caller : CStr) (callerUid callerGid : Nat) (authz : AuthzResult)
    (e : Evaluation) :
    Avoids P (evaluateAllowed fuel config defaults caller callerUid callerGid authz e) := by
  have huse {α : Type} {p : Sys α} (hp : Using p) : Avoids P p := hp.mono husing
  refine .bind (huse (by simp)) fun tsValid => avoids_ite.mpr ⟨by simp, fun _ => ?_⟩
  refine .bind (huse (by simp)) fun home => .bind (huse (by simp)) fun shell => ?_
  exact .bind (avoids_sanitizeEnvironment husing hopen ..) fun env => by simp

theorem avoids_evaluateWithPolicy (husing : ∀ c, P c → BeyondUsing c)
    (hopen : ¬ P (.open (cstr "/proc/self/environ") 0 0)) (fuel : Nat) (config : Config)
    (policy : Policy) (caller : CStr) (callerUid callerGid : Nat) (groups : Option (List CStr))
    (argv : List CStr) :
    Avoids P (evaluateWithPolicy fuel config policy caller callerUid callerGid groups argv) := by
  have huse {α : Type} {p : Sys α} (hp : Using p) : Avoids P p := hp.mono husing
  unfold evaluateWithPolicy
  split
  · split
    · refine .bind (huse (by simp)) fun r => ?_
      obtain ⟨rl, buf⟩ := r
      cases rl with
      | error code => simp
      | ok n =>
          refine avoids_ite.mpr ⟨by simp, fun _ => ?_⟩
          exact .bind (avoids_evaluateAllowed husing hopen ..) fun _ => by simp
    · simp
  · simp

end Evaluation

/-! ### The privilege drop -/

@[simp] theorem dropping_abort {α : Type} (msg : String) : Dropping (abort msg : Sys α) :=
  avoids_abort (by simp) (by simp)

@[simp] theorem dropping_capsPrctlLoop (selected : Nat → Bool) (option : Nat)
    (args : Nat → Nat × Nat) (cs : List Nat) :
    Dropping (capsPrctlLoop selected option args cs) :=
  avoids_capsPrctlLoop (by simp) cs

@[simp] theorem dropping_dropPrivileges (nss : NssState) (targetUser : CStr)
    (targetUid targetGid capMask : Nat) :
    Dropping (dropPrivileges nss targetUser targetUid targetGid capMask) := by
  simp [dropPrivileges, dropBounding, dropIds, dropCaps, capsBsetDropComplement,
    capsAmbientRaiseSet, capsKeepcaps, capsCapset]

@[simp] theorem dropping_buildPtrArray (vec : List CStr) : Dropping (buildPtrArray vec) := by
  simp [buildPtrArray]

end Shakti
