import Shakti.Descriptors
import Shakti.TimestampConfinement

/-!
# Shakti.Alterations

What a run may write, remove or make, and for whom.

Most calls of the sources that alter files name what they alter: the audit trail, the directory of
the timestamps, the devices of a pseudo-terminal, the exec attributes of the process. The rest
(`Marks`) come from three functions, which set a timestamp, remove one, and make a session log;
what they name depends on the caller, on the terminal and on the policy.
-/

namespace Shakti

open Effects Effects.Prog

/-! ### Calls that alter files -/

/-- The flags ask for a file to be written or made. -/
def ForWriting (flags : Nat) : Prop := flags &&& (oWronly ||| oRdwr ||| oCreat ||| oTrunc) ≠ 0

instance (flags : Nat) : Decidable (ForWriting flags) := inferInstanceAs (Decidable (_ ≠ _))

/-- The flags ask for a file to be made or emptied. -/
def Making (flags : Nat) : Prop := flags &&& (oCreat ||| oTrunc) ≠ 0

instance (flags : Nat) : Decidable (Making flags) := inferInstanceAs (Decidable (_ ≠ _))

theorem Making.forWriting {flags : Nat} (h : Making flags) : ForWriting flags := by
  intro hnone
  have hpart : oCreat ||| oTrunc =
      (oWronly ||| oRdwr ||| oCreat ||| oTrunc) &&& (oCreat ||| oTrunc) := by decide
  rw [Making, hpart, ← Nat.and_assoc, hnone, Nat.zero_and] at h
  exact h rfl

/-- The calls that alter a file, or open one for that. -/
@[simp] def Alters : SysCall → Prop
  | .mkdir _ _ | .unlink _ | .appendLocked _ _ => True
  | .open _ flags _ | .openat _ _ flags _ => ForWriting flags
  | _ => False

/-- The devices of the program. -/
def IsDevice (path : CStr) : Prop :=
  path = cstr "/dev/null" ∨ path = cstr "/dev/ptmx" ∨ (∃ n, path = Process.slavePath n) ∨
    path = selinuxExecPath ∨ path = apparmorExecPath

/-- The calls among these that do not name what every run may alter. -/
@[simp] def Marks : SysCall → Prop
  | .mkdir path _ => path ≠ defaultTimestampDir
  | .unlink _ => True
  | .appendLocked path _ => path ≠ defaultAuditLogPath
  | .open path flags _ => ForWriting flags ∧ (IsDevice path → Making flags)
  | .openat _ _ flags _ => ForWriting flags
  | _ => False

/-- No run of the program marks a file. -/
abbrev Unmarking {α : Type} (p : Sys α) : Prop := Avoids Marks p

theorem Marks.beyondTelling {c : SysCall} (hc : Marks c) : BeyondTelling c := by
  cases c <;> simp_all

@[simp] theorem Telling.unmarking {α : Type} {p : Sys α} (hp : Telling p) : Unmarking p :=
  hp.mono fun _ => Marks.beyondTelling

theorem Marks.beyondUsing {c : SysCall} (hc : Marks c) : BeyondUsing c := by
  cases c <;> simp_all

theorem Marks.beyondDropping {c : SysCall} (hc : Marks c) : BeyondDropping c := by
  cases c <;> simp_all

@[simp] theorem Using.unmarking {α : Type} {p : Sys α} (hp : Using p) : Unmarking p :=
  hp.mono fun _ => Marks.beyondUsing

theorem Marks.beyondConfirming {c : SysCall} (hc : Marks c) : BeyondConfirming c := by
  cases c with
  | «open» path flags mode =>
      rintro ⟨rfl, rfl, -⟩
      exact absurd (hc.2 (Or.inl rfl)) (by decide)
  | _ => simp_all

@[simp] theorem Confirming.unmarking {α : Type} {p : Sys α} (hp : Confirming p) : Unmarking p :=
  hp.mono fun _ => Marks.beyondConfirming

@[simp] theorem Dropping.unmarking {α : Type} {p : Sys α} (hp : Dropping p) : Unmarking p :=
  hp.mono fun _ => Marks.beyondDropping

@[simp] theorem Writing.unmarking {α : Type} {p : Sys α} (hp : Writing p) : Unmarking p :=
  hp.using.unmarking

@[simp] theorem Asking.unmarking {α : Type} {p : Sys α} (hp : Asking p) : Unmarking p :=
  hp.telling.unmarking

@[simp] theorem Looking.unmarking {α : Type} {p : Sys α} (hp : Looking p) : Unmarking p :=
  hp.asking.unmarking

/-- A device is opened, and neither made nor emptied. -/
theorem unmarking_open {path : CStr} {flags mode : Nat} (hdevice : IsDevice path)
    (hflags : ¬ Making flags) : Unmarking (sys (.open path flags mode)) :=
  (avoids_ask _).mpr fun h => hflags (h.2 hdevice)

variable {α : Type}

@[simp] theorem unmarking_sysExit (code : Int) : Unmarking (sysExit code : Sys α) :=
  avoids_sysExit (by simp)

@[simp] theorem unmarking_evaluateWithPolicy (fuel : Nat) (config : Config) (policy : Policy)
    (caller : CStr) (callerUid callerGid : Nat) (groups : Option (List CStr))
    (argv : List CStr) :
    Unmarking (evaluateWithPolicy fuel config policy caller callerUid callerGid groups argv) :=
  avoids_evaluateWithPolicy (fun _ => Marks.beyondUsing)
    (fun hmarks => absurd hmarks.1 (by decide)) ..

/-! ### Carrying a plan out -/

@[simp] theorem unmarking_lsmApplyExec (seCtx aaProf : CStr) :
    Unmarking (lsmApplyExec seCtx aaProf) := by
  have hse : Unmarking (sys (.open selinuxExecPath oWronly 0)) :=
    unmarking_open (Or.inr (Or.inr (Or.inr (Or.inl rfl)))) (by decide)
  have haa : Unmarking (sys (.open apparmorExecPath oWronly 0)) :=
    unmarking_open (Or.inr (Or.inr (Or.inr (Or.inr rfl)))) (by decide)
  simp [lsmApplyExec, lsmSetSelinuxExec, lsmSetApparmorExec, writeExecAttr, hse, haa]

@[simp] theorem unmarking_dropAndExec (site : ExecSite) (nss : NssState) (req : ExecRequest) :
    Unmarking (dropAndExec site nss req) := by
  simp [dropAndExec, applyLsmOrDie]

@[simp] theorem unmarking_sessionOpenSlave (master : Int) :
    Unmarking (sessionOpenSlave master) := by
  refine avoids_sessionOpenSlave (by simp) (by simp) (by simp) fun n => ?_
  exact (avoids_ask _).mp (unmarking_open (Or.inr (Or.inr (Or.inl ⟨n, rfl⟩))) (by decide))

@[simp] theorem unmarking_ptyParent (fuel : Nat) (slave master pid logfd inlogfd start : Int) :
    Unmarking (ptyParent fuel slave master pid logfd inlogfd start) := by
  refine .bind (by simp) fun _ => .bind (by simp [saveTermios]) fun orig => ?_
  cases orig <;> simp [enterRawMode, restoreTermios, closeLog]

@[simp] theorem unmarking_execTargetPty (fuel : Nat) (nss : NssState) (req : ExecRequest)
    (logfd inlogfd : Int) (caller : CStr) :
    Unmarking (execTargetPty fuel nss req logfd inlogfd caller) := by
  have hmux : Unmarking sessionOpenpt := unmarking_open (Or.inr (Or.inl rfl)) (by decide)
  simp [execTargetPty, ptyChild, hmux]

/-- Carrying a plan out marks no file. -/
theorem unmarking_run (fuel : Nat) (plan : Plan) : Unmarking (plan.run fuel) := by
  cases plan with
  | exit code => simp [Plan.run]
  | execute x => simp [Plan.run, runExec, execTarget]

/-! ### The three functions that mark files -/

variable {tr : Trace} {c : SysCall}

/-- After `tr`, the descriptor is that of the directory, which belongs to root and is writable
for no one else. -/
structure TrustedDir (tr : Trace) (dir : CStr) (dirfd : Int) : Prop where
  opened : (⟨.openat (-100) dir (oPath ||| oDirectory ||| oNofollow) 0, dirfd⟩ : Event sysSig) ∈ tr
  checked : ∃ st : Stat, (⟨.fstatat dirfd, some st⟩ : Event sysSig) ∈ tr ∧
    st.mode &&& sIfmt = sIfdir ∧ st.uid = 0 ∧ st.mode &&& 18 = 0

theorem TrustedDir.right {dir : CStr} {dirfd : Int} (h : TrustedDir tr dir dirfd) (tr' : Trace) :
    TrustedDir (tr' ++ tr) dir dirfd where
  opened := List.mem_append_right _ h.opened
  checked := by
    obtain ⟨st, hstat, htrusted⟩ := h.checked
    exact ⟨st, List.mem_append_right _ hstat, htrusted⟩

/-- What a run may alter for the caller, after `tr`. -/
def Permitted (caller : CStr) (tr : Trace) : SysCall → Prop
  | .unlink path => Did tr (timestampPath caller) path ∧ InTimestampDir path
  | .open path flags _ => Did tr (timestampPath caller) path ∧ InTimestampDir path ∧
      flags &&& oNofollow = oNofollow ∧ ∃ password, Did tr (authenticate caller password) 1
  | .openat dirfd name flags _ => flags = oWronly ||| oCreat ||| oExcl ||| oNofollow ∧
      IsFileName name.bytes ∧ ∃ path policy, Did tr (loadPolicy path) (some policy) ∧
        TrustedDir tr policy.defaults.sessionLogDir dirfd
  | _ => False

/-- A timestamp is set at its path, and a link there is not followed. -/
theorem issues_updateTimestamp {user : CStr} (h : Issues (updateTimestamp user) tr c)
    (hc : Marks c) : ∃ path mode, Did tr (timestampPath user) path ∧ InTimestampDir path ∧
      c = .open path (oWronly ||| oCreat ||| oTrunc ||| oNofollow) mode := by
  unfold updateTimestamp at h
  split at h
  next hvalid =>
    have hname := (validateUsername_ok_iff user).mp hvalid
    have hdir : Unmarking shkEnsureTsDir := by
      refine .bind (by simp) fun st => ?_
      cases st <;> simp
    obtain ⟨t₁, t₂, err, rfl, -, h⟩ := h.bind_avoids hdir hc
    split at h
    · exact absurd h not_issues_pure
    obtain ⟨t₃, t₄, path, rfl, hpath, h⟩ := h.bind_avoids (by simp) hc
    obtain ⟨rfl, rfl⟩ := h.ask_bind_only (fun fd => by simp) hc
    exact ⟨path, _, (hpath.did.left _).right t₁, timestampPath_inside hname hpath, rfl⟩
  · exact absurd h not_issues_pure

/-- A timestamp is removed at its path. -/
theorem issues_invalidateTimestamp {user : CStr} (h : Issues (invalidateTimestamp user) tr c)
    (hc : Marks c) :
    ∃ path, Did tr (timestampPath user) path ∧ InTimestampDir path ∧ c = .unlink path := by
  unfold invalidateTimestamp at h
  split at h
  next hvalid =>
    have hname := (validateUsername_ok_iff user).mp hvalid
    obtain ⟨t₁, t₂, path, rfl, hpath, h⟩ := h.bind_avoids (by simp) hc
    obtain ⟨t₃, t₄, st, rfl, -, h⟩ := h.bind_avoids (by simp) hc
    cases st with
    | none => exact absurd h not_issues_pure
    | some st =>
        dsimp only at h
        split at h
        · exact absurd h not_issues_pure
        obtain ⟨rfl, rfl⟩ := h.ask_bind_only (fun ur => by simp) hc
        exact ⟨path, hpath.did.left _, timestampPath_inside hname hpath, rfl⟩
  · exact absurd h not_issues_pure

/-- No slash is in the name of a log, and neither is it `.` or `..`. -/
theorem isFileName_log {caller : CStr} (hcaller : IsFileName caller.bytes) (now : Int) (pid : Nat)
    {suffix : CStr} (hsuffix : 47 ∉ suffix.bytes) (hlen : 4 ≤ suffix.bytes.length) :
    IsFileName
      (decimalInt now ++ cstr "-" ++ caller ++ cstr "-" ++ decimal pid ++ suffix).bytes := by
  have hdigits (n : Nat) : 47 ∉ (decimal n).bytes := by
    intro h
    exact absurd ((decimal_decimal n).2.1 47 h).1 (by decide)
  have hnow : 47 ∉ (decimalInt now).bytes := by
    rw [decimalInt]
    split
    · rw [CStr.append_bytes, List.mem_append]
      exact not_or.mpr ⟨by decide, hdigits _⟩
    · exact hdigits _
  have hdash : 47 ∉ (cstr "-").bytes := by decide
  have hlong : 4 ≤ (decimalInt now ++ cstr "-" ++ caller ++ cstr "-" ++ decimal pid ++
      suffix).bytes.length := by
    simp only [CStr.append_bytes, List.length_append]
    omega
  generalize hname :
    decimalInt now ++ cstr "-" ++ caller ++ cstr "-" ++ decimal pid ++ suffix = name at hlong
  have hslash : 47 ∉ name.bytes := by
    rw [← hname]
    simp only [CStr.append_bytes, List.mem_append, not_or]
    exact ⟨⟨⟨⟨⟨hnow, hdash⟩, hcaller.noSlash⟩, hdash⟩, hdigits pid⟩, hsuffix⟩
  refine ⟨?_, hslash, ?_, ?_⟩
  all_goals
    intro h
    rw [h] at hlong
    simp at hlong

/-- A log is made by its name in a directory that was found to be trusted. -/
theorem issues_openSessionLog {dir caller suffix : CStr} (hcaller : validateUsername caller = .ok)
    (hsuffix : 47 ∉ suffix.bytes) (hlen : 4 ≤ suffix.bytes.length)
    (h : Issues (openSessionLog dir caller suffix) tr c) (hc : Marks c) :
    ∃ dirfd name mode, TrustedDir tr dir dirfd ∧ IsFileName name.bytes ∧
      c = .openat dirfd name (oWronly ||| oCreat ||| oExcl ||| oNofollow) mode := by
  have hflags : ¬ ForWriting (oPath ||| oDirectory ||| oNofollow) := by decide
  obtain ⟨t₁, t₂, dfd, rfl, hdfd, h⟩ := h.bind_avoids ((avoids_ask _).mpr hflags) hc
  have hopened := returns_ask_iff.mp hdfd
  split at h
  · exact absurd h not_issues_pure
  obtain ⟨t₃, t₄, stbuf, rfl, -, h⟩ := h.bind_avoids (by simp) hc
  obtain ⟨t₅, t₆, st, rfl, hst, h⟩ := h.bind_avoids (by simp) hc
  cases st with
  | none => exact absurd h (Avoids.not_issues (by simp) hc)
  | some st =>
      dsimp only at h
      split at h
      · exact absurd h (Avoids.not_issues (by simp) hc)
      rename_i htrusted
      rw [not_or, not_or, not_not, not_not, not_not] at htrusted
      obtain ⟨t₇, t₈, now, rfl, -, h⟩ := h.bind_avoids (by simp) hc
      obtain ⟨t₉, t₁₀, pid, rfl, -, h⟩ := h.bind_avoids (by simp) hc
      obtain ⟨rfl, rfl⟩ := h.ask_bind_only (fun fd => by simp) hc
      have hstat : (⟨.fstatat dfd, some st⟩ : Event sysSig) ∈ t₅ := by
        split at hst
        · rw [returns_ask_iff.mp hst]
          exact List.mem_singleton_self _
        · cases (returns_pure_iff.mp hst).2
      exact ⟨_, _, _, ⟨by simp [hopened], st, by simp [hstat], htrusted⟩,
        isFileName_log ((validateUsername_ok_iff caller).mp hcaller) now pid hsuffix hlen, rfl⟩

/-! ### The run -/

/-- A timestamp is set for a caller whose password was accepted. -/
theorem issues_runAuth {caller target resolved : CStr} {eval : Evaluation}
    (h : Issues (runAuth caller target resolved eval) tr c) (hc : Marks c) :
    ∃ t₁ t₂ password, tr = t₁ ++ t₂ ∧ Did t₁ (authenticate caller password) 1 ∧
      Issues (updateTimestamp caller) t₂ c := by
  unfold runAuth at h
  split at h
  · obtain ⟨t₁, t₂, saved, rfl, -, h⟩ := h.bind_avoids (by simp [maskAuthSignals]) hc
    obtain ⟨t₃, t₄, ok, rfl, hok, h⟩ := h.bind_avoids (by simp) hc
    obtain ⟨t₅, t₆, _, rfl, -, h⟩ := h.bind_avoids (by simp [restoreSignals]) hc
    cases ok with
    | false => exact absurd h (Avoids.not_issues (by simp) hc)
    | true =>
        obtain ⟨password, hd⟩ := returns_promptLoop hok
        rcases issues_bind_iff.mp h with h | ⟨_, _, _, -, -, h⟩
        · exact ⟨t₁ ++ t₃ ++ t₅, t₆, password, by simp, (hd.right t₁).left t₅, h⟩
        · exact absurd h not_issues_pure
  · exact absurd h not_issues_pure

/-- A log is made in the directory of the policy. -/
theorem issues_openLogs {dir caller target resolved : CStr} {doLog logInput usePty : Bool}
    (hcaller : validateUsername caller = .ok)
    (h : Issues (openLogs dir caller target resolved doLog logInput usePty) tr c) (hc : Marks c) :
    ∃ dirfd name mode, TrustedDir tr dir dirfd ∧ IsFileName name.bytes ∧
      c = .openat dirfd name (oWronly ||| oCreat ||| oExcl ||| oNofollow) mode := by
  unfold openLogs at h
  split at h
  · rcases issues_bind_iff.mp h with h | ⟨t₁, t₂, logfd, rfl, -, h⟩
    · exact issues_openSessionLog hcaller (by decide) (by decide) h hc
    split at h
    · exact absurd h (Avoids.not_issues (by simp) hc)
    split at h
    · rcases issues_bind_iff.mp h with h | ⟨t₃, t₄, inlogfd, rfl, -, h⟩
      · obtain ⟨dirfd, name, mode, htrusted, hname⟩ :=
          issues_openSessionLog hcaller (by decide) (by decide) h hc
        exact ⟨dirfd, name, mode, htrusted.right t₁, hname⟩
      · exact absurd h (Avoids.not_issues (by simp) hc)
    · exact absurd h not_issues_pure
  · exact absurd h not_issues_pure

/-- What a part of the plan marks for the caller is permitted. -/
theorem Doing.permitted {caller : CStr} {t₁ t₂ : Trace} (h : Doing caller t₁ t₂ c)
    (hc : Marks c) : Permitted caller (t₁ ++ t₂) c := by
  cases h with
  | invalidates cli h =>
      unfold runInvalidate at h
      rcases issues_bind_iff.mp h with h | ⟨t₃, t₄, err, rfl, -, h⟩
      · obtain ⟨path, hpath, hin, rfl⟩ := issues_invalidateTimestamp h hc
        exact ⟨hpath.right t₁, hin⟩
      · exact absurd h (Avoids.not_issues (by simp) hc)
  | confirms target resolved eval h =>
      obtain ⟨t₃, t₄, password, rfl, hauth, h⟩ := issues_runAuth h hc
      obtain ⟨path, mode, hpath, hin, rfl⟩ := issues_updateTimestamp h hc
      exact ⟨(hpath.right t₃).right t₁, hin, by decide, password, (hauth.left t₄).right t₁⟩
  | opens path policy target resolved doLog logInput usePty hcaller hpolicy h =>
      obtain ⟨dirfd, name, mode, htrusted, hname, rfl⟩ := issues_openLogs hcaller h hc
      exact ⟨rfl, hname, path, policy, hpolicy.left t₂, htrusted.right t₁⟩

/-- What any run may alter: the audit trail, the directory of the timestamps, and the devices,
none of which is made or emptied. -/
def Routine : SysCall → Prop
  | .mkdir path _ => path = defaultTimestampDir
  | .appendLocked path _ => path = defaultAuditLogPath
  | .open path flags _ => IsDevice path ∧ ¬ Making flags
  | _ => False

theorem routine_of_not_marks (hc : Alters c) (hmarks : ¬ Marks c) : Routine c := by
  cases c with
  | mkdir path mode => exact not_not.mp hmarks
  | appendLocked path data => exact not_not.mp hmarks
  | «open» path flags mode =>
      have hboth := Classical.not_imp.mp fun h => hmarks ⟨hc, h⟩
      exact hboth
  | unlink => exact hmarks trivial
  | openat => exact hmarks hc
  | _ => exact hc

/-- What a run marks is permitted for the user who runs the program. -/
theorem permitted_of_marks {fuel : Nat} {args : List CStr} (h : Issues (shkRun fuel args) tr c)
    (hc : Marks c) :
    ∃ callerUid caller gid, Did tr (sys .getuid) callerUid ∧
      Did tr (identityLookupUid callerUid) (.found (caller, gid)) ∧ Permitted caller tr c := by
  rw [shkRun_eq_plan] at h
  rcases issues_bind_iff.mp h with h | ⟨_, _, plan, -, -, h⟩
  · obtain ⟨t₁, t₂, callerUid, caller, gid, rfl, huid, hcaller, hdoing⟩ :=
      issues_planRun (fun _ => Marks.beyondTelling) (unmarking_evaluateWithPolicy fuel) h hc
    exact ⟨callerUid, caller, gid, huid.left t₂, hcaller.left t₂, hdoing.permitted hc⟩
  · exact absurd h (Avoids.not_issues (unmarking_run fuel plan) hc)

/-- **What a run alters.** Every call of a run that makes, removes or empties a file, or opens one
to write to it, names the audit trail, the directory of the timestamps or a device of the program;
or it is made for the user who runs the program, and it is to remove the user's own timestamp; to
set it, after a password of the user was accepted; or to make a new session log, under a name
without a slash, in a directory of the policy's that belongs to root and is writable for no one
else. No link is followed to what is made. -/
theorem shkRun_alters {fuel : Nat} {args : List CStr} (h : Issues (shkRun fuel args) tr c)
    (hc : Alters c) :
    Routine c ∨ ∃ callerUid caller gid, Did tr (sys .getuid) callerUid ∧
      Did tr (identityLookupUid callerUid) (.found (caller, gid)) ∧ Permitted caller tr c := by
  by_cases hmarks : Marks c
  · exact Or.inr (permitted_of_marks h hmarks)
  · exact Or.inl (routine_of_not_marks hc hmarks)

/-- A machine on which the user has a timestamp. -/
def stampedMachine : Unit → (c : SysCall) → Option (c.Answer × Unit)
  | s, .sakshiSetLevel => some ((), s)
  | s, .getuid => some (1000, s)
  | s, .getgid => some (1000, s)
  | s, .readFile _ => some (some twoUsers, s)
  | s, .readlink _ => some (none, s)
  | s, .lstat _ => some (some (rootFile 384), s)
  | _, _ => none

/-- A run that removes the timestamp of its user. -/
theorem shkRun_alters_invalidate :
    ∃ tr path, Issues (shkRun 1 [cstr "shakti", cstr "-k"]) tr (.unlink path) ∧
      (Routine (.unlink path) ∨ ∃ callerUid caller gid, Did tr (sys .getuid) callerUid ∧
        Did tr (identityLookupUid callerUid) (.found (caller, gid)) ∧
        Permitted caller tr (.unlink path)) := by
  have h : Issues (shkRun 1 [cstr "shakti", cstr "-k"])
      (play stampedMachine () (shkRun 1 [cstr "shakti", cstr "-k"])).1
      (.unlink (timestampFile (cstr "al") (cstr ""))) := play_issues (by decide)
  exact ⟨_, _, h, shkRun_alters h trivial⟩

end Shakti
