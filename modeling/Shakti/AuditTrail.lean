import Shakti.AuditLine
import Shakti.ExecGate

/-!
# Shakti.AuditTrail

Which attempts leave a record.

A run that was asked to run a command ends in one of three ways (`Ending`): `shk_run`
returns, the target's command is executed, or the process exits on an exec path. Each
end should have exactly one record of the action `COMMAND` or `AUTH_FAILURE`, a
successful one only when the run was handed over to an exec path (`Audited`). Two exits
of `shk_run` leave none: the one for a policy that cannot be loaded, and the one for a
target that cannot be found. `shkRun_audited_iff` says that these are the only ones.
-/

namespace Shakti

open Effects Effects.Prog

/-! ### Records -/

/-- How the live line of a record of this action starts. -/
def attemptMark (action : AuditAction) : Bytes :=
  utf8 "shakti: " ++ (auditActionStr action).bytes ++ utf8 " : "

/-- The live line is one of an attempt: its action is `COMMAND` or `AUTH_FAILURE`. -/
def IsAttempt (text : Bytes) : Prop :=
  attemptMark .command <+: text ∨ attemptMark .authFailure <+: text

instance (text : Bytes) : Decidable (IsAttempt text) :=
  inferInstanceAs (Decidable (_ ∨ _))

/-- The success flag of the record of an attempt, when the event is one. -/
def attemptRecord : Event sysSig → Option Bool
  | ⟨.sakshiInfo text, _⟩ => if IsAttempt text then some true else none
  | ⟨.sakshiWarn text, _⟩ => if IsAttempt text then some false else none
  | _ => none

/-- The records of attempts in a run. -/
def attempts (tr : Trace) : List Bool := tr.filterMap attemptRecord

@[simp] theorem attempts_append (tr tr' : Trace) :
    attempts (tr ++ tr') = attempts tr ++ attempts tr' :=
  List.filterMap_append

/-- The calls that put a line on the live trail. -/
@[simp] def Recording : SysCall → Prop
  | .sakshiInfo _ | .sakshiWarn _ => True
  | _ => False

/-- No run of the program puts a line on the live trail. -/
abbrev Silent {α : Type} (p : Sys α) : Prop := Avoids Recording p

@[simp] theorem Quiet.silent {α : Type} {p : Sys α} (hp : Quiet p) : Silent p :=
  hp.mono fun c hc => by cases c <;> simp_all

theorem Confirming.silent {α : Type} {p : Sys α} (hp : Confirming p) : Silent p :=
  hp.mono fun c hc => by cases c <;> simp_all

/-- A silent program leaves no record. -/
theorem Silent.attempts_eq_nil {α : Type} {p q : Sys α} {tr : Trace} (hp : Silent p)
    (h : Steps p tr q) : attempts tr = [] := by
  induction h with
  | nil => rfl
  | @cons c k r tr q h ih =>
      have hc : attemptRecord ⟨c, r⟩ = none := by
        have := hp.1
        cases c <;> simp_all [attemptRecord]
      rw [attempts, List.filterMap_cons, hc]
      exact ih (hp.2 r)

/-- The live line of a record starts with the mark of its action. -/
theorem attemptMark_prefix (action : AuditAction) (caller target command : CStr) (success : Bool)
    (reason : CStr) :
    attemptMark action <+:
      (buildStderrLine action caller target command success reason).bytes.dropLast := by
  have hstart : (cstr "shakti: ").bytes = utf8 "shakti: " := by decide
  have hsep : (cstr " : ").bytes = utf8 " : " := by decide
  have hend : (cstr "\n").bytes = [10] := by decide
  simp only [buildStderrLine, CStr.append_bytes, hstart, hsep, hend, List.dropLast_concat]
  simp only [attemptMark, List.append_assoc, List.prefix_append_right_inj]
  exact List.prefix_append _ _

theorem attemptMark_inj {action action' : AuditAction} {text : Bytes}
    (h : attemptMark action <+: text) (h' : attemptMark action' <+: text) : action = action' := by
  rcases List.prefix_or_prefix_of_prefix h h' with hp | hp
  · cases action <;> cases action' <;> first | rfl | exact absurd hp (by decide)
  · cases action <;> cases action' <;> first | rfl | exact absurd hp (by decide)

/-- The live line of a record is one of an attempt when its action is. -/
theorem isAttempt_iff (action : AuditAction) (caller target command : CStr) (success : Bool)
    (reason : CStr) :
    IsAttempt (buildStderrLine action caller target command success reason).bytes.dropLast ↔
      action = .command ∨ action = .authFailure := by
  have hmark := attemptMark_prefix action caller target command success reason
  constructor
  · exact Or.imp (attemptMark_inj hmark) (attemptMark_inj hmark)
  · rintro (rfl | rfl)
    · exact Or.inl hmark
    · exact Or.inr hmark

/-- `audit_log` leaves one record, of its action. -/
theorem returns_auditLog {action : AuditAction} {caller target command : CStr} {success : Bool}
    {reason : CStr} {tr : Trace}
    (h : Returns (auditLog action caller target command success reason) tr ()) :
    attempts tr = if action = .command ∨ action = .authFailure then [success] else [] := by
  obtain ⟨t₁, tr₁, line, rfl, hline, hrest⟩ := returns_bind_iff.mp h
  obtain ⟨r, tr₂, rfl, hlive⟩ := returns_ask_bind_iff.mp hrest
  have hsilent : attempts t₁ = [] := Silent.attempts_eq_nil (by simp [buildFileLine]) hline
  have hiff := isAttempt_iff action caller target command success reason
  rw [attempts_append, hsilent, List.nil_append, attempts, List.filterMap_cons_none rfl]
  cases success with
  | true =>
      obtain ⟨u, tr₃, rfl, hend⟩ := returns_call_iff.mp hlive
      obtain ⟨rfl, -⟩ := returns_pure_iff.mp hend
      simp only [List.filterMap_cons, List.filterMap_nil, attemptRecord, hiff]
      split <;> simp_all
  | false =>
      obtain ⟨u, tr₃, rfl, hend⟩ := returns_call_iff.mp hlive
      obtain ⟨rfl, -⟩ := returns_pure_iff.mp hend
      simp only [List.filterMap_cons, List.filterMap_nil, attemptRecord, hiff]
      split <;> simp_all

/-! ### How a run ends -/

/-- The end of a run. -/
inductive Ending
  | returned (rc : Int)
  | executed
  | exited (code : Int)

/-- `fork` returned in the child. -/
def forkedChild : Event sysSig := ⟨.fork, (0 : Int)⟩

/-- The run has come to its end: it returned, it is about to execute the target's command,
or the process itself, not one it forked, is about to exit. -/
def Ends (p : Sys Int) (tr : Trace) : Ending → Prop
  | .returned rc => Returns p tr rc
  | .executed => ∃ c, TargetExec c ∧ Issues p tr c
  | .exited code => forkedChild ∉ tr ∧ Issues p tr (.exit code)

theorem Ends.steps {p : Sys Int} {tr : Trace} {e : Ending} (h : Ends p tr e) :
    ∃ q, Steps p tr q := by
  cases e with
  | returned rc => exact ⟨_, h⟩
  | executed =>
      obtain ⟨c, -, k, hk⟩ := h
      exact ⟨_, hk⟩
  | exited code =>
      obtain ⟨-, k, hk⟩ := h
      exact ⟨_, hk⟩

/-- What follows a complete run of the first part ends as the whole does. -/
theorem Ends.after {α : Type} {p : Sys α} {f : α → Sys Int} {tr rest : Trace} {a : α} {e : Ending}
    (h : Ends (p >>= f) tr e) (hb : Begins p tr a rest) : Ends (f a) rest e := by
  cases e with
  | returned rc => exact hb.steps h
  | executed =>
      obtain ⟨c, hc, k, hk⟩ := h
      exact ⟨c, hc, k, hb.steps hk⟩
  | exited code =>
      obtain ⟨hown, k, hk⟩ := h
      obtain ⟨t, rfl, ht⟩ := hb
      exact ⟨fun hm => hown (List.mem_append_right _ hm), k, Begins.steps ⟨t, rfl, ht⟩ hk⟩

/-- No run ends within the program: it executes no target's command, and exits only in a
child it forked. -/
structure GoesOn {α : Type} (p : Sys α) : Prop where
  noExec : Avoids TargetExec p
  noExit : ∀ tr code, Issues p tr (.exit code) → forkedChild ∈ tr

theorem Plain.goesOn {α : Type} {p : Sys α} (hp : Plain p) : GoesOn p where
  noExec := hp.quiet.avoidsExec
  noExit _ _ h := absurd h (Avoids.not_issues hp trivial)

theorem GoesOn.bind {α β : Type} {p : Sys α} {f : α → Sys β} (hp : GoesOn p)
    (hf : ∀ a, GoesOn (f a)) : GoesOn (p >>= f) where
  noExec := hp.noExec.bind fun a => (hf a).noExec
  noExit tr code h := by
    rcases issues_bind_iff.mp h with h | ⟨t₁, t₂, a, rfl, -, h⟩
    · exact hp.noExit tr code h
    · exact List.mem_append_right _ ((hf a).noExit t₂ code h)

theorem GoesOn.ite {α : Type} {b : Prop} [Decidable b] {p q : Sys α} (hp : b → GoesOn p)
    (hq : ¬ b → GoesOn q) : GoesOn (if b then p else q) := by
  split
  · exact hp ‹_›
  · exact hq ‹_›

/-- What a forked child does is of no matter, as long as it does not execute the target's
command. -/
theorem goesOn_fork {α : Type} {f : Int → Sys α} (hchild : Avoids TargetExec (f 0))
    (hparent : ∀ pid, pid ≠ 0 → GoesOn (f pid)) : GoesOn (sys .fork >>= f) where
  noExec := by
    refine .bind (by simp) fun pid => ?_
    by_cases hpid : pid = 0
    · exact hpid ▸ hchild
    · exact (hparent pid hpid).noExec
  noExit tr code h := by
    rcases issues_call_iff.mp h with ⟨-, hc⟩ | ⟨pid, t, rfl, hrest⟩
    · exact absurd hc (by simp)
    · by_cases hpid : pid = (0 : Int)
      · rw [hpid]
        exact List.mem_cons_self ..
      · exact List.mem_cons_of_mem _ ((hparent pid hpid).noExit t code hrest)

/-- A run that ends does so behind the parts it only passes through. -/
theorem Ends.of_bind {α : Type} {p : Sys α} {f : α → Sys Int} {tr : Trace} {e : Ending}
    (h : Ends (p >>= f) tr e) (hp : GoesOn p) :
    ∃ a rest, Begins p tr a rest ∧ Ends (f a) rest e := by
  cases e with
  | returned rc =>
      obtain ⟨t₁, t₂, a, rfl, ha, h⟩ := returns_bind_iff.mp h
      exact ⟨a, t₂, ⟨t₁, rfl, ha⟩, h⟩
  | executed =>
      obtain ⟨c, hc, h⟩ := h
      obtain ⟨t₁, t₂, a, rfl, ha, h⟩ := h.bind_avoids hp.noExec hc
      exact ⟨a, t₂, ⟨t₁, rfl, ha⟩, c, hc, h⟩
  | exited code =>
      obtain ⟨hown, h⟩ := h
      rcases issues_bind_iff.mp h with h | ⟨t₁, t₂, a, rfl, ha, h⟩
      · exact absurd (hp.noExit tr code h) hown
      · exact ⟨a, t₂, ⟨t₁, rfl, ha⟩, fun hm => hown (List.mem_append_right _ hm), h⟩

/-- A program that goes on to a value and then returns ends by returning it. -/
theorem Ends.of_pure {rc : Int} {tr : Trace} {e : Ending} (h : Ends (Pure.pure rc) tr e) :
    tr = [] ∧ e = .returned rc := by
  cases e with
  | returned rc' =>
      obtain ⟨rfl, rfl⟩ := returns_pure_iff.mp h
      exact ⟨rfl, rfl⟩
  | executed =>
      obtain ⟨c, -, h⟩ := h
      exact absurd h not_issues_pure
  | exited code => exact absurd h.2 not_issues_pure

/-! ### The parts a run passes through -/

theorem goesOn_auditLog (action : AuditAction) (caller target command : CStr) (success : Bool)
    (reason : CStr) : GoesOn (auditLog action caller target command success reason) where
  noExec := avoidsExec_auditLog ..
  noExit tr code h := by
    have havoid : Avoids (fun c => ∃ code, c = SysCall.exit code)
        (auditLog action caller target command success reason) := by
      refine .bind (Avoids.mono (P := Marked) (by simp [buildFileLine]) ?_) fun line => ?_
      · rintro c ⟨code, rfl⟩
        trivial
      · simp
    exact absurd h (havoid.not_issues ⟨code, rfl⟩)

theorem goesOn_auditNssBackend (caller : CStr) (status : Option Bool) :
    GoesOn (auditNssBackend caller status) := by
  rcases status with _ | ready
  · exact Plain.goesOn (by simp [auditNssBackend])
  · cases ready <;> exact goesOn_auditLog ..

theorem attempts_auditNssBackend {caller : CStr} {status : Option Bool} {tr : Trace}
    (h : Returns (auditNssBackend caller status) tr ()) : attempts tr = [] := by
  rcases status with _ | ready
  · obtain ⟨rfl, -⟩ := returns_pure_iff.mp h
    rfl
  · cases ready <;> simpa using returns_auditLog h

/-- The child of `su` is a child. -/
theorem goesOn_suAuthenticate (username password : CStr) :
    GoesOn (suAuthenticate username password) := by
  refine (Plain.goesOn (by simp)).bind fun pfd => ?_
  split
  · exact Plain.goesOn (by simp)
  refine (Plain.goesOn (by simp)).bind fun fds => ?_
  rcases fds with _ | ⟨rfd, wfd⟩
  · exact Plain.goesOn (by simp)
  refine goesOn_fork (by simp) fun pid hpid => ?_
  rw [if_neg hpid]
  exact Plain.goesOn (by simp)

theorem goesOn_authenticate (username password : CStr) :
    GoesOn (authenticate username password) := by
  refine (Plain.goesOn (by simp)).bind fun pam => ?_
  cases pam with
  | some ok => cases ok <;> exact Plain.goesOn (by simp)
  | none => exact goesOn_suAuthenticate username password

theorem goesOn_promptLoop (username : CStr) (left attempt : Nat) :
    GoesOn (promptLoop username left attempt) := by
  induction left generalizing attempt with
  | zero => exact Plain.goesOn (by simp [promptLoop])
  | succ left ih =>
      refine (Plain.goesOn (by simp)).bind fun _ => ?_
      refine (Plain.goesOn (by simp)).bind fun _ => ?_
      refine (Plain.goesOn (by simp)).bind fun _ => ?_
      refine (Plain.goesOn (by simp)).bind fun buf => ?_
      have hagain : GoesOn (promptLoop username left (attempt + 1)) := ih _
      refine .ite (fun _ => .ite (fun _ => ?_) fun _ => Plain.goesOn (by simp)) fun _ => ?_
      · exact (Plain.goesOn (by simp)).bind fun _ => hagain
      · refine (goesOn_authenticate ..).bind fun r => .ite (fun _ => Plain.goesOn (by simp)) ?_
        exact fun _ => (Plain.goesOn (by simp)).bind fun _ => hagain

theorem silent_dropAndExec (site : ExecSite) (nss : NssState) (req : ExecRequest) :
    Silent (dropAndExec site nss req) := by
  simp [dropAndExec]

theorem silent_execTarget (nss : NssState) (req : ExecRequest) : Silent (execTarget nss req) := by
  simp [execTarget, silent_dropAndExec]

theorem silent_execTargetPty (fuel : Nat) (nss : NssState) (req : ExecRequest)
    (logfd inlogfd : Int) (caller : CStr) :
    Silent (execTargetPty fuel nss req logfd inlogfd caller) := by
  simp [execTargetPty, ptyChild, silent_dropAndExec]

theorem not_returns_execTarget {nss : NssState} {req : ExecRequest} {tr : Trace} {r : Int} :
    ¬ Returns (execTarget nss req) tr r := by
  intro h
  obtain ⟨_, _, _, -, -, h⟩ := returns_bind_iff.mp h
  obtain ⟨_, _, _, -, -, h⟩ := returns_bind_iff.mp h
  obtain ⟨_, _, _, -, -, h⟩ := returns_bind_iff.mp h
  obtain ⟨x, -⟩ := returns_call_iff.mp h
  exact x.elim

/-! ### Audited attempts -/

/-- The run went on to an exec path, and ended there. -/
def HandedOver (tr : Trace) (e : Ending) : Prop :=
  ∃ nss req before after, tr = before ++ after ∧
    (Ends (execTarget nss req) after e ∨
      ∃ fuel logfd inlogfd caller, Ends (execTargetPty fuel nss req logfd inlogfd caller) after e)

/-- **The attempt is audited.** It left one record, written by one call of `audit_log` with
the action `COMMAND` or `AUTH_FAILURE`, and a successful one only when the run went on to an
exec path. -/
def Audited (caller target : CStr) (tr : Trace) (e : Ending) : Prop :=
  ∃ action command success reason, (action = .command ∨ action = .authFailure) ∧
    Did tr (auditLog action caller target command success reason) () ∧
    attempts tr = [success] ∧ (success = true → HandedOver tr e)

theorem HandedOver.right {tr : Trace} {e : Ending} (h : HandedOver tr e) (tr' : Trace) :
    HandedOver (tr' ++ tr) e := by
  obtain ⟨nss, req, before, after, rfl, h⟩ := h
  exact ⟨nss, req, tr' ++ before, after, (List.append_assoc ..).symm, h⟩

/-- A silent beginning makes no difference. -/
theorem Audited.right {caller target : CStr} {tr : Trace} {e : Ending}
    (h : Audited caller target tr e) {tr' : Trace} (hsilent : attempts tr' = []) :
    Audited caller target (tr' ++ tr) e := by
  obtain ⟨action, command, success, reason, hact, hdid, hrec, hover⟩ := h
  refine ⟨action, command, success, reason, hact, hdid.right tr', ?_, fun hs => (hover hs).right _⟩
  rw [attempts_append, hsilent, hrec, List.nil_append]

/-- A refusal that is audited, and only complains from there on. -/
theorem audited_of_refusal {action : AuditAction} {caller target command reason : CStr}
    {k : Unit → Sys Int} {tr : Trace} {e : Ending}
    (hact : action = .command ∨ action = .authFailure)
    (hk : Silent (k ()))
    (h : Ends (auditLog action caller target command false reason >>= k) tr e) :
    Audited caller target tr e := by
  obtain ⟨u, rest, ⟨t, rfl, hlog⟩, hend⟩ := h.of_bind (goesOn_auditLog ..)
  obtain ⟨q, hq⟩ := hend.steps
  refine ⟨action, command, false, reason, hact, hlog.did.left _, ?_, by simp⟩
  rw [attempts_append, returns_auditLog hlog, if_pos hact, Silent.attempts_eq_nil hk hq]
  rfl

/-! ### From the record of success on -/

/-- Behind its record of success, a run goes on to an exec path. -/
theorem audited_runExec {fuel : Nat} {nss : NssState} {caller target : CStr} {req : ExecRequest}
    {logs : SessionLogs} {tr : Trace} {e : Ending}
    (h : Ends (runExec fuel nss caller target req logs) tr e) : Audited caller target tr e := by
  obtain ⟨u, rest, ⟨t, rfl, hlog⟩, hend⟩ := h.of_bind (goesOn_auditLog ..)
  refine ⟨.command, req.resolved, true, _, Or.inl rfl, hlog.did.left _, ?_, fun _ => ?_⟩
  · have hsilent : attempts rest = [] := by
      obtain ⟨q, hq⟩ := hend.steps
      refine Silent.attempts_eq_nil ?_ hq
      split
      · exact silent_execTargetPty ..
      · simp [silent_execTarget]
    rw [attempts_append, returns_auditLog hlog, if_pos (Or.inl rfl), hsilent, List.append_nil]
  · refine ⟨nss, req, t, rest, rfl, ?_⟩
    split at hend
    · exact Or.inr ⟨_, _, _, _, hend⟩
    · refine Or.inl ?_
      -- `_exec_target` does not return.
      cases e with
      | returned rc =>
          obtain ⟨t₁, t₂, r, rfl, hexec, -⟩ := returns_bind_iff.mp hend
          exact absurd hexec not_returns_execTarget
      | executed =>
          obtain ⟨c, hc, h⟩ := hend
          rcases issues_bind_iff.mp h with h | ⟨t₁, t₂, r, rfl, hexec, -⟩
          · exact ⟨c, hc, h⟩
          · exact absurd hexec not_returns_execTarget
      | exited code =>
          obtain ⟨hown, h⟩ := hend
          rcases issues_bind_iff.mp h with h | ⟨t₁, t₂, r, rfl, hexec, -⟩
          · exact ⟨hown, h⟩
          · exact absurd hexec not_returns_execTarget

/-- A refusal within a part of the run: its one record. -/
def Refused (action : AuditAction) (caller target : CStr) (tr : Trace) : Prop :=
  ∃ command reason, Did tr (auditLog action caller target command false reason) () ∧
    attempts tr = [false]

theorem refused_of_returns {α : Type} {action : AuditAction} {caller target command reason : CStr}
    {k : Unit → Sys α} {tr : Trace} {a : α} (hact : action = .command ∨ action = .authFailure)
    (hk : Silent (k ()))
    (h : Returns (auditLog action caller target command false reason >>= k) tr a) :
    Refused action caller target tr := by
  obtain ⟨t₁, t₂, u, rfl, hlog, hrest⟩ := returns_bind_iff.mp h
  refine ⟨command, reason, hlog.did.left _, ?_⟩
  rw [attempts_append, returns_auditLog hlog, if_pos hact, Silent.attempts_eq_nil hk hrest]
  rfl

theorem Refused.right {action : AuditAction} {caller target : CStr} {tr tr' : Trace}
    (h : Refused action caller target tr) (hsilent : attempts tr' = []) :
    Refused action caller target (tr' ++ tr) := by
  obtain ⟨command, reason, hdid, hrec⟩ := h
  exact ⟨command, reason, hdid.right tr', by rw [attempts_append, hsilent, hrec, List.nil_append]⟩

theorem Refused.audited {action : AuditAction} {caller target : CStr} {tr rest : Trace}
    {e : Ending} (h : Refused action caller target tr)
    (hact : action = .command ∨ action = .authFailure) (hrest : attempts rest = []) :
    Audited caller target (tr ++ rest) e := by
  obtain ⟨command, reason, hdid, hrec⟩ := h
  exact ⟨action, command, false, reason, hact, hdid.left _,
    by rw [attempts_append, hrec, hrest, List.append_nil], by simp⟩

theorem goesOn_openLogs (sessDir caller target resolved : CStr) (doLog logInput usePty : Bool) :
    GoesOn (openLogs sessDir caller target resolved doLog logInput usePty) := by
  have hrefuse : ∀ reason line, GoesOn (do
      auditLog .command caller target resolved false reason
      writeLine 2 line
      Pure.pure none : Sys (Option SessionLogs)) := fun reason line =>
    (goesOn_auditLog ..).bind fun _ => Plain.goesOn (by simp)
  refine .ite (fun _ => ?_) fun _ => Plain.goesOn (by simp)
  refine (Plain.goesOn (by simp)).bind fun logfd => .ite (fun _ => hrefuse _ _) fun _ => ?_
  refine .ite (fun _ => ?_) fun _ => Plain.goesOn (by simp)
  refine (Plain.goesOn (by simp)).bind fun inlogfd => .ite (fun _ => hrefuse _ _) fun _ => ?_
  exact Plain.goesOn (by simp)

/-- A log that cannot be opened is a refusal. -/
theorem returns_openLogs_record {sessDir caller target resolved : CStr}
    {doLog logInput usePty : Bool} {tr : Trace} {logs : Option SessionLogs}
    (h : Returns (openLogs sessDir caller target resolved doLog logInput usePty) tr logs) :
    (logs = none ∧ Refused .command caller target tr) ∨
      (∃ l, logs = some l) ∧ attempts tr = [] := by
  unfold openLogs at h
  split at h
  · obtain ⟨t₁, tr₁, logfd, rfl, hlog, h⟩ := returns_bind_iff.mp h
    have h₁ : attempts t₁ = [] := Silent.attempts_eq_nil (by simp) hlog
    split at h
    · have hnone : logs = none := by
        obtain ⟨_, _, _, -, -, h⟩ := returns_bind_iff.mp h
        obtain ⟨_, _, _, -, -, h⟩ := returns_bind_iff.mp h
        exact (returns_pure_iff.mp h).2
      exact Or.inl ⟨hnone, (refused_of_returns (Or.inl rfl) (by simp) h).right h₁⟩
    split at h
    · obtain ⟨t₂, tr₂, inlogfd, rfl, hin, h⟩ := returns_bind_iff.mp h
      have h₂ : attempts t₂ = [] := Silent.attempts_eq_nil (by simp) hin
      split at h
      · have hnone : logs = none := by
          obtain ⟨_, _, _, -, -, h⟩ := returns_bind_iff.mp h
          obtain ⟨_, _, _, -, -, h⟩ := returns_bind_iff.mp h
          exact (returns_pure_iff.mp h).2
        exact Or.inl ⟨hnone, ((refused_of_returns (Or.inl rfl) (by simp) h).right h₂).right h₁⟩
      · obtain ⟨rfl, rfl⟩ := returns_pure_iff.mp h
        exact Or.inr ⟨⟨_, rfl⟩, by simp [h₁, h₂]⟩
    · obtain ⟨rfl, rfl⟩ := returns_pure_iff.mp h
      exact Or.inr ⟨⟨_, rfl⟩, by simp [h₁]⟩
  · obtain ⟨rfl, rfl⟩ := returns_pure_iff.mp h
    exact Or.inr ⟨⟨_, rfl⟩, rfl⟩

theorem goesOn_runAuth (caller target resolved : CStr) (eval : Evaluation) :
    GoesOn (runAuth caller target resolved eval) := by
  refine .ite (fun _ => ?_) fun _ => Plain.goesOn (by simp)
  refine (Plain.goesOn (by simp [maskAuthSignals])).bind fun saved => ?_
  refine (goesOn_promptLoop ..).bind fun ok => ?_
  refine (Plain.goesOn (by simp [restoreSignals])).bind fun _ => .ite (fun _ => ?_) fun _ => ?_
  · exact (goesOn_auditLog ..).bind fun _ => Plain.goesOn (by simp)
  · exact Plain.goesOn (by simp)

/-- A failed authentication is a refusal. -/
theorem returns_runAuth_record {caller target resolved : CStr} {eval : Evaluation} {tr : Trace}
    {ok : Bool} (h : Returns (runAuth caller target resolved eval) tr ok) :
    (ok = false ∧ Refused .authFailure caller target tr) ∨ ok = true ∧ attempts tr = [] := by
  unfold runAuth at h
  split at h
  · obtain ⟨t₁, tr₁, saved, rfl, hmask, h⟩ := returns_bind_iff.mp h
    obtain ⟨t₂, tr₂, passed, rfl, hprompt, h⟩ := returns_bind_iff.mp h
    obtain ⟨t₃, tr₃, u, rfl, hrestore, h⟩ := returns_bind_iff.mp h
    have h₁ : attempts t₁ = [] := Silent.attempts_eq_nil (by simp [maskAuthSignals]) hmask
    have h₂ : attempts t₂ = [] := Silent.attempts_eq_nil (Confirming.silent (by simp)) hprompt
    have h₃ : attempts t₃ = [] := Silent.attempts_eq_nil (by simp [restoreSignals]) hrestore
    split at h
    · have hfalse : ok = false := by
        obtain ⟨_, _, _, -, -, h⟩ := returns_bind_iff.mp h
        obtain ⟨_, _, _, -, -, h⟩ := returns_bind_iff.mp h
        exact (returns_pure_iff.mp h).2
      exact Or.inl ⟨hfalse,
        (((refused_of_returns (Or.inr rfl) (by simp) h).right h₃).right h₂).right h₁⟩
    · obtain ⟨t₄, tr₄, err, rfl, hupdate, h⟩ := returns_bind_iff.mp h
      obtain ⟨rfl, rfl⟩ := returns_pure_iff.mp h
      have h₄ : attempts t₄ = [] := Silent.attempts_eq_nil (by simp) hupdate
      exact Or.inr ⟨rfl, by simp [h₁, h₂, h₃, h₄]⟩
  · obtain ⟨rfl, rfl⟩ := returns_pure_iff.mp h
    exact Or.inr ⟨rfl, rfl⟩

/-! ### The two exits without a record -/

/-- From an authorized evaluation on, the run gets to the target's ids and does not find
them. -/
def TargetMissing (caller target : CStr) (eval : Evaluation) (tr : Trace) : Prop :=
  (capsParseSet eval.capabilities).isSome = true ∧
    Starts (runAuth caller target (eval.resolvedCommand.getD (cstr "")) eval) (fun ok tr =>
      ok = true ∧ Starts (identityLookupUser target) (fun user _ => ∀ ids, user ≠ .found ids) tr) tr

/-- Under the policy, the run is authorized and gets to a target that is not there. -/
def MissingUnder (fuel : Nat) (cli : CliArgs) (policy : Policy) (caller : CStr)
    (callerUid callerGid : Nat) (tr : Trace) : Prop :=
  Starts (identityNssStatus (identitySetNssGroups nssInitial policy.defaults.nssGroups))
    (fun nss tr => Starts (auditNssBackend caller nss.1)
      (fun _ tr => Starts (identityLookupGroups nss.2 caller)
        (fun groups tr => Starts (evaluateWithPolicy fuel ⟨cli.policy, cli.target, .interactive⟩
            policy caller callerUid callerGid (some groups.1) cli.argv)
          (fun eval tr => eval.1.authorized = true ∧ TargetMissing caller cli.target eval.1 tr)
          tr) tr) tr) tr

/-- The run does not load its policy, or gets to a target that is not there. -/
def Unresolved (fuel : Nat) (cli : CliArgs) (caller : CStr) (callerUid callerGid : Nat)
    (tr : Trace) : Prop :=
  Starts (loadPolicy cli.policy) (fun policy tr =>
    match policy with
    | none => True
    | some policy => MissingUnder fuel cli policy caller callerUid callerGid tr) tr

/-- The run leaves no record if the exit is taken, and is audited otherwise. -/
structure Settles (exit : Prop) (caller target : CStr) (tr : Trace) (e : Ending) : Prop where
  unaudited : exit → attempts tr = []
  audited : ¬ exit → Audited caller target tr e

/-- A part of the run that leaves no record is passed over. -/
theorem settles_starts {α : Type} {p : Sys α} {Q : α → Trace → Prop} {caller target : CStr}
    {tr rest : Trace} {a : α} {e : Ending} (hb : Begins p tr a rest)
    (hp : ∀ t, Returns p t a → attempts t = []) (h : Settles (Q a rest) caller target rest e) :
    Settles (Starts p Q tr) caller target tr e := by
  have hiff : Starts p Q tr ↔ Q a rest := hb.starts_iff
  obtain ⟨t, rfl, ht⟩ := hb
  constructor
  · intro hexit
    rw [attempts_append, hp t ht, h.unaudited (hiff.mp hexit), List.nil_append]
  · exact fun hexit => (h.audited (mt hiff.mpr hexit)).right (hp t ht)

/-- A run whose evaluation authorized it. -/
theorem settles_runAuthorized {fuel : Nat} {nss : NssState} {policy : Policy} {caller : CStr}
    {callerUid : Nat} {target : CStr} {eval : Evaluation} {argv : List CStr} {tr : Trace}
    {e : Ending} (h : Ends (runAuthorized fuel nss policy caller callerUid target eval argv) tr e) :
    Settles (TargetMissing caller target eval tr) caller target tr e := by
  unfold runAuthorized at h
  dsimp only at h
  cases hcaps : capsParseSet eval.capabilities with
  | none =>
      rw [hcaps] at h
      -- Names that are no capabilities: refused before anyone is asked.
      refine ⟨fun hexit => absurd hexit.1 (by simp [hcaps]), fun _ => ?_⟩
      exact audited_of_refusal (Or.inl rfl) (by simp) h
  | some capMask =>
      rw [hcaps] at h
      dsimp only at h
      obtain ⟨ok, rest, hb, hend⟩ := h.of_bind (goesOn_runAuth ..)
      have hiff : TargetMissing caller target eval tr ↔ ok = true ∧
          Starts (identityLookupUser target) (fun user _ => ∀ ids, user ≠ .found ids) rest := by
        rw [TargetMissing, hb.starts_iff, and_iff_right (by simp [hcaps])]
      rw [hiff]
      obtain ⟨t, rfl, ht⟩ := hb
      rcases returns_runAuth_record ht with ⟨rfl, hrefused⟩ | ⟨rfl, hsilent⟩
      · obtain ⟨rfl, -⟩ := Ends.of_pure hend
        exact ⟨fun hexit => absurd hexit.1 (by simp),
          fun _ => hrefused.audited (Or.inr rfl) rfl⟩
      · obtain ⟨user, rest', hb', hend⟩ := Ends.of_bind hend (Plain.goesOn (by simp))
        have hlookup := hb'.starts_iff (Q := fun user _ => ∀ ids, user ≠ .found ids)
        rw [hlookup]
        obtain ⟨t', rfl, ht'⟩ := hb'
        have hsilent' : attempts t' = [] := Silent.attempts_eq_nil (by simp) ht'
        -- The silent exit: the user is authenticated, and the target is not found.
        cases user with
        | ioError | notFound =>
            obtain ⟨q, hq⟩ := hend.steps
            have hq : attempts rest' = [] := Silent.attempts_eq_nil (by simp) hq
            exact ⟨fun _ => by simp [hsilent, hsilent', hq],
              fun hfound => absurd ⟨rfl, by simp⟩ hfound⟩
        | found ids =>
            obtain ⟨targetUid, targetGid⟩ := ids
            refine ⟨fun hexit => absurd rfl (hexit.2 _), fun _ => ?_⟩
            obtain ⟨logs, rest'', ⟨t'', rfl, ht''⟩, hend⟩ := Ends.of_bind hend (goesOn_openLogs ..)
            refine Audited.right (Audited.right ?_ hsilent') hsilent
            -- Opening the logs either ends the run with a record of its own or leaves none.
            rcases returns_openLogs_record ht'' with ⟨rfl, hrefused⟩ | ⟨⟨l, rfl⟩, hsilent''⟩
            · obtain ⟨rfl, -⟩ := Ends.of_pure hend
              exact hrefused.audited (Or.inl rfl) rfl
            · exact (audited_runExec hend).right hsilent''

/-- A request under a loaded policy. -/
theorem settles_runRequest {fuel : Nat} {nss : NssState} {cli : CliArgs} {policy : Policy}
    {caller : CStr} {callerUid callerGid : Nat} {groups : List CStr} {tr : Trace} {e : Ending}
    (h : Ends (runRequest fuel nss cli policy caller callerUid callerGid groups) tr e) :
    Settles (Starts (evaluateWithPolicy fuel ⟨cli.policy, cli.target, .interactive⟩ policy caller
        callerUid callerGid (some groups) cli.argv)
      (fun eval tr => eval.1.authorized = true ∧ TargetMissing caller cli.target eval.1 tr) tr)
      caller cli.target tr e := by
  obtain ⟨⟨eval, argv⟩, rest, hb, hend⟩ := h.of_bind (Plain.goesOn (by simp))
  refine settles_starts hb (fun t => Silent.attempts_eq_nil (by simp)) ?_
  dsimp only at hend ⊢
  split at hend
  case isTrue hdenied =>
    refine ⟨fun hexit => absurd hexit.1 (by simpa using hdenied), fun _ => ?_⟩
    exact audited_of_refusal (Or.inl rfl) (by simp) hend
  case isFalse hauth =>
    have hauth : eval.authorized = true := by simpa using hauth
    rw [and_iff_right hauth]
    exact settles_runAuthorized hend

/-- A run in none of the modes, from its policy on. -/
theorem settles_runPolicy {fuel : Nat} {cli : CliArgs} {policy : Policy} {caller : CStr}
    {callerUid callerGid : Nat} {tr : Trace} {e : Ending} (hcheck : cli.check = false)
    (hlist : cli.list = false)
    (h : Ends (runPolicy fuel cli policy caller callerUid callerGid) tr e) :
    Settles (MissingUnder fuel cli policy caller callerUid callerGid tr) caller cli.target tr e
    := by
  unfold runPolicy at h
  dsimp only at h
  rw [if_neg (by simp [hcheck])] at h
  obtain ⟨nss, r₁, hb₁, h⟩ := h.of_bind (Plain.goesOn (by simp))
  refine settles_starts hb₁ (fun t => Silent.attempts_eq_nil (by simp)) ?_
  obtain ⟨u, r₂, hb₂, h⟩ := Ends.of_bind h (goesOn_auditNssBackend ..)
  refine settles_starts hb₂ (fun t ht => attempts_auditNssBackend ht) ?_
  obtain ⟨groups, r₃, hb₃, h⟩ := Ends.of_bind h (Plain.goesOn (by simp))
  refine settles_starts hb₃ (fun t => Silent.attempts_eq_nil (by simp)) ?_
  rw [if_neg (by simp [hlist])] at h
  exact settles_runRequest h

/-- The command line asks for a command to be run. -/
structure CliArgs.RunsCommand (cli : CliArgs) : Prop where
  help : cli.help = false
  version : cli.version = false
  invalidate : cli.invalidate = false
  check : cli.check = false
  list : cli.list = false
  command : cli.argv ≠ []

theorem settles_runModes {fuel : Nat} {cli : CliArgs} {caller : CStr} {callerUid callerGid : Nat}
    {tr : Trace} {e : Ending} (hcli : cli.RunsCommand)
    (h : Ends (runModes fuel cli caller callerUid callerGid) tr e) :
    Settles (Unresolved fuel cli caller callerUid callerGid tr) caller cli.target tr e := by
  have hargv : cli.argv.isEmpty = false := by simpa using hcli.command
  rw [runModes, if_neg (by simp [hcli.invalidate]), if_neg (by simp [hargv])] at h
  obtain ⟨policy, rest, hb, h⟩ := h.of_bind (Plain.goesOn (by simp))
  refine settles_starts hb (fun t => Silent.attempts_eq_nil (by simp)) ?_
  cases policy with
  | none =>
      obtain ⟨q, hq⟩ := h.steps
      exact ⟨fun _ => Silent.attempts_eq_nil (by simp) hq, fun hexit => absurd trivial hexit⟩
  | some policy => exact settles_runPolicy hcli.check hcli.list h

/-- A run that was asked to run a command and found its caller's name: the words parsed to
`cli`, the caller's uid, gid and name, and what is left of the run. -/
structure Requests (args : List CStr) (tr : Trace) (cli : CliArgs) (caller : CStr)
    (callerUid callerGid : Nat) (rest : Trace) : Prop where
  asked : cli.RunsCommand
  found : ∃ r₁ r₂ r₃ r₄ gid, Begins initTracing tr () r₁ ∧
    Begins (parseCliFrom args) r₁ (some cli) r₂ ∧ Begins (sys .getuid) r₂ callerUid r₃ ∧
    Begins (sys .getgid) r₃ callerGid r₄ ∧
    Begins (identityLookupUid callerUid) r₄ (.found (caller, gid)) rest

/-- **Every attempt is audited**, but for two exits. In every run that was asked to run a
command and found its caller's name, and that returned, is about to execute the command or
exits, the attempt is audited exactly when the run loaded its policy and did not get to a
target that is not there. -/
theorem shkRun_audited_iff {fuel : Nat} {args : List CStr} {tr rest : Trace} {cli : CliArgs}
    {caller : CStr} {callerUid callerGid : Nat} {e : Ending}
    (hreq : Requests args tr cli caller callerUid callerGid rest)
    (h : Ends (shkRun fuel args) tr e) :
    Audited caller cli.target tr e ↔ ¬ Unresolved fuel cli caller callerUid callerGid rest := by
  obtain ⟨r₁, r₂, r₃, r₄, gid, hb₁, hb₂, hb₃, hb₄, hb₅⟩ := hreq.found
  have h₁ := h.after hb₁
  have h₂ := Ends.after h₁ hb₂
  dsimp only at h₂
  rw [if_neg (by simp [hreq.asked.help]), if_neg (by simp [hreq.asked.version])] at h₂
  have h₃ := Ends.after h₂ hb₃
  have h₄ := Ends.after h₃ hb₄
  have h₅ := Ends.after h₄ hb₅
  have hsettles := settles_runModes hreq.asked h₅
  -- Nothing was recorded before the modes.
  obtain ⟨before, htr, hsilent⟩ : ∃ before, tr = before ++ rest ∧ attempts before = [] := by
    obtain ⟨t₁, rfl, ht₁⟩ := hb₁
    obtain ⟨t₂, rfl, ht₂⟩ := hb₂
    obtain ⟨t₃, rfl, ht₃⟩ := hb₃
    obtain ⟨t₄, rfl, ht₄⟩ := hb₄
    obtain ⟨t₅, rfl, ht₅⟩ := hb₅
    refine ⟨t₁ ++ (t₂ ++ (t₃ ++ (t₄ ++ t₅))), by simp only [List.append_assoc], ?_⟩
    simp only [attempts_append, List.append_eq_nil_iff]
    exact ⟨Silent.attempts_eq_nil (by simp [initTracing]) ht₁,
      Silent.attempts_eq_nil (by simp [parseCliFrom]) ht₂,
      Silent.attempts_eq_nil (by simp) ht₃, Silent.attempts_eq_nil (by simp) ht₄,
      Silent.attempts_eq_nil (by simp) ht₅⟩
  subst htr
  constructor
  · rintro ⟨action, command, success, reason, -, -, hrec, -⟩ hexit
    rw [attempts_append, hsilent, hsettles.unaudited hexit] at hrec
    simp at hrec
  · exact fun hexit => (hsettles.audited hexit).right hsilent

/-- Every run from the modes on is what is left of a run of `shk_run`. -/
theorem exists_requests {fuel : Nat} {args : List CStr} {cli : CliArgs} {caller : CStr}
    {callerUid callerGid gid : Nat} {parse lookup rest : Trace} {rc : Int}
    (hcli : cli.RunsCommand) (hparse : Returns (parseCliFrom args) parse (some cli))
    (hlookup : Returns (identityLookupUid callerUid) lookup (.found (caller, gid)))
    (hrest : Returns (runModes fuel cli caller callerUid callerGid) rest rc) :
    ∃ tr, Requests args tr cli caller callerUid callerGid rest ∧
      Ends (shkRun fuel args) tr (.returned rc) ∧ attempts tr = attempts rest := by
  have htracing : Returns initTracing [⟨.sakshiSetLevel, ()⟩] () := Steps.cons (Steps.nil _)
  have huid : Returns (sys .getuid) [⟨.getuid, callerUid⟩] callerUid := Steps.cons (Steps.nil _)
  have hgid : Returns (sys .getgid) [⟨.getgid, callerGid⟩] callerGid := Steps.cons (Steps.nil _)
  refine ⟨_ ++ (parse ++ (_ ++ (_ ++ (lookup ++ rest)))),
    ⟨hcli, _, _, _, _, gid, ⟨_, rfl, htracing⟩, ⟨_, rfl, hparse⟩, ⟨_, rfl, huid⟩,
      ⟨_, rfl, hgid⟩, ⟨_, rfl, hlookup⟩⟩, ?_, ?_⟩
  · refine htracing.bind (hparse.bind ?_)
    dsimp only
    rw [if_neg (by simp [hcli.help]), if_neg (by simp [hcli.version])]
    exact huid.bind (hgid.bind (hlookup.bind hrest))
  · simp only [attempts_append]
    rw [Silent.attempts_eq_nil (by simp [initTracing]) htracing,
      Silent.attempts_eq_nil (by simp [parseCliFrom]) hparse,
      Silent.attempts_eq_nil (by simp) huid, Silent.attempts_eq_nil (by simp) hgid,
      Silent.attempts_eq_nil (by simp) hlookup]
    rfl

/-- A command line that asks for `/bin/id` as `target`. -/
def askId (target : CStr) : CliArgs where
  target := target
  policy := defaultPolicyPath
  invalidate := false
  list := false
  check := false
  help := false
  version := false
  argv := [cstr "/bin/id"]

/-- A machine with the policy `text`. -/
def policyMachine (text : String) : FileView := rootFiles
  [(cstr "/etc/passwd", 420, twoUsers), (defaultPolicyPath, 384, utf8 text),
    (cstr "/bin/id", 493, [])]

/-- The run of `al` on a machine, when it returns. -/
theorem exists_requests_play {v : FileView} {args : List CStr} {cli : CliArgs} {rc : Int}
    (hcli : cli.RunsCommand)
    (hparse : (play v.machine ⟨1000, 1000, []⟩ (parseCliFrom args)).2.value = some (some cli))
    (hlookup : (play v.machine ⟨1000, 1000, []⟩ (identityLookupUid 1000)).2.value =
      some (.found (cstr "al", 1000)))
    (hrest : (play v.machine ⟨1000, 1000, []⟩
      (runModes 1 cli (cstr "al") 1000 1000)).2.value = some rc) :
    ∃ tr rest, Requests args tr cli (cstr "al") 1000 1000 rest ∧
      Ends (shkRun 1 args) tr (.returned rc) ∧
      Ends (runModes 1 cli (cstr "al") 1000 1000) rest (.returned rc) ∧
      attempts tr = attempts (play v.machine ⟨1000, 1000, []⟩
        (runModes 1 cli (cstr "al") 1000 1000)).1 ∧
      attempts rest = attempts tr := by
  have hmodes := play_returns hrest
  obtain ⟨tr, hreq, hend, hrec⟩ :=
    exists_requests hcli (play_returns hparse) (play_returns hlookup) hmodes
  exact ⟨tr, _, hreq, hend, hmodes, hrec, hrec.symm⟩

/-- Without a rule for him, the attempt of `al` is denied, and audited. -/
theorem shkRun_audited_denied :
    ∃ tr, Ends (shkRun 1 [cstr "shakti", cstr "/bin/id"]) tr (.returned 1) ∧
      Audited (cstr "al") (cstr "root") tr (.returned 1) := by
  have hcli : (askId (cstr "root")).RunsCommand := ⟨rfl, rfl, rfl, rfl, rfl, by simp [askId]⟩
  obtain ⟨tr, rest, hreq, hend, hmodes, hrec, hrest⟩ :=
    @exists_requests_play (policyMachine "[defaults]\n") [cstr "shakti", cstr "/bin/id"]
      (askId (cstr "root")) 1 hcli (by decide) (by decide) (by decide)
  refine ⟨tr, hend, (shkRun_audited_iff hreq hend).mpr fun hexit => ?_⟩
  have hnone := (settles_runModes hcli hmodes).unaudited hexit
  rw [hrest, hrec] at hnone
  exact absurd hnone (by decide)

/-- Without a policy file the attempt leaves no record; and neither does one that is allowed,
with a target that is in no passwd line. -/
theorem shkRun_unaudited :
    (∃ tr rest, Requests [cstr "shakti", cstr "/bin/id"] tr (askId (cstr "root")) (cstr "al")
        1000 1000 rest ∧
      Ends (shkRun 1 [cstr "shakti", cstr "/bin/id"]) tr (.returned 1) ∧ attempts tr = []) ∧
    ∃ tr rest, Requests [cstr "shakti", cstr "-u", cstr "eve", cstr "/bin/id"] tr
        (askId (cstr "eve")) (cstr "al") 1000 1000 rest ∧
      Ends (shkRun 1 [cstr "shakti", cstr "-u", cstr "eve", cstr "/bin/id"]) tr (.returned 1) ∧
      attempts tr = [] := by
  have hcli : ∀ target, (askId target).RunsCommand := fun _ =>
    ⟨rfl, rfl, rfl, rfl, rfl, by simp [askId]⟩
  constructor
  · obtain ⟨tr, rest, hreq, hend, -, hrec, -⟩ :=
      @exists_requests_play (rootFiles [(cstr "/etc/passwd", 420, twoUsers)])
        [cstr "shakti", cstr "/bin/id"] (askId (cstr "root")) 1 (hcli _)
        (by decide) (by decide) (by decide)
    exact ⟨tr, rest, hreq, hend, hrec.trans (by decide)⟩
  · obtain ⟨tr, rest, hreq, hend, -, hrec, -⟩ :=
      @exists_requests_play
        (policyMachine "[[rules]]\nuser=\"al\"\nrun_as=\"*\"\nrequire_auth=false\n")
        [cstr "shakti", cstr "-u", cstr "eve", cstr "/bin/id"] (askId (cstr "eve")) 1 (hcli _)
        (by decide) (by decide) (by decide)
    exact ⟨tr, rest, hreq, hend, hrec.trans (by decide)⟩

end Shakti
