import Shakti.CallClasses
import Shakti.Plan

/-!
# Shakti.Footprint

What a plan does to the machine.

Most of a plan tells, in the sense of the classes of calls. The parts that do more are an
evaluation, a confirmation of who the caller is, the opening of logs and the removal of a
timestamp: what these avoid, a plan avoids (`PlanParts`), and a call that only these make is made
in one of them (`issues_planRun`).
-/

namespace Shakti

open Effects Effects.Prog

/-! ### Telling -/

@[simp] theorem telling_auditLog (action : AuditAction) (caller target command : CStr)
    (success : Bool) (reason : CStr) :
    Telling (auditLog action caller target command success reason) := by
  simp [auditLog, buildFileLine]

@[simp] theorem telling_auditNssBackend (caller : CStr) (status : Option Bool) :
    Telling (auditNssBackend caller status) := by
  rcases status with _ | _ | _ <;> simp [auditNssBackend]

@[simp] theorem telling_initTracing : Telling initTracing := by
  simp [initTracing]

/-! ### Handling files and descriptors -/

/-- The calls on processes and on credentials, and those of the password backends. -/
@[simp] def BeyondHandling : SysCall → Prop
  | .pamUnixAuthenticate _ _ | .pipe | .fork | .waitpid _ | .dup2 _ _ | .setsid | .closeRange _
  | .setgroups _ | .setgid _ | .setuid _ | .prctl _ _ _ | .capset _ _ _ | .execve _ _ _ _
  | .exit _ => True
  | _ => False

/-- No run of the program does more than handle files and descriptors: it may do anything but
make or become another process, change its credentials or its descriptors as a whole, or have a
password checked. -/
abbrev Handling {α : Type} (p : Sys α) : Prop := Avoids BeyondHandling p

theorem BeyondHandling.beyondTelling {c : SysCall} (hc : BeyondHandling c) : BeyondTelling c := by
  cases c <;> simp_all

theorem BeyondHandling.beyondUsing {c : SysCall} (hc : BeyondHandling c) : BeyondUsing c := by
  cases c <;> simp_all

theorem BeyondHandling.beyondFiling {c : SysCall} (hc : BeyondHandling c) : BeyondFiling c := by
  cases c <;> simp_all

@[simp] theorem Telling.handling {α : Type} {p : Sys α} (hp : Telling p) : Handling p :=
  hp.mono fun _ => BeyondHandling.beyondTelling

@[simp] theorem Using.handling {α : Type} {p : Sys α} (hp : Using p) : Handling p :=
  hp.mono fun _ => BeyondHandling.beyondUsing

@[simp] theorem Filing.handling {α : Type} {p : Sys α} (hp : Filing p) : Handling p :=
  hp.mono fun _ => BeyondHandling.beyondFiling

@[simp] theorem Writing.handling {α : Type} {p : Sys α} (hp : Writing p) : Handling p :=
  hp.telling.handling

@[simp] theorem Asking.handling {α : Type} {p : Sys α} (hp : Asking p) : Handling p :=
  hp.telling.handling

@[simp] theorem Looking.handling {α : Type} {p : Sys α} (hp : Looking p) : Handling p :=
  hp.asking.handling

@[simp] theorem handling_evaluateWithPolicy (fuel : Nat) (config : Config) (policy : Policy)
    (caller : CStr) (callerUid callerGid : Nat) (groups : Option (List CStr))
    (argv : List CStr) :
    Handling (evaluateWithPolicy fuel config policy caller callerUid callerGid groups argv) :=
  avoids_evaluateWithPolicy (fun _ => BeyondHandling.beyondUsing) (by simp) ..

@[simp] theorem handling_runInvalidate (cli : CliArgs) (caller : CStr) :
    Handling (runInvalidate cli caller) := by
  simp [runInvalidate]

@[simp] theorem handling_openLogs (dir caller target resolved : CStr)
    (doLog logInput usePty : Bool) :
    Handling (openLogs dir caller target resolved doLog logInput usePty) := by
  simp [openLogs]

@[simp] theorem handling_sessionOpenSlave (master : Int) :
    Handling (sessionOpenSlave master) := by
  apply avoids_sessionOpenSlave <;> simp

/-! ### The plan -/

/-- The parts of a plan that do more than look, ask and tell avoid the calls. -/
structure PlanParts (P : SysCall → Prop) (fuel : Nat) : Prop where
  telling : ∀ c, P c → BeyondTelling c
  evaluates : ∀ config policy caller callerUid callerGid groups argv, Avoids P
    (evaluateWithPolicy fuel config policy caller callerUid callerGid groups argv)
  confirms : ∀ caller target resolved eval, Avoids P (runAuth caller target resolved eval)
  opens : ∀ dir caller target resolved doLog logInput usePty,
    Avoids P (openLogs dir caller target resolved doLog logInput usePty)
  invalidates : ∀ cli caller, Avoids P (runInvalidate cli caller)

variable {P : SysCall → Prop} {fuel : Nat}

theorem PlanParts.avoids_telling (hP : PlanParts P fuel) {α : Type} {p : Sys α}
    (hp : Telling p) : Avoids P p :=
  hp.mono hP.telling

theorem PlanParts.avoids_planAuthorized (hP : PlanParts P fuel) (nss : NssState)
    (policy : Policy) (caller : CStr) (callerUid : Nat) (target : CStr) (eval : Evaluation)
    (argv : List CStr) :
    Avoids P (planAuthorized nss policy caller callerUid target eval argv) := by
  unfold planAuthorized
  dsimp only
  cases capsParseSet eval.capabilities with
  | none => exact hP.avoids_telling (by simp)
  | some capMask =>
      refine .bind (hP.confirms ..) fun ok => avoids_ite.mpr ⟨by simp, fun _ => ?_⟩
      refine .bind (hP.avoids_telling (by simp)) fun user => ?_
      cases user with
      | found ids =>
          refine .bind (hP.opens ..) fun logs => ?_
          cases logs <;> simp
      | notFound => exact hP.avoids_telling (by simp)
      | ioError => exact hP.avoids_telling (by simp)

theorem PlanParts.avoids_planPolicy (hP : PlanParts P fuel) (cli : CliArgs) (policy : Policy)
    (caller : CStr) (callerUid callerGid : Nat) :
    Avoids P (planPolicy fuel cli policy caller callerUid callerGid) := by
  refine avoids_ite.mpr ⟨fun _ => hP.avoids_telling (by simp), fun _ => ?_⟩
  refine .bind (hP.avoids_telling (by simp)) fun r => ?_
  refine .bind (hP.avoids_telling (by simp)) fun _ => ?_
  refine .bind (hP.avoids_telling (by simp)) fun r => ?_
  refine avoids_ite.mpr ⟨fun _ => hP.avoids_telling (by simp), fun _ => ?_⟩
  refine .bind (hP.evaluates ..) fun r => ?_
  refine avoids_ite.mpr ⟨fun _ => hP.avoids_telling (by simp), fun _ => ?_⟩
  exact hP.avoids_planAuthorized ..

/-- What its parts avoid, a plan avoids. -/
theorem PlanParts.avoids_planRun (hP : PlanParts P fuel) (args : List CStr) :
    Avoids P (planRun fuel args) := by
  refine .bind (hP.avoids_telling (by simp)) fun _ => ?_
  refine .bind (hP.avoids_telling (by simp)) fun cli => ?_
  cases cli with
  | none => exact hP.avoids_telling (by simp)
  | some cli =>
      refine avoids_ite.mpr ⟨fun _ => hP.avoids_telling (by simp), fun _ => ?_⟩
      refine avoids_ite.mpr ⟨fun _ => hP.avoids_telling (by simp), fun _ => ?_⟩
      refine .bind (hP.avoids_telling (by simp)) fun callerUid => ?_
      refine .bind (hP.avoids_telling (by simp)) fun callerGid => ?_
      refine .bind (hP.avoids_telling (by simp)) fun user => ?_
      cases user with
      | notFound => exact hP.avoids_telling (by simp)
      | ioError => exact hP.avoids_telling (by simp)
      | found ids =>
          refine avoids_ite.mpr ⟨fun _ => .bind (hP.invalidates ..) fun _ => by simp, fun _ => ?_⟩
          refine avoids_ite.mpr ⟨fun _ => hP.avoids_telling (by simp), fun _ => ?_⟩
          refine .bind (hP.avoids_telling (by simp)) fun policy => ?_
          cases policy with
          | none => exact hP.avoids_telling (by simp)
          | some policy => exact hP.avoids_planPolicy ..

/-! ### Where a call comes from -/

/-- The parts of a plan that do more than look, ask and tell: `c` is pending in one of them after
`t₂`, and `t₁` is what the plan did before. -/
inductive Doing (caller : CStr) (t₁ t₂ : Trace) (c : SysCall) : Prop
  | invalidates (cli : CliArgs) : Issues (runInvalidate cli caller) t₂ c → Doing caller t₁ t₂ c
  | confirms (target resolved : CStr) (eval : Evaluation) :
      Issues (runAuth caller target resolved eval) t₂ c → Doing caller t₁ t₂ c
  | opens (path : CStr) (policy : Policy) (target resolved : CStr)
      (doLog logInput usePty : Bool) :
      validateUsername caller = .ok → Did t₁ (loadPolicy path) (some policy) →
      Issues (openLogs policy.defaults.sessionLogDir caller target resolved doLog logInput usePty)
        t₂ c →
      Doing caller t₁ t₂ c

theorem Doing.right {caller : CStr} {t₁ t₂ : Trace} {c : SysCall} (h : Doing caller t₁ t₂ c)
    (t₀ : Trace) : Doing caller (t₀ ++ t₁) t₂ c := by
  cases h with
  | invalidates cli h => exact .invalidates cli h
  | confirms target resolved eval h => exact .confirms target resolved eval h
  | opens path policy target resolved doLog logInput usePty hcaller hpolicy h =>
      exact .opens path policy target resolved doLog logInput usePty hcaller (hpolicy.right t₀) h

section Origins

variable {c : SysCall} {tr : Trace}

theorem issues_planAuthorized (htelling : ∀ c, P c → BeyondTelling c) {nss : NssState}
    {policy : Policy} {caller : CStr} {callerUid : Nat} {target : CStr} {eval : Evaluation}
    {argv : List CStr}
    (h : Issues (planAuthorized nss policy caller callerUid target eval argv) tr c) (hc : P c) :
    ∃ t₁ t₂, tr = t₁ ++ t₂ ∧
      ((∃ resolved, Issues (runAuth caller target resolved eval) t₂ c) ∨
        ∃ resolved usePty, Issues (openLogs policy.defaults.sessionLogDir caller target resolved
          eval.logSession eval.logInput usePty) t₂ c) := by
  have htell {α : Type} {p : Sys α} (hp : Telling p) : Avoids P p := hp.mono htelling
  unfold planAuthorized at h
  dsimp only at h
  cases hcaps : capsParseSet eval.capabilities with
  | none =>
      rw [hcaps] at h
      exact absurd h (Avoids.not_issues (htell (by simp)) hc)
  | some capMask =>
      rw [hcaps] at h
      rcases issues_bind_iff.mp h with h | ⟨t₁, t₂, ok, rfl, -, h⟩
      · exact ⟨[], tr, rfl, Or.inl ⟨_, h⟩⟩
      cases ok with
      | false => exact absurd h not_issues_pure
      | true =>
          obtain ⟨t₃, t₄, user, rfl, -, h⟩ := h.bind_avoids (htell (by simp)) hc
          cases user with
          | notFound => exact absurd h (Avoids.not_issues (htell (by simp)) hc)
          | ioError => exact absurd h (Avoids.not_issues (htell (by simp)) hc)
          | found ids =>
              rcases issues_bind_iff.mp h with h | ⟨t₅, t₆, logs, rfl, -, h⟩
              · exact ⟨t₁ ++ t₃, t₄, (List.append_assoc ..).symm, Or.inr ⟨_, _, h⟩⟩
              · cases logs <;> exact absurd h not_issues_pure

theorem issues_planModes (htelling : ∀ c, P c → BeyondTelling c)
    (heval : ∀ config policy caller callerUid callerGid groups argv, Avoids P
      (evaluateWithPolicy fuel config policy caller callerUid callerGid groups argv))
    {cli : CliArgs} {caller : CStr} {callerUid callerGid : Nat}
    (h : Issues (planModes fuel cli caller callerUid callerGid) tr c) (hc : P c) :
    ∃ t₁ t₂, tr = t₁ ++ t₂ ∧ Doing caller t₁ t₂ c := by
  have htell {α : Type} {p : Sys α} (hp : Telling p) : Avoids P p := hp.mono htelling
  unfold planModes at h
  split at h
  · rcases issues_bind_iff.mp h with h | ⟨_, _, _, -, -, h⟩
    · exact ⟨[], tr, rfl, .invalidates cli h⟩
    · exact absurd h not_issues_pure
  split at h
  · exact absurd h (Avoids.not_issues (htell (by simp)) hc)
  obtain ⟨t₁, t₂, policy, rfl, hpolicy, h⟩ := h.bind_avoids (htell (by simp)) hc
  cases policy with
  | none => exact absurd h (Avoids.not_issues (htell (by simp)) hc)
  | some policy =>
  dsimp only at h
  unfold planPolicy at h
  dsimp only at h
  split at h
  · exact absurd h (Avoids.not_issues (htell (by simp)) hc)
  obtain ⟨t₃, t₄, ⟨status, nss⟩, rfl, -, h⟩ := h.bind_avoids (htell (by simp)) hc
  obtain ⟨t₅, t₆, _, rfl, -, h⟩ := h.bind_avoids (htell (by simp)) hc
  obtain ⟨t₇, t₈, ⟨groups, nss'⟩, rfl, -, h⟩ := h.bind_avoids (htell (by simp)) hc
  dsimp only at h
  split at h
  · exact absurd h (Avoids.not_issues (htell (by simp)) hc)
  obtain ⟨t₉, t₁₀, ⟨eval, argv⟩, rfl, heval', h⟩ := h.bind_avoids (heval ..) hc
  dsimp only at h
  split at h
  · exact absurd h (Avoids.not_issues (htell (by simp)) hc)
  rename_i hauthorized
  obtain ⟨authz, happroved⟩ := returns_evaluateWithPolicy heval' (by simpa using hauthorized)
  obtain ⟨t₁₁, t₁₂, rfl, hor⟩ := issues_planAuthorized htelling h hc
  refine ⟨t₁ ++ (t₃ ++ t₅ ++ t₇ ++ t₉ ++ t₁₁), t₁₂, by simp, ?_⟩
  rcases hor with ⟨resolved, h⟩ | ⟨resolved, usePty, h⟩
  · exact .confirms _ resolved eval h
  · exact .opens _ policy _ resolved _ _ usePty happroved.callerValid (hpolicy.did.left _) h

/-- **Where a plan does more than look, ask and tell.** A call of a kind that an evaluation
avoids is made for the caller who was found for the user that runs the program: to remove a
timestamp, to confirm who it is, or to open a log. -/
theorem issues_planRun (htelling : ∀ c, P c → BeyondTelling c)
    (heval : ∀ config policy caller callerUid callerGid groups argv, Avoids P
      (evaluateWithPolicy fuel config policy caller callerUid callerGid groups argv))
    {args : List CStr} (h : Issues (planRun fuel args) tr c) (hc : P c) :
    ∃ t₁ t₂ callerUid caller gid, tr = t₁ ++ t₂ ∧ Did t₁ (sys .getuid) callerUid ∧
      Did t₁ (identityLookupUid callerUid) (.found (caller, gid)) ∧ Doing caller t₁ t₂ c := by
  have htell {α : Type} {p : Sys α} (hp : Telling p) : Avoids P p := hp.mono htelling
  obtain ⟨t₁, t₂, _, rfl, -, h⟩ := h.bind_avoids (htell (by simp)) hc
  obtain ⟨t₃, t₄, cli, rfl, -, h⟩ := h.bind_avoids (htell (by simp)) hc
  cases cli with
  | none => exact absurd h (Avoids.not_issues (htell (by simp)) hc)
  | some cli =>
  dsimp only at h
  split at h
  · exact absurd h (Avoids.not_issues (htell (by simp)) hc)
  split at h
  · exact absurd h (Avoids.not_issues (htell (by simp)) hc)
  obtain ⟨t₅, t₆, callerUid, rfl, huid, h⟩ := h.bind_avoids (htell (by simp)) hc
  obtain ⟨t₇, t₈, callerGid, rfl, -, h⟩ := h.bind_avoids (htell (by simp)) hc
  obtain ⟨t₉, t₁₀, user, rfl, huser, h⟩ := h.bind_avoids (htell (by simp)) hc
  cases user with
  | notFound => exact absurd h (Avoids.not_issues (htell (by simp)) hc)
  | ioError => exact absurd h (Avoids.not_issues (htell (by simp)) hc)
  | found ids =>
      obtain ⟨caller, gid⟩ := ids
      obtain ⟨t₁₁, t₁₂, rfl, hdoing⟩ := issues_planModes htelling heval h hc
      refine ⟨t₁ ++ t₃ ++ (t₅ ++ (t₇ ++ (t₉ ++ t₁₁))), t₁₂, callerUid, caller, gid, by simp,
        (huid.did.left _).right _, (((huser.did.left _).right t₇).right t₅).right _, ?_⟩
      exact (((hdoing.right t₉).right t₇).right t₅).right _

end Origins

end Shakti
