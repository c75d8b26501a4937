import Shakti.CallClasses

/-!
# Shakti.Quiet

Programs that neither replace the process image nor write to the audit trail.

Almost every function of the sources is such a program. `Quiet` says so of one, and
this file says it of each that is in no class of calls that tells: a statement about the calls
of `execve`, or about the audit trail, is then a statement about the few functions that are left.
-/

namespace Shakti

open Effects Effects.Prog

/-- The calls that replace the process image or write to the audit trail. -/
@[simp] def Loud : SysCall → Prop
  | .execve _ _ _ _ | .appendLocked _ _ | .sakshiInfo _ | .sakshiWarn _ => True
  | _ => False

/-- No run of the program issues a loud call. -/
abbrev Quiet {α : Type} (p : Sys α) : Prop := Avoids Loud p

/-- The loud calls, and those that end the process. -/
@[simp] def Marked : SysCall → Prop
  | .exit _ => True
  | c => Loud c

/-- No run of the program issues a loud call or ends the process. -/
abbrev Plain {α : Type} (p : Sys α) : Prop := Avoids Marked p

theorem Marked.of_loud {c : SysCall} (hc : Loud c) : Marked c := by
  cases c <;> simp_all

theorem Marked.beyondUsing {c : SysCall} (hc : Marked c) : BeyondUsing c := by
  cases c <;> simp_all

theorem Marked.beyondFiling {c : SysCall} (hc : Marked c) : BeyondFiling c := by
  cases c <;> simp_all

theorem Loud.beyondDropping {c : SysCall} (hc : Loud c) : BeyondDropping c := by
  cases c <;> simp_all

@[simp] theorem Plain.quiet {α : Type} {p : Sys α} (hp : Plain p) : Quiet p :=
  hp.mono fun _ => Marked.of_loud

@[simp] theorem Using.plain {α : Type} {p : Sys α} (hp : Using p) : Plain p :=
  hp.mono fun _ => Marked.beyondUsing

@[simp] theorem Filing.plain {α : Type} {p : Sys α} (hp : Filing p) : Plain p :=
  hp.mono fun _ => Marked.beyondFiling

@[simp] theorem Writing.plain {α : Type} {p : Sys α} (hp : Writing p) : Plain p :=
  hp.using.plain

@[simp] theorem Asking.plain {α : Type} {p : Sys α} (hp : Asking p) : Plain p :=
  hp.using.plain

@[simp] theorem Looking.plain {α : Type} {p : Sys α} (hp : Looking p) : Plain p :=
  hp.asking.plain

@[simp] theorem Using.quiet {α : Type} {p : Sys α} (hp : Using p) : Quiet p := hp.plain.quiet

@[simp] theorem Filing.quiet {α : Type} {p : Sys α} (hp : Filing p) : Quiet p := hp.plain.quiet

@[simp] theorem Writing.quiet {α : Type} {p : Sys α} (hp : Writing p) : Quiet p := hp.plain.quiet

@[simp] theorem Asking.quiet {α : Type} {p : Sys α} (hp : Asking p) : Quiet p := hp.plain.quiet

@[simp] theorem Looking.quiet {α : Type} {p : Sys α} (hp : Looking p) : Quiet p := hp.plain.quiet

@[simp] theorem Dropping.quiet {α : Type} {p : Sys α} (hp : Dropping p) : Quiet p :=
  hp.mono fun _ => Loud.beyondDropping

@[simp] theorem quiet_sysExit {α : Type} (code : Int) : Quiet (sysExit code : Sys α) :=
  avoids_sysExit (by simp)

@[simp] theorem plain_evaluateWithPolicy (fuel : Nat) (config : Config) (policy : Policy)
    (caller : CStr) (callerUid callerGid : Nat) (groups : Option (List CStr))
    (argv : List CStr) :
    Plain (evaluateWithPolicy fuel config policy caller callerUid callerGid groups argv) :=
  avoids_evaluateWithPolicy (fun _ => Marked.beyondUsing) (by simp) ..

@[simp] theorem plain_pamAuthenticate (username password : CStr) :
    Plain (pamAuthenticate username password) := by
  refine .bind (by simp) fun rc => ?_
  cases rc <;> simp

@[simp] theorem plain_suParent (rfd wfd pid : Int) (password : CStr) :
    Plain (suParent rfd wfd pid password) := by
  simp [suParent]

@[simp] theorem plain_sessionOpenpt : Plain sessionOpenpt := by
  simp [sessionOpenpt]

@[simp] theorem plain_sessionOpenSlave (master : Int) : Plain (sessionOpenSlave master) := by
  apply avoids_sessionOpenSlave <;> simp

@[simp] theorem plain_ptyParent (fuel : Nat) (slave master pid logfd inlogfd start : Int) :
    Plain (ptyParent fuel slave master pid logfd inlogfd start) := by
  simp [ptyParent]

@[simp] theorem quiet_applyLsmOrDie (seCtx aaProf : CStr) :
    Quiet (applyLsmOrDie seCtx aaProf) := by
  simp [applyLsmOrDie]

end Shakti
