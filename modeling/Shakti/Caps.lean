import Shakti.Sys

/-!
# Shakti.Caps

Linux capabilities (`caps.cyr`): the name table, the fold of a list of names into
a mask, and the `capset`/`prctl` calls of the privilege drop.

A mask is a `Nat` whose bit `b` stands for capability `b`; `caps_parse_set`
refuses a list (`none`, the source's `-1`) as soon as one name is unknown.
-/

namespace Shakti

open Effects

/-! ### Names and bits -/

/-- `CAP_LAST_CAP`. -/
def capLastCap : Nat := 40

/-- The capability names in the order of their bits. The source has them in two tables, one for
each direction; `I64.tables_eq` says that either is this list. -/
def capNames : List CStr :=
  ["CAP_CHOWN", "CAP_DAC_OVERRIDE", "CAP_DAC_READ_SEARCH", "CAP_FOWNER", "CAP_FSETID",
    "CAP_KILL", "CAP_SETGID", "CAP_SETUID", "CAP_SETPCAP", "CAP_LINUX_IMMUTABLE",
    "CAP_NET_BIND_SERVICE", "CAP_NET_BROADCAST", "CAP_NET_ADMIN", "CAP_NET_RAW",
    "CAP_IPC_LOCK", "CAP_IPC_OWNER", "CAP_SYS_MODULE", "CAP_SYS_RAWIO", "CAP_SYS_CHROOT",
    "CAP_SYS_PTRACE", "CAP_SYS_PACCT", "CAP_SYS_ADMIN", "CAP_SYS_BOOT", "CAP_SYS_NICE",
    "CAP_SYS_RESOURCE", "CAP_SYS_TIME", "CAP_SYS_TTY_CONFIG", "CAP_MKNOD", "CAP_LEASE",
    "CAP_AUDIT_WRITE", "CAP_AUDIT_CONTROL", "CAP_SETFCAP", "CAP_MAC_OVERRIDE",
    "CAP_MAC_ADMIN", "CAP_SYSLOG", "CAP_WAKE_ALARM", "CAP_BLOCK_SUSPEND", "CAP_AUDIT_READ",
    "CAP_PERFMON", "CAP_BPF", "CAP_CHECKPOINT_RESTORE"].map cstr

/-- `caps_name_to_bit`; `none` is the source's `-1`. -/
def capsNameToBit (name : CStr) : Option Nat := capNames.idxOf? name

/-- `caps_bit_to_name`. -/
def capsBitToName (bit : Nat) : CStr := capNames.getD bit (cstr "")

/-- `caps_parse_set`, from the mask folded so far. -/
def capsParseLoop : List CStr → Nat → Option Nat
  | [], mask => some mask
  | name :: names, mask =>
      match capsNameToBit name with
      | none => none
      | some bit => capsParseLoop names (mask ||| 1 <<< bit)

/-- `caps_parse_set`. -/
def capsParseSet (names : List CStr) : Option Nat := capsParseLoop names 0

/-- `caps_mask_lo`. -/
def capsMaskLo (mask : Nat) : Nat := mask &&& 4294967295

/-- `caps_mask_hi`. -/
def capsMaskHi (mask : Nat) : Nat := (mask >>> 32) &&& 4294967295

/-- The test `(mask & (1 << c)) != 0`. -/
def hasCap (mask c : Nat) : Bool := decide (mask &&& 1 <<< c ≠ 0)

/-- `caps_describe`, from capability `c` on; `first` while nothing was written. -/
def capsDescribeLoop (mask : Nat) : List Nat → Bool → CStr → CStr
  | [], _, sb => sb
  | c :: cs, first, sb =>
      if hasCap mask c then
        capsDescribeLoop mask cs false
          ((if first then sb else sb ++ cstr ",") ++ capsBitToName c)
      else capsDescribeLoop mask cs first sb

/-- `caps_describe`. -/
def capsDescribe (mask : Nat) : CStr :=
  if mask = 0 then cstr "ALL"
  else capsDescribeLoop mask (List.range (capLastCap + 1)) true (cstr "")

/-! ### The calls of the privilege drop -/

def prSetKeepcaps : Nat := 8
def prCapbsetDrop : Nat := 24
def prCapAmbient : Nat := 47
def prCapAmbientRaise : Nat := 2
def linuxCapabilityVersion3 : Nat := 537396514

/-- `caps_keepcaps`. -/
def capsKeepcaps (on : Nat) : Sys Int := sys (.prctl prSetKeepcaps on 0)

/-- `caps_capset`: effective, permitted and inheritable all become `mask`. -/
def capsCapset (mask : Nat) : Sys Int := do
  let hdr : Bool ← sys (.alloc 8)
  if !hdr then pure (-1)
  else do
    let data : Bool ← sys (.alloc 24)
    if !data then pure (-1)
    else
      let lo := capsMaskLo mask
      let hi := capsMaskHi mask
      sys (.capset linuxCapabilityVersion3 0 [lo, lo, lo, hi, hi, hi])

/-- `caps_capget_effective`; `none` is the source's `-1`. -/
def capsCapgetEffective : Sys (Option Nat) := do
  let hdr : Bool ← sys (.alloc 8)
  if !hdr then pure none
  else do
    let data : Bool ← sys (.alloc 24)
    if !data then pure none
    else do
      let words : Option (List Nat) ← sys (.capget linuxCapabilityVersion3 0)
      match words with
      | none => pure none
      | some words =>
          let lo := words.getD 0 0 &&& 4294967295
          let hi := words.getD 3 0 &&& 4294967295
          pure (some (hi <<< 32 ||| lo))

/-- The loop both `caps_bset_drop_complement` and `caps_ambient_raise_set` run over the
capabilities: one `prctl` for each selected one. The first error ends it. -/
def capsPrctlLoop (selected : Nat → Bool) (option : Nat) (args : Nat → Nat × Nat) :
    List Nat → Sys Int
  | [] => pure 0
  | c :: cs =>
      if selected c then do
        let r : Int ← sys (.prctl option (args c).1 (args c).2)
        if r < 0 then pure r else capsPrctlLoop selected option args cs
      else capsPrctlLoop selected option args cs

/-- `caps_bset_drop_complement`. -/
def capsBsetDropComplement (mask : Nat) : Sys Int :=
  capsPrctlLoop (fun c => !hasCap mask c) prCapbsetDrop (fun c => (c, 0))
    (List.range (capLastCap + 1))

/-- `caps_ambient_raise_set`. -/
def capsAmbientRaiseSet (mask : Nat) : Sys Int :=
  capsPrctlLoop (fun c => hasCap mask c) prCapAmbient (fun c => (prCapAmbientRaise, c))
    (List.range (capLastCap + 1))

section Calls

open Prog

variable {P : SysCall → Prop}

/-- A class that holds of none of the calls is avoided. -/
theorem avoids_capsCapgetEffective (hbuf : ¬ P (.alloc 8) ∧ ¬ P (.alloc 24))
    (hcapget : ¬ P (.capget linuxCapabilityVersion3 0)) : Avoids P capsCapgetEffective := by
  refine .bind ((avoids_ask _).mpr hbuf.1) fun hdr => avoids_ite.mpr ⟨by simp, fun _ => ?_⟩
  refine .bind ((avoids_ask _).mpr hbuf.2) fun data => avoids_ite.mpr ⟨by simp, fun _ => ?_⟩
  refine .bind ((avoids_ask _).mpr hcapget) fun words => ?_
  cases words <;> simp

theorem avoids_capsPrctlLoop {selected : Nat → Bool} {option : Nat} {args : Nat → Nat × Nat}
    (hprctl : ∀ c, ¬ P (.prctl option (args c).1 (args c).2)) (cs : List Nat) :
    Avoids P (capsPrctlLoop selected option args cs) := by
  induction cs with
  | nil => exact avoids_pure 0
  | cons c cs ih =>
      refine avoids_ite.mpr ⟨fun _ => ?_, fun _ => ih⟩
      refine .bind ((avoids_ask _).mpr (hprctl c)) fun r => ?_
      exact avoids_ite.mpr ⟨fun _ => avoids_pure r, fun _ => ih⟩

end Calls

end Shakti
