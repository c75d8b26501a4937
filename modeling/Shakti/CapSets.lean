import Shakti.Lib.BitMask
import Shakti.PrivilegeDrop

/-!
# Shakti.CapSets

Capability sets and their encodings.

`Shakti.Caps` has one list of names and masks of any size. Here the functions of `caps.cyr` are
as the source has them, on 64-bit integers and with the two tables it spells out:

* `I64.capsNameToBit`, `I64.capsBitToName` — by `nameTable` and `bitTable`. `capsNameToBit_eq`
  and `capsBitToName_eq` say that both agree with the list of names.
* `I64.capsParseSet`, `I64.capsMaskLo`, `I64.capsMaskHi`, `I64.capsDescribe` — each is the
  function of `Shakti.Caps` (`capsParseSet_eq` and so on).
* `Encodes names mask` — what it means that a mask, its two words and its description stand for a
  list of names.
-/

namespace Shakti

open BitMask

/-! ### The functions on 64-bit integers -/

namespace I64

/-- `Cap`. -/
inductive Cap
  | chown | dacOverride | dacReadSearch | fowner | fsetid | kill | setgid | setuid | setpcap
  | linuxImmutable | netBindService | netBroadcast | netAdmin | netRaw | ipcLock | ipcOwner
  | sysModule | sysRawio | sysChroot | sysPtrace | sysPacct | sysAdmin | sysBoot | sysNice
  | sysResource | sysTime | sysTtyConfig | mknod | lease | auditWrite | auditControl | setfcap
  | macOverride | macAdmin | syslog | wakeAlarm | blockSuspend | auditRead | perfmon | bpf
  | checkpointRestore
  deriving DecidableEq

/-- The number of a capability. -/
def Cap.bit : Cap → Nat
  | .chown => 0
  | .dacOverride => 1
  | .dacReadSearch => 2
  | .fowner => 3
  | .fsetid => 4
  | .kill => 5
  | .setgid => 6
  | .setuid => 7
  | .setpcap => 8
  | .linuxImmutable => 9
  | .netBindService => 10
  | .netBroadcast => 11
  | .netAdmin => 12
  | .netRaw => 13
  | .ipcLock => 14
  | .ipcOwner => 15
  | .sysModule => 16
  | .sysRawio => 17
  | .sysChroot => 18
  | .sysPtrace => 19
  | .sysPacct => 20
  | .sysAdmin => 21
  | .sysBoot => 22
  | .sysNice => 23
  | .sysResource => 24
  | .sysTime => 25
  | .sysTtyConfig => 26
  | .mknod => 27
  | .lease => 28
  | .auditWrite => 29
  | .auditControl => 30
  | .setfcap => 31
  | .macOverride => 32
  | .macAdmin => 33
  | .syslog => 34
  | .wakeAlarm => 35
  | .blockSuspend => 36
  | .auditRead => 37
  | .perfmon => 38
  | .bpf => 39
  | .checkpointRestore => 40

/-- The comparisons of `caps_name_to_bit`, in their order. -/
def nameTable : List (CStr × Cap) :=
  [(cstr "CAP_CHOWN", .chown), (cstr "CAP_DAC_OVERRIDE", .dacOverride),
    (cstr "CAP_DAC_READ_SEARCH", .dacReadSearch), (cstr "CAP_FOWNER", .fowner),
    (cstr "CAP_FSETID", .fsetid), (cstr "CAP_KILL", .kill), (cstr "CAP_SETGID", .setgid),
    (cstr "CAP_SETUID", .setuid), (cstr "CAP_SETPCAP", .setpcap),
    (cstr "CAP_LINUX_IMMUTABLE", .linuxImmutable), (cstr "CAP_NET_BIND_SERVICE", .netBindService),
    (cstr "CAP_NET_BROADCAST", .netBroadcast), (cstr "CAP_NET_ADMIN", .netAdmin),
    (cstr "CAP_NET_RAW", .netRaw), (cstr "CAP_IPC_LOCK", .ipcLock),
    (cstr "CAP_IPC_OWNER", .ipcOwner), (cstr "CAP_SYS_MODULE", .sysModule),
    (cstr "CAP_SYS_RAWIO", .sysRawio), (cstr "CAP_SYS_CHROOT", .sysChroot),
    (cstr "CAP_SYS_PTRACE", .sysPtrace), (cstr "CAP_SYS_PACCT", .sysPacct),
    (cstr "CAP_SYS_ADMIN", .sysAdmin), (cstr "CAP_SYS_BOOT", .sysBoot),
    (cstr "CAP_SYS_NICE", .sysNice), (cstr "CAP_SYS_RESOURCE", .sysResource),
    (cstr "CAP_SYS_TIME", .sysTime), (cstr "CAP_SYS_TTY_CONFIG", .sysTtyConfig),
    (cstr "CAP_MKNOD", .mknod), (cstr "CAP_LEASE", .lease), (cstr "CAP_AUDIT_WRITE", .auditWrite),
    (cstr "CAP_AUDIT_CONTROL", .auditControl), (cstr "CAP_SETFCAP", .setfcap),
    (cstr "CAP_MAC_OVERRIDE", .macOverride), (cstr "CAP_MAC_ADMIN", .macAdmin),
    (cstr "CAP_SYSLOG", .syslog), (cstr "CAP_WAKE_ALARM", .wakeAlarm),
    (cstr "CAP_BLOCK_SUSPEND", .blockSuspend), (cstr "CAP_AUDIT_READ", .auditRead),
    (cstr "CAP_PERFMON", .perfmon), (cstr "CAP_BPF", .bpf),
    (cstr "CAP_CHECKPOINT_RESTORE", .checkpointRestore)]

/-- The comparisons of `caps_bit_to_name`, in their order. -/
def bitTable : List (Cap × CStr) :=
  [(.chown, cstr "CAP_CHOWN"), (.dacOverride, cstr "CAP_DAC_OVERRIDE"),
    (.dacReadSearch, cstr "CAP_DAC_READ_SEARCH"), (.fowner, cstr "CAP_FOWNER"),
    (.fsetid, cstr "CAP_FSETID"), (.kill, cstr "CAP_KILL"), (.setgid, cstr "CAP_SETGID"),
    (.setuid, cstr "CAP_SETUID"), (.setpcap, cstr "CAP_SETPCAP"),
    (.linuxImmutable, cstr "CAP_LINUX_IMMUTABLE"), (.netBindService, cstr "CAP_NET_BIND_SERVICE"),
    (.netBroadcast, cstr "CAP_NET_BROADCAST"), (.netAdmin, cstr "CAP_NET_ADMIN"),
    (.netRaw, cstr "CAP_NET_RAW"), (.ipcLock, cstr "CAP_IPC_LOCK"),
    (.ipcOwner, cstr "CAP_IPC_OWNER"), (.sysModule, cstr "CAP_SYS_MODULE"),
    (.sysRawio, cstr "CAP_SYS_RAWIO"), (.sysChroot, cstr "CAP_SYS_CHROOT"),
    (.sysPtrace, cstr "CAP_SYS_PTRACE"), (.sysPacct, cstr "CAP_SYS_PACCT"),
    (.sysAdmin, cstr "CAP_SYS_ADMIN"), (.sysBoot, cstr "CAP_SYS_BOOT"),
    (.sysNice, cstr "CAP_SYS_NICE"), (.sysResource, cstr "CAP_SYS_RESOURCE"),
    (.sysTime, cstr "CAP_SYS_TIME"), (.sysTtyConfig, cstr "CAP_SYS_TTY_CONFIG"),
    (.mknod, cstr "CAP_MKNOD"), (.lease, cstr "CAP_LEASE"), (.auditWrite, cstr "CAP_AUDIT_WRITE"),
    (.auditControl, cstr "CAP_AUDIT_CONTROL"), (.setfcap, cstr "CAP_SETFCAP"),
    (.macOverride, cstr "CAP_MAC_OVERRIDE"), (.macAdmin, cstr "CAP_MAC_ADMIN"),
    (.syslog, cstr "CAP_SYSLOG"), (.wakeAlarm, cstr "CAP_WAKE_ALARM"),
    (.blockSuspend, cstr "CAP_BLOCK_SUSPEND"), (.auditRead, cstr "CAP_AUDIT_READ"),
    (.perfmon, cstr "CAP_PERFMON"), (.bpf, cstr "CAP_BPF"),
    (.checkpointRestore, cstr "CAP_CHECKPOINT_RESTORE")]

/-- `caps_name_to_bit`. -/
def capsNameToBit (name : CStr) : BitVec 64 :=
  match nameTable.find? (fun e => e.1 = name) with
  | some e => BitVec.ofNat 64 e.2.bit
  | none => -1

/-- `caps_bit_to_name`. -/
def capsBitToName (bit : BitVec 64) : CStr :=
  match bitTable.find? (fun e => BitVec.ofNat 64 e.1.bit = bit) with
  | some e => e.2
  | none => cstr ""

/-- The loop of `caps_parse_set`. -/
def capsParseLoop : List CStr → BitVec 64 → BitVec 64
  | [], mask => mask
  | name :: names, mask =>
      let bit := capsNameToBit name
      if bit.slt 0 then -1 else capsParseLoop names (mask ||| (1 : BitVec 64) <<< bit)

/-- `caps_parse_set`. -/
def capsParseSet (names : List CStr) : BitVec 64 := capsParseLoop names 0

/-- `caps_mask_lo`. -/
def capsMaskLo (mask : BitVec 64) : BitVec 64 := mask &&& 4294967295

/-- `caps_mask_hi`. -/
def capsMaskHi (mask : BitVec 64) : BitVec 64 := mask.sshiftRight 32 &&& 4294967295

/-- What `caps_capget_effective` makes of the words it loads. -/
def capsCombine (lo hi : BitVec 64) : BitVec 64 :=
  (hi &&& 4294967295) <<< 32 ||| (lo &&& 4294967295)

/-- The test `(mask & (1 << c)) != 0`. -/
def hasCap (mask : BitVec 64) (c : Nat) : Bool :=
  decide (mask &&& (1 : BitVec 64) <<< BitVec.ofNat 64 c ≠ 0)

/-- The loop of `caps_describe`, over the capabilities from `c` on. -/
def capsDescribeLoop (mask : BitVec 64) : List Nat → Bool → CStr → CStr
  | [], _, sb => sb
  | c :: cs, first, sb =>
      if hasCap mask c then
        let sb := if first then sb else sb ++ cstr ","
        capsDescribeLoop mask cs false (sb ++ capsBitToName (BitVec.ofNat 64 c))
      else capsDescribeLoop mask cs first sb

/-- `caps_describe`. -/
def capsDescribe (mask : BitVec 64) : CStr :=
  if mask = 0 then cstr "ALL"
  else capsDescribeLoop mask (List.range (capLastCap + 1)) true (cstr "")

end I64

/-! ### Names and bits -/

theorem capNames_nodup : capNames.Nodup := by decide

/-- No name has a comma in it. -/
theorem capNames_noComma : ∀ name ∈ capNames, 44 ∉ name.bytes := by decide

theorem capsNameToBit_eq_some_iff {name : CStr} {b : Nat} :
    capsNameToBit name = some b ↔ b ≤ capLastCap ∧ capsBitToName b = name := by
  rw [capsNameToBit, List.idxOf?_eq_some_iff, ← Nat.lt_succ_iff]
  constructor
  · intro h
    obtain ⟨hlt, hname, -⟩ := h
    refine ⟨hlt, ?_⟩
    rw [capsBitToName, List.getD_eq_getElem _ _ hlt, hname]
  · intro h
    obtain ⟨hlt, hname⟩ := h
    replace hlt : b < capNames.length := hlt
    rw [capsBitToName, List.getD_eq_getElem _ _ hlt] at hname
    refine ⟨hlt, hname, fun j hj heq => absurd ?_ (Nat.ne_of_lt hj)⟩
    exact (List.getElem_inj capNames_nodup).mp (heq.trans hname.symm)

theorem capsNameToBit_eq_none_iff {name : CStr} : capsNameToBit name = none ↔ name ∉ capNames :=
  List.idxOf?_eq_none_iff

/-- The capabilities that a list names. -/
def namedBits (names : List CStr) : List Nat := names.filterMap capsNameToBit

theorem mem_namedBits {names : List CStr} {b : Nat} :
    b ∈ namedBits names ↔ b ≤ capLastCap ∧ capsBitToName b ∈ names := by
  rw [namedBits, List.mem_filterMap]
  constructor
  · intro h
    obtain ⟨name, hmem, hbit⟩ := h
    obtain ⟨hle, rfl⟩ := capsNameToBit_eq_some_iff.mp hbit
    exact ⟨hle, hmem⟩
  · intro h
    exact ⟨_, h.2, capsNameToBit_eq_some_iff.mpr ⟨h.1, rfl⟩⟩

theorem capsParseLoop_eq (names : List CStr) (mask : Nat) :
    capsParseLoop names mask =
      if ∀ name ∈ names, name ∈ capNames then some (mask ||| maskOf (namedBits names))
      else none := by
  induction names generalizing mask with
  | nil => simp [capsParseLoop, namedBits, maskOf]
  | cons name names ih =>
      rw [capsParseLoop]
      cases hbit : capsNameToBit name with
      | none =>
          have hunknown := capsNameToBit_eq_none_iff.mp hbit
          rw [if_neg fun h => hunknown (h name List.mem_cons_self)]
      | some b =>
          have hknown : name ∈ capNames := by
            by_contra hunknown
            rw [capsNameToBit_eq_none_iff.mpr hunknown] at hbit
            cases hbit
          have hbits : namedBits (name :: names) = b :: namedBits names :=
            List.filterMap_cons_some hbit
          simp only [ih, List.forall_mem_cons, hknown, true_and, hbits, maskOf, Nat.or_assoc]

/-- The fold makes the mask of the capabilities named, if it knows every name. -/
theorem capsParseSet_eq (names : List CStr) :
    capsParseSet names =
      if ∀ name ∈ names, name ∈ capNames then some (maskOf (namedBits names)) else none := by
  rw [capsParseSet, capsParseLoop_eq, Nat.zero_or]

theorem maskOf_namedBits_lt (names : List CStr) : maskOf (namedBits names) < 2 ^ (capLastCap + 1) :=
  maskOf_lt fun _ hb => Nat.lt_succ_of_le (mem_namedBits.mp hb).1

/-! ### Descriptions -/

/-- The names of the capabilities of a mask. -/
def describedNames (mask : Nat) : List CStr := (heldCaps mask).map capsBitToName

theorem heldCaps_eq (mask : Nat) : heldCaps mask = members (capLastCap + 1) mask :=
  List.filter_congr fun c _ => hasCap_eq_testBit mask c

theorem capsDescribeLoop_false (mask : Nat) (cs : List Nat) (sb : CStr) :
    (capsDescribeLoop mask cs false sb).bytes =
      sb.bytes ++ (cs.filter (hasCap mask ·)).flatMap (fun c => 44 :: (capsBitToName c).bytes) := by
  induction cs generalizing sb with
  | nil => simp [capsDescribeLoop]
  | cons c cs ih =>
      rw [capsDescribeLoop]
      by_cases hc : hasCap mask c = true
      · rw [if_pos hc, ih, List.filter_cons_of_pos hc]
        simp [show (cstr ",").bytes = [44] from rfl]
      · rw [if_neg hc, ih, List.filter_cons_of_neg hc]

theorem intercalate_cons (x : Bytes) (xs : List Bytes) :
    [44].intercalate (x :: xs) = x ++ xs.flatMap (44 :: ·) := by
  induction xs generalizing x with
  | nil => simp
  | cons y xs ih => simp [ih]

theorem capsDescribeLoop_true (mask : Nat) (cs : List Nat) :
    (capsDescribeLoop mask cs true (cstr "")).bytes =
      [44].intercalate (((cs.filter (hasCap mask ·)).map capsBitToName).map CStr.bytes) := by
  induction cs with
  | nil => simp [capsDescribeLoop, show (cstr "").bytes = [] from rfl]
  | cons c cs ih =>
      rw [capsDescribeLoop]
      by_cases hc : hasCap mask c = true
      · rw [if_pos hc, capsDescribeLoop_false, List.filter_cons_of_pos hc, List.map_cons,
          List.map_cons, intercalate_cons]
        simp [show (cstr "").bytes = [] from rfl, List.flatMap_map]
      · rw [if_neg hc, ih, List.filter_cons_of_neg hc]

/-- The description is the names, in the order of their bits, with a comma between two. -/
theorem capsDescribe_bytes {mask : Nat} (h : mask ≠ 0) :
    (capsDescribe mask).bytes = [44].intercalate ((describedNames mask).map CStr.bytes) := by
  rw [capsDescribe, if_neg h, capsDescribeLoop_true]
  rfl

/-- The words of a description, each read as a name. -/
def describedWords (text : CStr) : List CStr := (text.bytes.splitOn 44).map CStr.read

theorem capsBitToName_mem {b : Nat} (h : b ≤ capLastCap) : capsBitToName b ∈ capNames := by
  have hlt : b < capNames.length := Nat.lt_succ_of_le h
  rw [capsBitToName, List.getD_eq_getElem _ _ hlt]
  exact List.getElem_mem hlt

theorem le_of_mem_heldCaps {mask b : Nat} (h : b ∈ heldCaps mask) : b ≤ capLastCap :=
  Nat.le_of_lt_succ (List.mem_range.mp (List.mem_filter.mp h).1)

theorem heldCaps_ne_nil {mask : Nat} (h : mask ≠ 0) (hlt : mask < 2 ^ (capLastCap + 1)) :
    heldCaps mask ≠ [] := by
  intro hnil
  have hmask := maskOf_members hlt
  rw [← heldCaps_eq, hnil] at hmask
  exact h hmask.symm

/-- Split at the commas, a description is its names again. -/
theorem describedWords_capsDescribe {mask : Nat} (h : mask ≠ 0)
    (hlt : mask < 2 ^ (capLastCap + 1)) :
    describedWords (capsDescribe mask) = describedNames mask := by
  have hcommas : ∀ x ∈ (describedNames mask).map CStr.bytes, 44 ∉ x := by
    intro x hx
    obtain ⟨name, hname, rfl⟩ := List.mem_map.mp hx
    obtain ⟨b, hb, rfl⟩ := List.mem_map.mp hname
    exact capNames_noComma _ (capsBitToName_mem (le_of_mem_heldCaps hb))
  have hne : (describedNames mask).map CStr.bytes ≠ [] := by
    rw [describedNames, List.map_map]
    exact fun hnil => heldCaps_ne_nil h hlt (List.map_eq_nil_iff.mp hnil)
  rw [describedWords, capsDescribe_bytes h, List.splitOn_intercalate 44 hcommas hne, List.map_map]
  exact List.map_id'' CStr.read_bytes_self _

/-- The names of a mask are folded to the mask. -/
theorem capsParseSet_describedNames {mask : Nat} (hlt : mask < 2 ^ (capLastCap + 1)) :
    capsParseSet (describedNames mask) = some mask := by
  have hknown : ∀ name ∈ describedNames mask, name ∈ capNames := by
    intro name hname
    obtain ⟨b, hb, rfl⟩ := List.mem_map.mp hname
    exact capsBitToName_mem (le_of_mem_heldCaps hb)
  have hbits : ∀ b, b ∈ namedBits (describedNames mask) ↔ b ∈ members (capLastCap + 1) mask := by
    intro b
    rw [mem_namedBits, ← heldCaps_eq]
    constructor
    · intro h
      obtain ⟨hle, hname⟩ := h
      obtain ⟨b', hb', heq⟩ := List.mem_map.mp hname
      have hsame := (capsNameToBit_eq_some_iff.mpr ⟨le_of_mem_heldCaps hb', heq⟩).symm.trans
        (capsNameToBit_eq_some_iff.mpr ⟨hle, rfl⟩)
      cases hsame
      exact hb'
    · exact fun hb => ⟨le_of_mem_heldCaps hb, List.mem_map_of_mem hb⟩
  rw [capsParseSet_eq, if_pos hknown, maskOf_congr hbits, maskOf_members hlt]

/-! ### The 64-bit functions -/

namespace I64

/-- Both tables are the list of names, with the place of each. -/
theorem tables_eq : nameTable.map (fun e => (e.1, e.2.bit)) = capNames.zipIdx ∧
    bitTable.map (fun e => (e.2, e.1.bit)) = capNames.zipIdx :=
  ⟨rfl, rfl⟩

/-- What a function returns for its result; `-1` where there is none. -/
def ofResult : Option Nat → BitVec 64
  | some n => BitVec.ofNat 64 n
  | none => -1

theorem capsNameToBit_eq (name : CStr) :
    capsNameToBit name = ofResult (Shakti.capsNameToBit name) := by
  have hfind : ∀ table : List (CStr × Cap),
      table.findSome? (fun e => if e.1 == name then some e.2.bit else none) =
        (table.find? (fun e => e.1 = name)).map (fun e => e.2.bit) := by
    intro table
    induction table with
    | nil => rfl
    | cons e table ih =>
        by_cases he : e.1 = name
        · simp [he]
        · rw [List.findSome?_cons_of_isNone (by simp [he]), ih,
            List.find?_cons_of_neg (by simpa using he)]
  have hindex : Shakti.capsNameToBit name =
      (nameTable.find? (fun e => e.1 = name)).map (fun e => e.2.bit) := by
    rw [Shakti.capsNameToBit, List.idxOf?, List.findIdx?_eq_findSome?_zipIdx, ← tables_eq.1,
      List.findSome?_map, ← hfind]
    rfl
  rw [hindex, capsNameToBit]
  cases nameTable.find? (fun e => e.1 = name) with
  | none => rfl
  | some e => rfl

theorem capsBitToName_eq {b : Nat} (h : b < 64) :
    capsBitToName (BitVec.ofNat 64 b) = Shakti.capsBitToName b := by
  revert b
  decide

theorem or_bit (mask b : Nat) (h : b < 64) :
    BitVec.ofNat 64 mask ||| (1 : BitVec 64) <<< BitVec.ofNat 64 b =
      BitVec.ofNat 64 (mask ||| 1 <<< b) := by
  refine BitVec.eq_of_getLsbD_eq fun i hi => ?_
  rw [BitVec.shiftLeft_eq', BitVec.toNat_ofNat, Nat.mod_eq_of_lt (by omega), BitVec.getLsbD_or,
    BitVec.getLsbD_shiftLeft, BitVec.getLsbD_ofNat, BitVec.getLsbD_ofNat, Nat.testBit_or,
    testBit_one_shiftLeft]
  have hone : BitVec.getLsbD (1 : BitVec 64) (i - b) = decide (i - b = 0) := by simp
  rw [hone]
  rcases Nat.lt_trichotomy i b with hlt | heq | hgt
  · simp [hi, hlt, Nat.ne_of_gt hlt]
  · simp [heq, h]
  · simp [hi, Nat.lt_asymm hgt, Nat.ne_of_lt hgt, Nat.sub_ne_zero_of_lt hgt]

theorem slt_zero_ofNat {b : Nat} (h : b < 64) : (BitVec.ofNat 64 b).slt 0 = false := by
  revert b
  decide

theorem capsParseLoop_eq (names : List CStr) (mask : Nat) :
    capsParseLoop names (BitVec.ofNat 64 mask) = ofResult (Shakti.capsParseLoop names mask) := by
  induction names generalizing mask with
  | nil => rfl
  | cons name names ih =>
      rw [capsParseLoop, capsNameToBit_eq, Shakti.capsParseLoop]
      cases hbit : Shakti.capsNameToBit name with
      | none => rfl
      | some b =>
          have hlt : b < 64 := by
            have hle := (capsNameToBit_eq_some_iff.mp hbit).1
            unfold capLastCap at hle
            omega
          simp only [ofResult, slt_zero_ofNat hlt, or_bit mask b hlt, ih, Bool.false_eq_true,
            if_false]

/-- `caps_parse_set` returns the mask, or `-1`. -/
theorem capsParseSet_eq (names : List CStr) :
    capsParseSet names = ofResult (Shakti.capsParseSet names) := capsParseLoop_eq names 0

theorem hasCap_eq (mask : BitVec 64) {c : Nat} (h : c < 64) :
    hasCap mask c = Shakti.hasCap mask.toNat c := by
  have hbit : ((1 : BitVec 64) <<< BitVec.ofNat 64 c).toNat = 1 <<< c := by
    have hpow : 1 <<< c < 2 ^ 64 := by
      rw [Nat.one_shiftLeft]
      exact Nat.pow_lt_pow_right (by decide) h
    rw [BitVec.shiftLeft_eq', BitVec.toNat_ofNat, Nat.mod_eq_of_lt (by omega),
      BitVec.toNat_shiftLeft]
    exact Nat.mod_eq_of_lt hpow
  have hzero : mask &&& (1 : BitVec 64) <<< BitVec.ofNat 64 c = 0 ↔ mask.toNat &&& 1 <<< c = 0 := by
    rw [← BitVec.toNat_inj, BitVec.toNat_and, hbit]
    rfl
  simp only [hasCap, Shakti.hasCap, ne_eq, hzero]

theorem capsDescribeLoop_eq (mask : BitVec 64) {cs : List Nat} (h : ∀ c ∈ cs, c < 64)
    (first : Bool) (sb : CStr) :
    capsDescribeLoop mask cs first sb = Shakti.capsDescribeLoop mask.toNat cs first sb := by
  induction cs generalizing first sb with
  | nil => rfl
  | cons c cs ih =>
      obtain ⟨hc, hcs⟩ := List.forall_mem_cons.mp h
      simp only [capsDescribeLoop, Shakti.capsDescribeLoop, hasCap_eq mask hc, ih hcs,
        capsBitToName_eq hc]

theorem capsDescribe_eq (mask : BitVec 64) :
    capsDescribe mask = Shakti.capsDescribe mask.toNat := by
  have hzero : mask = 0 ↔ mask.toNat = 0 := by
    rw [← BitVec.toNat_inj]
    rfl
  have hrange : ∀ c ∈ List.range (capLastCap + 1), c < 64 :=
    fun c hc => (List.mem_range.mp hc).trans (by decide)
  have hloop := capsDescribeLoop_eq mask hrange true (cstr "")
  simp only [capsDescribe, Shakti.capsDescribe, hzero, hloop]

theorem capsMaskLo_eq (mask : BitVec 64) :
    (capsMaskLo mask).toNat = Shakti.capsMaskLo mask.toNat := by
  rw [capsMaskLo, BitVec.toNat_and]
  rfl

theorem capsMaskHi_eq (mask : BitVec 64) :
    (capsMaskHi mask).toNat = Shakti.capsMaskHi mask.toNat := by
  refine Nat.eq_of_testBit_eq fun i => ?_
  have hword : (4294967295 : BitVec 64).getLsbD i = Nat.testBit 4294967295 i := rfl
  rw [BitVec.testBit_toNat, capsMaskHi, BitVec.getLsbD_and, Shakti.capsMaskHi, Nat.testBit_and,
    Nat.testBit_shiftRight, BitVec.testBit_toNat, hword]
  by_cases hi : i < 32
  · have hlow : 32 + i < 64 := by omega
    have hin : i < 64 := by omega
    simp [BitVec.getLsbD_sshiftRight, hlow, Nat.not_le_of_lt hin]
  · have hzero : Nat.testBit 4294967295 i = false :=
      Nat.testBit_eq_false_of_lt (lt_of_lt_of_le (by decide : 4294967295 < 2 ^ 32)
        (Nat.pow_le_pow_right (by decide) (Nat.le_of_not_lt hi)))
    rw [hzero, Bool.and_false, Bool.and_false]

theorem and_word (n : Nat) : n &&& 4294967295 = n % 2 ^ 32 := Nat.and_two_pow_sub_one_eq_mod n 32

/-- `caps_capget_effective` combines the first word and the fourth. -/
theorem capsCombine_eq (lo hi : BitVec 64) (x y : Nat) :
    (capsCombine lo hi).toNat = effectiveMask [lo.toNat, x, y, hi.toNat] := by
  have hword : (4294967295 : BitVec 64).toNat = 4294967295 := rfl
  have hhigh : (hi.toNat % 2 ^ 32) <<< 32 < 2 ^ 64 := by
    have hlt := Nat.mod_lt hi.toNat (by decide : 0 < 2 ^ 32)
    rw [Nat.shiftLeft_eq]
    omega
  rw [capsCombine, BitVec.toNat_or, BitVec.toNat_shiftLeft, BitVec.toNat_and, BitVec.toNat_and,
    hword, and_word, Nat.mod_eq_of_lt hhigh, ← and_word]
  rfl

/-- The two words make the mask again. -/
theorem capsCombine_words (mask : BitVec 64) :
    capsCombine (capsMaskLo mask) (capsMaskHi mask) = mask := by
  refine BitVec.eq_of_toNat_eq ?_
  rw [capsCombine_eq _ _ 0 0, capsMaskLo_eq, capsMaskHi_eq, Shakti.capsMaskLo, Shakti.capsMaskHi]
  have hjoin := @join_words 32 mask.toNat mask.isLt
  simpa only [effectiveMask, List.getD_cons_zero, List.getD_cons_succ, and_word, Nat.mod_mod]
    using hjoin

theorem mem_capNames_iff {name : CStr} : name ∈ capNames ↔ ∃ e ∈ nameTable, e.1 = name := by
  rw [show capNames = nameTable.map (·.1) from rfl, List.mem_map]

/-- A mask of capabilities is not `-1`, and not negative. -/
theorem toInt_ofNat_nonneg {n : Nat} (h : n < 2 ^ (capLastCap + 1)) :
    0 ≤ (BitVec.ofNat 64 n).toInt := by
  have hlt : n < 2 ^ 41 := h
  rw [BitVec.toInt_eq_toNat_of_lt]
  · exact Int.natCast_nonneg _
  · rw [BitVec.toNat_ofNat]
    omega

end I64

/-! ### All encodings -/

/-- The mask, its words and its description stand for the capabilities named. -/
structure Encodes (names : List CStr) (mask : BitVec 64) : Prop where
  nonneg : 0 ≤ mask.toInt
  bit_iff : ∀ b < 64, mask.getLsbD b = true ↔ I64.capsBitToName (BitVec.ofNat 64 b) ∈ names
  words : I64.capsCombine (I64.capsMaskLo mask) (I64.capsMaskHi mask) = mask
  described : mask ≠ 0 → I64.capsParseSet (describedWords (I64.capsDescribe mask)) = mask
  named : mask ≠ 0 → ∀ name, name ∈ describedWords (I64.capsDescribe mask) ↔ name ∈ names

/-- A mask made of known names. -/
theorem encodes_of_known {names : List CStr} (h : ∀ name ∈ names, name ∈ capNames) :
    Encodes names (BitVec.ofNat 64 (maskOf (namedBits names))) := by
  have hlt := maskOf_namedBits_lt names
  have hnat : (BitVec.ofNat 64 (maskOf (namedBits names))).toNat = maskOf (namedBits names) := by
    rw [BitVec.toNat_ofNat]
    exact Nat.mod_eq_of_lt (hlt.trans (by decide))
  have hwords : BitVec.ofNat 64 (maskOf (namedBits names)) ≠ 0 →
      describedWords (I64.capsDescribe (BitVec.ofNat 64 (maskOf (namedBits names)))) =
        describedNames (maskOf (namedBits names)) := by
    intro hne
    have hmask : maskOf (namedBits names) ≠ 0 := fun hzero => hne (by rw [hzero]; rfl)
    rw [I64.capsDescribe_eq, hnat, describedWords_capsDescribe hmask hlt]
  constructor
  case nonneg => exact I64.toInt_ofNat_nonneg hlt
  case bit_iff =>
    intro b hb
    rw [BitVec.getLsbD_ofNat, testBit_maskOf, I64.capsBitToName_eq hb]
    simp only [hb, decide_true, Bool.true_and, decide_eq_true_eq, mem_namedBits]
    constructor
    · exact fun h => h.2
    · intro hmem
      refine ⟨?_, hmem⟩
      -- Past the last capability there is only the empty name, which is not in the list.
      by_contra hout
      have hname : capsBitToName b = cstr "" := by
        rw [capsBitToName, List.getD_eq_default]
        exact Nat.succ_le_of_lt (Nat.lt_of_not_le hout)
      exact absurd (h _ hmem) (by rw [hname]; decide)
  case words => exact I64.capsCombine_words _
  -- The description holds the names of the bits, and parsing them sets the bits again.
  case described =>
    intro hne
    rw [hwords hne, I64.capsParseSet_eq, capsParseSet_describedNames hlt]
    rfl
  case named =>
    intro hne name
    rw [hwords hne, describedNames, heldCaps_eq, List.mem_map]
    constructor
    · intro hname
      obtain ⟨b, hb, rfl⟩ := hname
      have hbit := (mem_members.mp hb).2
      rw [testBit_maskOf, decide_eq_true_eq] at hbit
      exact (mem_namedBits.mp hbit).2
    · intro hname
      obtain ⟨b, hbit⟩ := Option.ne_none_iff_exists'.mp
        (fun hnone => capsNameToBit_eq_none_iff.mp hnone (h name hname))
      obtain ⟨hle, rfl⟩ := capsNameToBit_eq_some_iff.mp hbit
      refine ⟨b, mem_members.mpr ⟨Nat.lt_succ_of_le hle, ?_⟩, rfl⟩
      rw [testBit_maskOf, decide_eq_true_eq]
      exact mem_namedBits.mpr ⟨hle, hname⟩

/-- **Capability sets survive every encoding.** -/
theorem capsParseSet_survives (names : List CStr) :
    (I64.capsParseSet names = -1 ↔ ∃ name ∈ names, ∀ e ∈ I64.nameTable, e.1 ≠ name) ∧
    (I64.capsParseSet names ≠ -1 → Encodes names (I64.capsParseSet names)) ∧
    ∀ names', (∀ name, name ∈ names' ↔ name ∈ names) →
      I64.capsParseSet names' = I64.capsParseSet names := by
  have hparse : ∀ names, I64.capsParseSet names =
      if ∀ name ∈ names, name ∈ capNames then BitVec.ofNat 64 (maskOf (namedBits names))
      else -1 := by
    intro names
    rw [I64.capsParseSet_eq, capsParseSet_eq]
    split
    · rfl
    · rfl
  have hunknown : (∃ name ∈ names, ∀ e ∈ I64.nameTable, e.1 ≠ name) ↔
      ¬ ∀ name ∈ names, name ∈ capNames := by
    simp only [I64.mem_capNames_iff, not_forall, not_exists, not_and, exists_prop, ne_eq]
  refine ⟨?_, ?_, fun names' hsame => ?_⟩
  · rw [hunknown, hparse]
    by_cases hknown : ∀ name ∈ names, name ∈ capNames
    · rw [if_pos hknown]
      refine iff_of_false (fun hminus => ?_) (not_not.mpr hknown)
      have hnonneg := I64.toInt_ofNat_nonneg (maskOf_namedBits_lt names)
      rw [hminus] at hnonneg
      exact absurd hnonneg (by decide)
    · rw [if_neg hknown]
      exact iff_of_true rfl hknown
  · rw [hparse]
    intro hne
    by_cases hknown : ∀ name ∈ names, name ∈ capNames
    · rw [if_pos hknown]
      exact encodes_of_known hknown
    · exact absurd (if_neg hknown) hne
  · have hbits : ∀ b, b ∈ namedBits names' ↔ b ∈ namedBits names := by
      simp only [mem_namedBits, hsame, implies_true]
    simp only [hparse, hsame, maskOf_congr hbits]

end Shakti
