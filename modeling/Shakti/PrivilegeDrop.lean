import Mathlib.Data.Nat.Bitwise
import Shakti.ExecGate

/-!
# Shakti.PrivilegeDrop

The privilege drop is all-or-nothing: it returns to the exec path only after every
required call has succeeded, in order, and every other run ends in `exit(1)`.

`requiredCalls` is the drop as it has to be; `Succeeds` is what each answer must be.
`Ran` says of a part of a run that it consists of given calls, all of which
succeeded. Each part of the drop is inverted into a `Ran` statement, and the parts
are put together by `Ran.append`. The gids of `/etc/passwd` fit a `gid_t`, so the result
applies to every run of `shk_run` (`shkRun_fullDrop`).
-/

namespace Shakti

open Effects Effects.Prog

/-! ### The required calls -/

/-- The capabilities a mask names, among those the kernel knows. -/
def heldCaps (mask : Nat) : List Nat := (List.range (capLastCap + 1)).filter (hasCap mask ·)

/-- The capabilities it does not name. -/
def missingCaps (mask : Nat) : List Nat :=
  (List.range (capLastCap + 1)).filter (!hasCap mask ·)

/-- As root: narrow the bounding set, keep the permitted set. -/
def boundingCalls (mask : Nat) : List SysCall :=
  (missingCaps mask).map (fun c => .prctl prCapbsetDrop c 0) ++ [.prctl prSetKeepcaps 1 0]

/-- Groups, gid, uid, and the read-backs. -/
def idCalls (gids : List Nat) (uid gid : Nat) : List SysCall :=
  [.setgroups gids, .setgid gid, .setuid uid, .getuid, .getgid]

/-- Under the target's uid: the sets, the ambient set, the read-back. Each kernel
structure is allocated first. -/
def capCalls (mask : Nat) : List SysCall :=
  [.alloc 8, .alloc 24,
    .capset linuxCapabilityVersion3 0 [capsMaskLo mask, capsMaskLo mask, capsMaskLo mask,
      capsMaskHi mask, capsMaskHi mask, capsMaskHi mask]]
  ++ (heldCaps mask).map (fun c => .prctl prCapAmbient prCapAmbientRaise c)
  ++ [.alloc 8, .alloc 24, .capget linuxCapabilityVersion3 0]

/-- The whole drop. With the empty mask it makes no capability call. -/
def requiredCalls (gids : List Nat) (uid gid mask : Nat) : List SysCall :=
  (if mask ≠ 0 then boundingCalls mask else []) ++ idCalls gids uid gid
    ++ (if mask ≠ 0 then capCalls mask else [])

/-- The effective set in the words `capget` fills in. -/
def effectiveMask (words : List Nat) : Nat :=
  (words.getD 3 0 &&& 4294967295) <<< 32 ||| (words.getD 0 0 &&& 4294967295)

/-- The answers with which a required call counts as successful. -/
@[simp] def Succeeds (uid gid mask : Nat) : Event sysSig → Prop
  | ⟨.alloc _, r⟩ => r = true
  | ⟨.prctl _ _ _, r⟩ => 0 ≤ r
  | ⟨.setgroups _, r⟩ => 0 ≤ r
  | ⟨.setgid _, r⟩ => 0 ≤ r
  | ⟨.setuid _, r⟩ => 0 ≤ r
  | ⟨.getuid, r⟩ => r = uid
  | ⟨.getgid, r⟩ => r = gid
  | ⟨.capset _ _ _, r⟩ => 0 ≤ r
  | ⟨.capget _ _, r⟩ => ∃ words, r = some words ∧ effectiveMask words = mask
  | _ => False

/-- The run consists of the calls `cs`, and each of them succeeded. -/
def Ran (ok : Event sysSig → Prop) (tr : Trace) (cs : List SysCall) : Prop :=
  tr.map Event.call = cs ∧ ∀ e ∈ tr, ok e

/-- The full drop: the gid lookup, and then the required calls, all successful, with
the primary gid in front of the group list. -/
def FullDrop (nss : NssState) (req : ExecRequest) (tr : Trace) : Prop :=
  ∃ tr₁ tr₂ gids nss', tr = tr₁ ++ tr₂ ∧
    Returns (identityLookupGids nss req.targetUser req.targetGid 256) tr₁ (gids, nss') ∧
    gids.head? = some req.targetGid ∧
    Ran (Succeeds req.targetUid req.targetGid req.capMask) tr₂
      (requiredCalls gids req.targetUid req.targetGid req.capMask)

/-! ### Runs of calls -/

variable {ok : Event sysSig → Prop} {tr tr' : Trace} {cs cs' : List SysCall}

theorem Ran.nil : Ran ok [] [] := ⟨rfl, by simp⟩

theorem Ran.cons {e : Event sysSig} (he : ok e) (h : Ran ok tr cs) :
    Ran ok (e :: tr) (e.call :: cs) := by
  refine ⟨by simp [h.1], fun e' he' => ?_⟩
  rcases List.mem_cons.mp he' with rfl | he'
  · exact he
  · exact h.2 e' he'

theorem Ran.append (h : Ran ok tr cs) (h' : Ran ok tr' cs') : Ran ok (tr ++ tr') (cs ++ cs') := by
  refine ⟨by simp [h.1, h'.1], fun e he => ?_⟩
  rcases List.mem_append.mp he with he | he
  · exact h.2 e he
  · exact h'.2 e he

/-- A program that exits does not return. -/
theorem not_returns_abort {α : Type} {msg : String} {a : α} : ¬ Returns (abort msg) tr a := by
  intro h
  obtain ⟨_, _, _, -, -, h⟩ := returns_bind_iff.mp h
  obtain ⟨r, -⟩ := returns_call_iff.mp h
  exact r.elim

/-! ### The parts of the drop -/

variable {uid gid mask : Nat}

/-- A loop over the capabilities that reported no error made its call for each selected
one. -/
theorem ran_capsPrctlLoop {selected : Nat → Bool} {option : Nat} {args : Nat → Nat × Nat}
    {caps : List Nat} {r : Int}
    (h : Returns (capsPrctlLoop selected option args caps) tr r) (hr : 0 ≤ r) :
    Ran (Succeeds uid gid mask) tr
      ((caps.filter selected).map (fun c => .prctl option (args c).1 (args c).2)) := by
  induction caps generalizing tr with
  | nil =>
      obtain ⟨rfl, -⟩ := returns_pure_iff.mp h
      exact Ran.nil
  | cons c caps ih =>
      unfold capsPrctlLoop at h
      split at h
      case isTrue hsel =>
        rw [List.filter_cons_of_pos hsel, List.map_cons]
        obtain ⟨r', tr₁, rfl, k₁⟩ := returns_ask_bind_iff.mp h
        split at k₁
        · obtain ⟨-, rfl⟩ := returns_pure_iff.mp k₁
          omega
        case isFalse hr' => exact Ran.cons (by simpa using hr') (ih k₁)
      case isFalse hsel =>
        rw [List.filter_cons_of_neg hsel]
        exact ih h

theorem ran_dropBounding (h : Returns (dropBounding mask) tr ()) :
    Ran (Succeeds uid gid mask) tr (boundingCalls mask) := by
  obtain ⟨tr₁, tr₂, r, rfl, hloop, h⟩ := returns_bind_iff.mp h
  split at h
  · exact absurd h not_returns_abort
  rename_i hr
  obtain ⟨r', tr₃, rfl, k₁⟩ := returns_ask_bind_iff.mp h
  split at k₁
  · exact absurd k₁ not_returns_abort
  rename_i hr'
  obtain ⟨rfl, -⟩ := returns_pure_iff.mp k₁
  exact (ran_capsPrctlLoop hloop (by omega)).append (Ran.cons (by simpa using hr') Ran.nil)

theorem ran_dropIds {gids : List Nat} (h : Returns (dropIds gids uid gid) tr ()) :
    Ran (Succeeds uid gid mask) tr (idCalls gids uid gid) := by
  obtain ⟨r₁, tr₁, rfl, k₁⟩ := returns_ask_bind_iff.mp h
  split at k₁
  · exact absurd k₁ not_returns_abort
  rename_i h₁
  obtain ⟨r₂, tr₂, rfl, k₂⟩ := returns_ask_bind_iff.mp k₁
  split at k₂
  · exact absurd k₂ not_returns_abort
  rename_i h₂
  obtain ⟨r₃, tr₃, rfl, k₃⟩ := returns_ask_bind_iff.mp k₂
  split at k₃
  · exact absurd k₃ not_returns_abort
  rename_i h₃
  obtain ⟨r₄, tr₄, rfl, k₄⟩ := returns_ask_bind_iff.mp k₃
  split at k₄
  · exact absurd k₄ not_returns_abort
  rename_i h₄
  obtain ⟨r₅, tr₅, rfl, k₅⟩ := returns_ask_bind_iff.mp k₄
  split at k₅
  · exact absurd k₅ not_returns_abort
  rename_i h₅
  obtain ⟨rfl, -⟩ := returns_pure_iff.mp k₅
  exact Ran.cons (by simpa using h₁) (Ran.cons (by simpa using h₂) (Ran.cons (by simpa using h₃)
    (Ran.cons (not_not.mp h₄) (Ran.cons (not_not.mp h₅) Ran.nil))))

/-- `capset` was reached, and answered without an error, only with both structures
allocated. -/
theorem ran_capsCapset {r : Int} (h : Returns (capsCapset mask) tr r) (hr : 0 ≤ r) :
    Ran (Succeeds uid gid mask) tr
      [.alloc 8, .alloc 24,
        .capset linuxCapabilityVersion3 0 [capsMaskLo mask, capsMaskLo mask, capsMaskLo mask,
          capsMaskHi mask, capsMaskHi mask, capsMaskHi mask]] := by
  obtain ⟨hdr, tr₁, rfl, k₁⟩ := returns_ask_bind_iff.mp h
  split at k₁
  · obtain ⟨-, rfl⟩ := returns_pure_iff.mp k₁
    omega
  rename_i hhdr
  obtain ⟨data, tr₂, rfl, k₂⟩ := returns_ask_bind_iff.mp k₁
  split at k₂
  · obtain ⟨-, rfl⟩ := returns_pure_iff.mp k₂
    omega
  rename_i hdata
  obtain ⟨r', tr₃, rfl, k₃⟩ := returns_call_iff.mp k₂
  obtain ⟨rfl, rfl⟩ := returns_pure_iff.mp k₃
  exact Ran.cons (by simpa using hhdr) (Ran.cons (by simpa using hdata) (Ran.cons hr Ran.nil))

theorem ran_capsCapgetEffective (h : Returns capsCapgetEffective tr (some mask)) :
    Ran (Succeeds uid gid mask) tr
      [.alloc 8, .alloc 24, .capget linuxCapabilityVersion3 0] := by
  obtain ⟨hdr, tr₁, rfl, k₁⟩ := returns_ask_bind_iff.mp h
  split at k₁
  · simpa using (returns_pure_iff.mp k₁).2
  rename_i hhdr
  obtain ⟨data, tr₂, rfl, k₂⟩ := returns_ask_bind_iff.mp k₁
  split at k₂
  · simpa using (returns_pure_iff.mp k₂).2
  rename_i hdata
  obtain ⟨words, tr₃, rfl, k₃⟩ := returns_ask_bind_iff.mp k₂
  cases words with
  | none => simpa using (returns_pure_iff.mp k₃).2
  | some words =>
      obtain ⟨rfl, heff⟩ := returns_pure_iff.mp k₃
      refine Ran.cons (by simpa using hhdr) (Ran.cons (by simpa using hdata)
        (Ran.cons ⟨words, rfl, ?_⟩ Ran.nil))
      exact (Option.some.inj heff).symm

theorem ran_dropCaps (h : Returns (dropCaps mask) tr ()) :
    Ran (Succeeds uid gid mask) tr (capCalls mask) := by
  obtain ⟨tr₁, tr₂, r, rfl, hset, h⟩ := returns_bind_iff.mp h
  split at h
  · exact absurd h not_returns_abort
  rename_i hr
  obtain ⟨tr₃, tr₄, r', rfl, hraise, h⟩ := returns_bind_iff.mp h
  split at h
  · exact absurd h not_returns_abort
  rename_i hr'
  obtain ⟨tr₅, tr₆, eff, rfl, hget, h⟩ := returns_bind_iff.mp h
  split at h
  · exact absurd h not_returns_abort
  rename_i heff
  obtain ⟨rfl, -⟩ := returns_pure_iff.mp h
  rw [not_not.mp heff] at hget
  have hset' : Ran (Succeeds uid gid mask) tr₁ _ := ran_capsCapset hset (by omega)
  have hraise' : Ran (Succeeds uid gid mask) tr₃ _ := ran_capsPrctlLoop hraise (by omega)
  have hcaps := hset'.append (hraise'.append (ran_capsCapgetEffective hget))
  simpa [capCalls, heldCaps] using hcaps

/-- The gid list starts with the primary gid, whatever the group backends answer. -/
theorem head_identityLookupGids {nss nss' : NssState} {username : CStr} {gids : List Nat}
    (h : Returns (identityLookupGids nss username gid 256) tr (gids, nss')) :
    gids.head? = some (gid &&& 4294967295) := by
  unfold identityLookupGids at h
  simp only [Nat.reduceEqDiff, if_false] at h
  split at h
  · obtain ⟨-, heq⟩ := returns_pure_iff.mp h
    cases heq
    rfl
  obtain ⟨tr₁, tr₂, viaNss, rfl, -, h⟩ := returns_bind_iff.mp h
  obtain ⟨tr₃, tr₄, ⟨⟨n, found⟩, b, nss''⟩, rfl, -, h⟩ := returns_bind_iff.mp h
  dsimp only at h
  split at h
  · obtain ⟨-, heq⟩ := returns_pure_iff.mp h
    cases heq
    rfl
  · obtain ⟨-, heq⟩ := returns_pure_iff.mp h
    cases heq
    rfl

/-- A drop that returned was a full drop. -/
theorem fullDrop_of_returns {nss : NssState} {req : ExecRequest}
    (hgid : req.targetGid < 4294967296)
    (h : Returns (dropPrivileges nss req.targetUser req.targetUid req.targetGid req.capMask)
      tr ()) : FullDrop nss req tr := by
  obtain ⟨tr₁, tr₂, ⟨gids, nss'⟩, rfl, hgids, h⟩ := returns_bind_iff.mp h
  obtain ⟨tr₃, tr₄, _, rfl, hbound, h⟩ := returns_bind_iff.mp h
  obtain ⟨tr₅, tr₆, _, rfl, hids, hcaps⟩ := returns_bind_iff.mp h
  refine ⟨tr₁, _, gids, nss', rfl, hgids, ?_, ?_⟩
  · rw [head_identityLookupGids hgids, Nat.and_two_pow_sub_one_of_lt_two_pow (n := 32) hgid]
  · rw [requiredCalls, List.append_assoc]
    refine Ran.append ?_ ((ran_dropIds hids).append ?_)
    · split at hbound
      · rw [if_pos ‹_›]
        exact ran_dropBounding hbound
      · rw [if_neg ‹_›]
        obtain ⟨rfl, -⟩ := returns_pure_iff.mp hbound
        exact Ran.nil
    · split at hcaps
      · rw [if_pos ‹_›]
        exact ran_dropCaps hcaps
      · rw [if_neg ‹_›]
        obtain ⟨rfl, -⟩ := returns_pure_iff.mp hcaps
        exact Ran.nil

/-! ### The bits of a mask -/

theorem hasCap_eq_testBit (mask c : Nat) : hasCap mask c = mask.testBit c := by
  rw [hasCap, Nat.one_shiftLeft, Nat.and_two_pow]
  cases mask.testBit c <;> simp

theorem capsParseLoop_le {names : List CStr} {mask mask' : Nat}
    (h : capsParseLoop names mask = some mask')
    (hle : ∀ c, mask.testBit c = true → c ≤ capLastCap) :
    ∀ c, mask'.testBit c = true → c ≤ capLastCap := by
  induction names generalizing mask with
  | nil =>
      obtain rfl := Option.some.inj h
      exact hle
  | cons name names ih =>
      unfold capsParseLoop at h
      split at h
      · simp at h
      case h_2 bit hbit =>
        have hlt : bit ≤ capLastCap := by
          have hlen := (List.idxOf?_eq_some_iff.mp hbit).1
          have h41 : capNames.length = capLastCap + 1 := rfl
          omega
        refine ih h fun c hc => ?_
        rw [Nat.one_shiftLeft, Nat.testBit_or, Nat.testBit_two_pow, Bool.or_eq_true,
          decide_eq_true_iff] at hc
        rcases hc with hc | rfl
        · exact hle c hc
        · exact hlt

theorem mem_heldCaps {names : List CStr} (h : capsParseSet names = some mask) (c : Nat) :
    c ∈ heldCaps mask ↔ mask.testBit c = true := by
  rw [heldCaps, List.mem_filter, hasCap_eq_testBit, List.mem_range]
  refine and_iff_right_of_imp fun hc => ?_
  have := capsParseLoop_le h (by simp) c hc
  omega

theorem mem_missingCaps (mask c : Nat) :
    c ∈ missingCaps mask ↔ c ≤ capLastCap ∧ mask.testBit c = false := by
  rw [missingCaps, List.mem_filter, hasCap_eq_testBit, List.mem_range, Nat.lt_succ_iff,
    Bool.not_eq_true']

/-! ### Runs that do not return -/

/-- The calls that never return, apart from `exit(1)`. -/
@[simp] def Hangs : SysCall → Prop
  | .blocked => True
  | .exit code => code ≠ 1
  | _ => False

theorem exit_of_noAnswer {c : SysCall} (h : IsEmpty c.Answer) (hc : ¬ Hangs c) :
    c = .exit 1 := by
  cases c with
  | exit code => exact congrArg SysCall.exit (not_not.mp hc)
  | blocked => exact absurd trivial hc
  | _ => exact absurd h (by simp only [SysCall.Answer]; exact not_isEmpty_of_nonempty _)

/-- The drop exits, if it does not return. -/
theorem avoidsHangs_dropPrivileges (nss : NssState) (targetUser : CStr) (uid gid mask : Nat) :
    Avoids Hangs (dropPrivileges nss targetUser uid gid mask) :=
  (dropping_dropPrivileges ..).mono fun c hc => by cases c <;> simp_all

/-- The capability calls. -/
@[simp] def CapCall : SysCall → Prop
  | .prctl _ _ _ | .capset _ _ _ | .capget _ _ => True
  | _ => False

/-- With the empty mask there are none of them. -/
theorem avoidsCapCall_dropPrivileges (nss : NssState) (targetUser : CStr) (uid gid : Nat) :
    Avoids CapCall (dropPrivileges nss targetUser uid gid 0) := by
  refine .bind ((lookupOnly_identityLookupGids ..).mono fun c hc => ?_) fun r => ?_
  · cases c <;> simp_all
  · simp [dropIds, abort, writeLine, fileWrite, sysExit]

/-! ### All or nothing -/

/-- An exec path that reached `execve` has made the full drop. -/
theorem HandOver.fullDrop {nss : NssState} {req : ExecRequest} {path : CStr}
    {argv env : List CStr} (h : HandOver nss req tr path argv env)
    (hgid : req.targetGid < 4294967296) : ∃ mid, mid <:+: tr ∧ FullDrop nss req mid := by
  obtain ⟨mid, hmid, hdrop⟩ := h.dropped
  exact ⟨mid, hmid, fullDrop_of_returns hgid hdrop⟩

/-- **The privilege drop is all-or-nothing.** The required calls name exactly the
capabilities the mask names, and those it does not. The drop returns only after the
full drop, and a run of it that is over has returned or exits with status 1. No
`execve` follows, on either exec path, but after a full drop. With the empty mask no
capability call is made. -/
theorem dropPrivileges_allOrNothing (nss : NssState) (req : ExecRequest) (names : List CStr)
    (hmask : capsParseSet names = some req.capMask) (hgid : req.targetGid < 4294967296) :
    (∀ c, c ∈ heldCaps req.capMask ↔ req.capMask.testBit c = true) ∧
    (∀ c, c ∈ missingCaps req.capMask ↔ c ≤ capLastCap ∧ req.capMask.testBit c = false) ∧
    (∀ tr,
      Returns (dropPrivileges nss req.targetUser req.targetUid req.targetGid req.capMask) tr () →
      FullDrop nss req tr) ∧
    (∀ tr q,
      Steps (dropPrivileges nss req.targetUser req.targetUid req.targetGid req.capMask) tr q →
      Final q → q = Prog.pure () ∨
        Issues (dropPrivileges nss req.targetUser req.targetUid req.targetGid req.capMask) tr
          (SysCall.exit 1)) ∧
    (∀ site tr path argv env, site ≠ ExecSite.suAuthenticate →
      Issues (execTarget nss req) tr (SysCall.execve site path argv env) →
      ∃ mid, mid <:+: tr ∧ FullDrop nss req mid) ∧
    (∀ fuel logfd inlogfd caller site tr path argv env, site ≠ ExecSite.suAuthenticate →
      Issues (execTargetPty fuel nss req logfd inlogfd caller) tr
        (SysCall.execve site path argv env) →
      ∃ mid, mid <:+: tr ∧ FullDrop nss req mid) ∧
    (req.capMask = 0 → Avoids CapCall
      (dropPrivileges nss req.targetUser req.targetUid req.targetGid req.capMask)) := by
  refine ⟨mem_heldCaps hmask, mem_missingCaps _, fun tr h => fullDrop_of_returns hgid h,
    fun tr q hsteps hfinal => ?_,
    fun site tr path argv env hsite h => (issues_execTarget hsite h).fullDrop hgid,
    fun fuel logfd inlogfd caller site tr path argv env hsite h =>
      (issues_execTargetPty hsite h).fullDrop hgid, fun hzero => ?_⟩
  · cases q with
    | pure u => exact Or.inl rfl
    | call c k =>
        have hissues : Issues (dropPrivileges nss req.targetUser req.targetUid req.targetGid
            req.capMask) tr c := ⟨k, hsteps⟩
        have hexit : c = .exit 1 := exit_of_noAnswer hfinal.isEmpty
          (fun hc => (avoidsHangs_dropPrivileges ..).not_issues hc hissues)
        exact Or.inr (hexit ▸ hissues)
  · rw [hzero]
    exact avoidsCapCall_dropPrivileges ..

/-- A request to serve a low port as `al`, with the capability for it alone. -/
def portRequest : ExecRequest where
  resolved := cstr "/bin/serve"
  argv := [cstr "/bin/serve"]
  env := []
  targetUser := cstr "al"
  targetUid := 1000
  targetGid := 1000
  capMask := 1024
  seCtx := cstr ""
  aaProf := cstr ""

/-- On a machine where every call succeeds, its drop returns: after the full drop. -/
theorem dropPrivileges_allOrNothing_port :
    FullDrop nssInitial portRequest
      (play (rootFiles []).machine ⟨0, 0, []⟩
        (dropPrivileges nssInitial (cstr "al") 1000 1000 1024)).1 :=
  (dropPrivileges_allOrNothing nssInitial portRequest [cstr "CAP_NET_BIND_SERVICE"]
    (by decide) (by decide)).2.2.1 _ (play_returns (by decide))

/-! ### The drop of a run -/

theorem identityParseUintLoop_le {digits : Bytes} {v v' : Nat}
    (h : identityParseUintLoop digits v = some v') (hv : v ≤ 4294967295) : v' ≤ 4294967295 := by
  induction digits generalizing v with
  | nil =>
      obtain rfl := Option.some.inj h
      exact hv
  | cons c cs ih =>
      unfold identityParseUintLoop at h
      dsimp only at h
      split at h
      · simp at h
      case isFalse hdigit =>
        split at h
        · simp at h
        case isFalse hfits =>
          refine ih h ?_
          have hle : c ≤ 57 := UInt8.not_lt.mp (fun hlt => hdigit (Or.inr hlt))
          have hnat : c.toNat ≤ 57 := UInt8.le_iff_toNat_le.mp hle
          omega

/-- What `/etc/passwd` says a gid is fits a `gid_t`. -/
theorem lookupUserLines_gid_lt {name : CStr} {lines : List Bytes} {uid gid : Nat}
    (h : lookupUserLines name lines = .found (uid, gid)) : gid < 4294967296 := by
  induction lines with
  | nil => cases h
  | cons line lines ih =>
      rw [lookupUserLines] at h
      split at h
      case isFalse => exact ih h
      -- The line is the user's: it is taken apart field by field.
      split at h
      · cases h
      split at h
      · cases h
      split at h
      · cases h
      split at h
      · cases h
      split at h
      · cases h
      case h_2 hgid =>
        cases h
        exact Nat.lt_succ_of_le (identityParseUintLoop_le hgid (Nat.zero_le _))

theorem returns_identityLookupUser_gid_lt {name : CStr} {tr : Trace} {uid gid : Nat}
    (h : Returns (identityLookupUser name) tr (.found (uid, gid))) : gid < 4294967296 := by
  unfold identityLookupUser at h
  split at h
  · cases (returns_pure_iff.mp h).2
  obtain ⟨tr₁, tr₂, content, rfl, -, h⟩ := returns_bind_iff.mp h
  cases content with
  | none => cases (returns_pure_iff.mp h).2
  | some buf => exact lookupUserLines_gid_lt (returns_pure_iff.mp h).2.symm

/-- **Every execution of a target command follows a full drop**, to the ids that
`/etc/passwd` gives the target named on the command line. -/
theorem shkRun_fullDrop {fuel : Nat} {args : List CStr} {site : ExecSite} {tr : Trace}
    {path : CStr} {argv env : List CStr} (hsite : site ≠ .suAuthenticate)
    (h : Issues (shkRun fuel args) tr (.execve site path argv env)) :
    ∃ cli nss req mid, Did tr (parseCliFrom args) (some cli) ∧ req.targetUser = cli.target ∧
      Did tr (identityLookupUser cli.target) (.found (req.targetUid, req.targetGid)) ∧
      mid <:+: tr ∧ FullDrop nss req mid := by
  obtain ⟨cli, callerUid, callerGid, caller, policy, nss, nss', groups, tr₁, tr₂, rfl, hadm, h⟩ :=
    issues_shkRun hsite h
  obtain ⟨eval, authz, capMask, targetUid, targetGid, -, hprep⟩ := issues_runRequest hsite h
  have hrest : tr₂ <:+: tr₁ ++ tr₂ := (List.suffix_append tr₁ tr₂).isInfix
  obtain ⟨look, -, hlook⟩ := hprep.targetFound
  obtain ⟨mid, hmid, hdrop⟩ := hprep.dropped
  have hgid : targetGid < 4294967296 := returns_identityLookupUser_gid_lt hlook
  exact ⟨cli, nss', ⟨path, argv, env, cli.target, targetUid, targetGid, capMask,
      eval.selinuxContext, eval.apparmorProfile⟩, mid, hadm.parsed.left tr₂, rfl,
    hprep.targetFound.mono hrest, hmid.trans hrest, fullDrop_of_returns hgid hdrop⟩

end Shakti
