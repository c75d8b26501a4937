import Mathlib.Logic.Function.Basic
import Shakti.Lsm

/-!
# Shakti.LsmStaging

Which exec attribute the contexts of a rule end up in.

`lsm_apply_exec` runs on a machine that answers its calls (`lsmMachine`): the list of
active LSMs has any content, every open and every write comes out in any way
(`LsmOutcomes`), and the machine remembers which attribute a descriptor writes to and
what has been written (`ExecAttrs`).

* `ExecAttrs.RightlyStaged` — what is asked of a run: what it returned, and that each
  context went to the node of its own LSM.
* `lsmApplyExec_given` — what a run writes and returns, from the outcomes.
* `StagesOwn` — when no context goes astray: the substring test on the first 255 bytes of
  the list decides as membership does where it matters, and no AppArmor profile falls back
  to `/proc/self/attr/exec` while SELinux is active.
-/

namespace Shakti

open Effects Effects.Prog

/-! ### The two fields -/

/-- The fields of a rule that ask for an exec context. -/
inductive LsmField
  /-- `selinux_context` -/
  | context
  /-- `apparmor_profile` -/
  | profile
  deriving DecidableEq

/-- The contexts one rule asks for; an empty one is not requested. -/
structure ExecContexts where
  selinuxCtx : CStr
  apparmorProfile : CStr

/-- The LSM a field belongs to. -/
def LsmField.lsm : LsmField → CStr
  | .context => cstr "selinux"
  | .profile => cstr "apparmor"

def ExecContexts.Requested (x : ExecContexts) : LsmField → Prop
  | .context => 0 < x.selinuxCtx.length
  | .profile => 0 < x.apparmorProfile.length

/-- What is written for a field. -/
def ExecContexts.data (x : ExecContexts) : LsmField → Bytes
  | .context => x.selinuxCtx.bytes
  | .profile => (cstr "exec " ++ x.apparmorProfile).bytes

instance (x : ExecContexts) : DecidablePred x.Requested
  | .context => inferInstanceAs (Decidable (0 < x.selinuxCtx.length))
  | .profile => inferInstanceAs (Decidable (0 < x.apparmorProfile.length))

/-! ### The list of active LSMs -/

/-- The field's LSM is one of the comma-separated names of the list. -/
def LsmField.Active (list : Bytes) (f : LsmField) : Prop := f.lsm.bytes ∈ list.splitOn 44

/-- The field's LSM passes the test of `_lsm_active_has`. -/
def LsmField.Found (list : Bytes) (f : LsmField) : Prop :=
  strstr (CStr.read (list.take 255)) f.lsm = true

instance (list : Bytes) : DecidablePred (LsmField.Active list) :=
  fun f => inferInstanceAs (Decidable (f.lsm.bytes ∈ list.splitOn 44))

instance (list : Bytes) : DecidablePred (LsmField.Found list) :=
  fun f => inferInstanceAs (Decidable (strstr (CStr.read (list.take 255)) f.lsm = true))

/-! ### The exec attributes -/

/-- A write to an exec attribute, and what the kernel answered. -/
structure AttrWrite where
  field : LsmField
  attr : CStr
  data : Bytes
  answer : Int
  deriving DecidableEq

/-- The exec attributes of the process, as its own calls leave them. -/
structure ExecAttrs where
  /-- The AppArmor attribute has been asked for: what is written from here on is written
  for the profile. -/
  asked : Bool
  /-- The attribute a descriptor writes to. -/
  fds : Int → Option CStr
  writes : List AttrWrite

/-- Nothing has been opened or written. -/
def ExecAttrs.start : ExecAttrs := ⟨false, fun _ => none, []⟩

/-- Whose context is being staged. -/
def ExecAttrs.field (s : ExecAttrs) : LsmField := if s.asked then .profile else .context

/-- An answered call. -/
def ExecAttrs.step (s : ExecAttrs) : (c : SysCall) → c.Answer → ExecAttrs
  | .open path _ _, fd =>
      { s with
        asked := s.asked || decide (path = apparmorExecPath)
        fds := if fd < 0 then s.fds else Function.update s.fds fd (some path) }
  | .close fd, _ => { s with fds := Function.update s.fds fd none }
  | .write fd data, w =>
      match s.fds fd with
      | some attr => { s with writes := s.writes ++ [⟨s.field, attr, data, w⟩] }
      | none => s
  | _, _ => s

theorem ExecAttrs.step_open_fds (s : ExecAttrs) (path : CStr) (flags mode : Nat) {fd : Int}
    (h : ¬ fd < 0) : (s.step (.open path flags mode) fd).fds fd = some path := by
  simp only [ExecAttrs.step, if_neg h, Function.update_self]

/-- What an attribute holds: the bytes of the last write to it that did not fail. -/
def ExecAttrs.held (s : ExecAttrs) (attr : CStr) : Option Bytes :=
  ((s.writes.filter (fun w => decide (w.attr = attr ∧ 0 ≤ w.answer))).getLast?).map
    (fun w => w.data.take w.answer.toNat)

/-- The field was written completely to an exec attribute, which still holds it. -/
def ExecAttrs.Staged (s : ExecAttrs) (x : ExecContexts) (f : LsmField) : Prop :=
  ∃ w ∈ s.writes, w.field = f ∧ w.data = x.data f ∧ w.answer = w.data.length ∧
    s.held w.attr = some w.data

/-- What a run that left the attributes so and returned `r` is to have done. -/
structure ExecAttrs.RightlyStaged (list : Bytes) (x : ExecContexts) (s : ExecAttrs) (r : Int) :
    Prop where
  result_iff : r = 0 ↔ (∀ f, ¬ x.Requested f) ∨
    ((∃ f, x.Requested f ∧ f.Active list) ∧ ∀ f, x.Requested f → f.Active list → s.Staged x f)
  only_active : ∀ w ∈ s.writes, w.field.Active list
  no_profile_syntax : LsmField.context.Active list →
    ∀ w ∈ s.writes, w.field = .profile → w.attr ≠ selinuxExecPath
  both_staged : r = 0 → (∀ f, x.Requested f ∧ f.Active list) → ∀ f, s.Staged x f

/-! ### The machine -/

/-- How the opens and writes come out. -/
structure LsmOutcomes where
  /-- `/proc/self/attr/exec`, opened for the SELinux context. -/
  openContext : Int
  writeContext : Int
  closeContext : Int
  /-- `/proc/self/attr/apparmor/exec` -/
  openProfile : Int
  /-- `/proc/self/attr/exec`, opened for the profile. -/
  openLegacy : Int
  writeProfile : Int
  closeProfile : Int

/-- How a write comes out. -/
def LsmOutcomes.write (o : LsmOutcomes) (s : ExecAttrs) : Int :=
  if s.asked then o.writeProfile else o.writeContext

/-- What the machine answers. -/
def LsmOutcomes.answer (o : LsmOutcomes) (list : Bytes) (s : ExecAttrs) :
    (c : SysCall) → Option c.Answer
  | .alloc _ => some true
  | .readFile _ => some (some list)
  | .open path _ _ =>
      some (if path = apparmorExecPath then o.openProfile
        else if s.asked then o.openLegacy else o.openContext)
  | .write _ _ => some (o.write s)
  | .close _ => some (if s.asked then o.closeProfile else o.closeContext)
  | _ => none

/-- A machine whose list of active LSMs is `list`. -/
def lsmMachine (list : Bytes) (o : LsmOutcomes) (s : ExecAttrs) (c : SysCall) :
    Option (c.Answer × ExecAttrs) :=
  (o.answer list s c).map (fun r => (r, s.step c r))

/-! ### What a run does -/

/-- The field is requested and its LSM found: the code sets out to stage it. -/
def ExecContexts.Tried (x : ExecContexts) (list : Bytes) (f : LsmField) : Prop :=
  x.Requested f ∧ f.Found list

/-- The context can be written completely. -/
def LsmOutcomes.ContextWritten (o : LsmOutcomes) (x : ExecContexts) : Prop :=
  0 ≤ o.openContext ∧ o.writeContext = (x.data .context).length

/-- One of the two attributes can be opened for the profile. -/
def LsmOutcomes.ProfileOpened (o : LsmOutcomes) : Prop := 0 ≤ o.openProfile ∨ 0 ≤ o.openLegacy

/-- The attribute the profile goes to. -/
def LsmOutcomes.profileAttr (o : LsmOutcomes) : CStr :=
  if 0 ≤ o.openProfile then apparmorExecPath else selinuxExecPath

/-- The profile can be written completely. -/
def LsmOutcomes.ProfileWritten (o : LsmOutcomes) (x : ExecContexts) : Prop :=
  o.ProfileOpened ∧ o.writeProfile = (x.data .profile).length

/-- SELinux does not stop the run before the profile's turn. -/
def LsmOutcomes.Passed (o : LsmOutcomes) (list : Bytes) (x : ExecContexts) : Prop :=
  x.Tried list .context → o.ContextWritten x

instance (x : ExecContexts) (list : Bytes) : DecidablePred (x.Tried list) :=
  fun f => inferInstanceAs (Decidable (x.Requested f ∧ f.Found list))

instance (o : LsmOutcomes) (x : ExecContexts) : Decidable (o.ContextWritten x) :=
  inferInstanceAs (Decidable (0 ≤ o.openContext ∧ _))

instance (o : LsmOutcomes) : Decidable o.ProfileOpened :=
  inferInstanceAs (Decidable (0 ≤ o.openProfile ∨ 0 ≤ o.openLegacy))

instance (o : LsmOutcomes) (list : Bytes) (x : ExecContexts) : Decidable (o.Passed list x) :=
  inferInstanceAs (Decidable (x.Tried list .context → o.ContextWritten x))

/-- What is written for the SELinux context. -/
def LsmOutcomes.contextWrites (o : LsmOutcomes) (list : Bytes) (x : ExecContexts) :
    List AttrWrite :=
  if x.Tried list .context ∧ 0 ≤ o.openContext then
    [⟨.context, selinuxExecPath, x.data .context, o.writeContext⟩]
  else []

/-- What is written for the AppArmor profile. -/
def LsmOutcomes.profileWrites (o : LsmOutcomes) (list : Bytes) (x : ExecContexts) :
    List AttrWrite :=
  if o.Passed list x ∧ x.Tried list .profile ∧ o.ProfileOpened then
    [⟨.profile, o.profileAttr, x.data .profile, o.writeProfile⟩]
  else []

/-- When the code reports success. -/
def LsmOutcomes.Succeeds (o : LsmOutcomes) (list : Bytes) (x : ExecContexts) : Prop :=
  (∀ f, ¬ x.Requested f) ∨ (o.Passed list x ∧
    (x.Tried list .profile → o.ProfileWritten x) ∧ ∃ f, x.Tried list f)

section Runs

variable {list : Bytes} {o : LsmOutcomes} {s t : ExecAttrs} {tr : Trace}

theorem given_lsmMachine_cons_iff {e : Event sysSig} :
    Given (lsmMachine list o) s (e :: tr) t ↔ o.answer list s e.call = some e.answer ∧
      Given (lsmMachine list o) (s.step e.call e.answer) tr t := by
  simp only [given_cons_iff, lsmMachine, Option.map_eq_some_iff, Prod.mk.injEq]
  constructor
  · intro h
    obtain ⟨s', ⟨r, hr, rfl, rfl⟩, htr⟩ := h
    exact ⟨hr, htr⟩
  · intro h
    exact ⟨_, ⟨_, h.1, rfl, rfl⟩, h.2⟩

/-- The list is read as it is, and nothing else changes. -/
theorem returns_lsmActiveHas {f : LsmField} {b : Bool} (h : Returns (lsmActiveHas f.lsm) tr b)
    (hg : Given (lsmMachine list o) s tr t) : t = s ∧ (b = true ↔ f.Found list) := by
  unfold lsmActiveHas at h
  obtain ⟨buf, tr₁, rfl, hread⟩ := returns_ask_bind_iff.mp h
  obtain ⟨hbuf, hg₁⟩ := given_lsmMachine_cons_iff.mp hg
  cases hbuf
  obtain ⟨tr₂, tr₃, content, rfl, hfile, htest⟩ := returns_bind_iff.mp hread
  obtain ⟨answer, hask, rfl⟩ := returns_map_iff.mp hfile
  obtain ⟨answer', tr₄, rfl, hanswer⟩ := returns_call_iff.mp hask
  obtain ⟨rfl, rfl⟩ := returns_pure_iff.mp hanswer
  obtain ⟨hlist, hg₂⟩ := given_lsmMachine_cons_iff.mp hg₁
  cases hlist
  cases hcut : list.take 255 with
  | nil =>
      simp only [Option.map_some, hcut] at htest
      obtain ⟨rfl, rfl⟩ := returns_pure_iff.mp htest
      refine ⟨given_nil_iff.mp hg₂, ?_⟩
      rw [LsmField.Found, hcut]
      cases f with
      | context => decide
      | profile => decide
  | cons c cs =>
      simp only [Option.map_some, hcut] at htest
      obtain ⟨rfl, rfl⟩ := returns_pure_iff.mp htest
      refine ⟨given_nil_iff.mp hg₂, ?_⟩
      rw [LsmField.Found, hcut]

/-- A write to an opened attribute. -/
theorem returns_writeExecAttr {fd : Int} {data : Bytes} {attr : CStr} {r : Int}
    (h : Returns (writeExecAttr fd data) tr r) (hg : Given (lsmMachine list o) s tr t)
    (hfd : s.fds fd = some attr) :
    t.asked = s.asked ∧ t.writes = s.writes ++ [⟨s.field, attr, data, o.write s⟩] ∧
      r = if o.write s = data.length then 0 else -1 := by
  unfold writeExecAttr at h
  obtain ⟨w, tr₁, rfl, hclose⟩ := returns_ask_bind_iff.mp h
  obtain ⟨c, tr₂, rfl, hresult⟩ := returns_ask_bind_iff.mp hclose
  obtain ⟨hw, hg₁⟩ := given_lsmMachine_cons_iff.mp hg
  obtain ⟨-, hg₂⟩ := given_lsmMachine_cons_iff.mp hg₁
  obtain rfl : o.write s = w := Option.some.inj hw
  have hwrote : s.step (.write fd data) (o.write s) =
      { s with writes := s.writes ++ [⟨s.field, attr, data, o.write s⟩] } := by
    simp only [ExecAttrs.step, hfd]
  by_cases hfull : o.write s = data.length
  · rw [if_pos hfull] at hresult ⊢
    obtain ⟨rfl, rfl⟩ := hg₂.of_pure hresult
    rw [hwrote]
    exact ⟨rfl, rfl, rfl⟩
  · rw [if_neg hfull] at hresult ⊢
    obtain ⟨rfl, rfl⟩ := hg₂.of_pure hresult
    rw [hwrote]
    exact ⟨rfl, rfl, rfl⟩

/-- What `lsm_set_selinux_exec` does where the LSM is found. -/
theorem returns_lsmSetSelinuxExec {ctx : CStr} {r : Int}
    (h : Returns (lsmSetSelinuxExec ctx) tr r) (hg : Given (lsmMachine list o) s tr t)
    (hs : s.asked = false) (hfound : LsmField.context.Found list) :
    t.asked = false ∧
      (if 0 ≤ o.openContext then
        t.writes = s.writes ++ [⟨.context, selinuxExecPath, ctx.bytes, o.writeContext⟩] ∧
          r = if o.writeContext = ctx.length then 0 else -1
      else t.writes = s.writes ∧ r = -1) := by
  unfold lsmSetSelinuxExec at h
  obtain ⟨tr₁, tr₂, m, b, hg₁, hactive, hg₂, hrest⟩ := hg.of_bind h
  obtain ⟨rfl, hb⟩ := returns_lsmActiveHas (f := .context) hactive hg₁
  obtain rfl : b = true := hb.mpr hfound
  obtain ⟨fd, tr₃, rfl, hwrite⟩ := returns_ask_bind_iff.mp hrest
  obtain ⟨hfd, hg₃⟩ := given_lsmMachine_cons_iff.mp hg₂
  have hpath : selinuxExecPath ≠ apparmorExecPath := by decide
  have hopen : o.openContext = fd := by simpa [LsmOutcomes.answer, hpath, hs] using hfd
  subst hopen
  by_cases hneg : o.openContext < 0
  · rw [if_pos hneg] at hwrite
    rw [if_neg (by omega)]
    obtain ⟨rfl, rfl⟩ := hg₃.of_pure hwrite
    exact ⟨by simp [ExecAttrs.step, hs, hpath], rfl, rfl⟩
  · rw [if_neg hneg] at hwrite
    rw [if_pos (by omega)]
    obtain ⟨hasked, hwrites, hr⟩ :=
      returns_writeExecAttr hwrite hg₃ (ExecAttrs.step_open_fds _ _ _ _ hneg)
    refine ⟨by simpa [ExecAttrs.step, hs, hpath] using hasked, ?_, ?_⟩
    · simpa [ExecAttrs.step, ExecAttrs.field, LsmOutcomes.write, hs, hpath] using hwrites
    · rw [hr, CStr.length]
      simp [ExecAttrs.step, LsmOutcomes.write, hs, hpath]

/-- What `lsm_set_apparmor_exec` does where the LSM is found. -/
theorem returns_lsmSetApparmorExec {profile : CStr} {r : Int}
    (h : Returns (lsmSetApparmorExec profile) tr r) (hg : Given (lsmMachine list o) s tr t)
    (hfound : LsmField.profile.Found list) :
    if o.ProfileOpened then
      t.writes = s.writes ++
        [⟨.profile, o.profileAttr, (cstr "exec " ++ profile).bytes, o.writeProfile⟩] ∧
        r = if o.writeProfile = (cstr "exec " ++ profile).length then 0 else -1
    else t.writes = s.writes ∧ r = -1 := by
  unfold lsmSetApparmorExec at h
  obtain ⟨tr₁, tr₂, m, b, hg₁, hactive, hg₂, hrest⟩ := hg.of_bind h
  obtain ⟨rfl, hb⟩ := returns_lsmActiveHas (f := .profile) hactive hg₁
  obtain rfl : b = true := hb.mpr hfound
  obtain ⟨fd, tr₃, rfl, hopened⟩ := returns_ask_bind_iff.mp hrest
  obtain ⟨hfd, hg₃⟩ := given_lsmMachine_cons_iff.mp hg₂
  have hpath : selinuxExecPath ≠ apparmorExecPath := by decide
  have hopen : o.openProfile = fd := by simpa [LsmOutcomes.answer] using hfd
  subst hopen
  by_cases hneg : o.openProfile < 0
  · -- The AppArmor attribute cannot be opened: the legacy one.
    rw [if_pos hneg] at hopened
    obtain ⟨fd, tr₄, rfl, hlegacy⟩ := returns_ask_bind_iff.mp hopened
    obtain ⟨hfd', hg₄⟩ := given_lsmMachine_cons_iff.mp hg₃
    have hopen' : o.openLegacy = fd := by
      simpa [LsmOutcomes.answer, hpath, ExecAttrs.step] using hfd'
    subst hopen'
    by_cases hneg' : o.openLegacy < 0
    · rw [if_pos hneg'] at hlegacy
      rw [if_neg (by rw [LsmOutcomes.ProfileOpened]; omega)]
      obtain ⟨rfl, rfl⟩ := hg₄.of_pure hlegacy
      exact ⟨rfl, rfl⟩
    · rw [if_neg hneg'] at hlegacy
      have hany : o.ProfileOpened := Or.inr (by omega)
      rw [if_pos hany, LsmOutcomes.profileAttr, if_neg (by omega)]
      obtain ⟨-, hwrites, hr⟩ :=
        returns_writeExecAttr hlegacy hg₄ (ExecAttrs.step_open_fds _ _ _ _ hneg')
      refine ⟨?_, ?_⟩
      · simpa [ExecAttrs.step, ExecAttrs.field, LsmOutcomes.write] using hwrites
      · simpa [ExecAttrs.step, LsmOutcomes.write, CStr.length] using hr
  · rw [if_neg hneg] at hopened
    have hany : o.ProfileOpened := Or.inl (by omega)
    rw [if_pos hany, LsmOutcomes.profileAttr, if_pos (by omega)]
    obtain ⟨-, hwrites, hr⟩ :=
      returns_writeExecAttr hopened hg₃ (ExecAttrs.step_open_fds _ _ _ _ hneg)
    refine ⟨?_, ?_⟩
    · simpa [ExecAttrs.step, ExecAttrs.field, LsmOutcomes.write] using hwrites
    · simpa [ExecAttrs.step, LsmOutcomes.write, CStr.length] using hr

/-- A field is tried if it is requested and its LSM found. -/
theorem returns_active {x : ExecContexts} {f : LsmField} {b : Bool}
    (h : Returns (if decide (x.Requested f) then lsmActiveHas f.lsm else Pure.pure false : Sys Bool)
      tr b) (hg : Given (lsmMachine list o) s tr t) : t = s ∧ (b = true ↔ x.Tried list f) := by
  by_cases hreq : x.Requested f
  · rw [decide_eq_true hreq] at h
    obtain ⟨rfl, hb⟩ := returns_lsmActiveHas h hg
    exact ⟨rfl, hb.trans (by rw [ExecContexts.Tried, and_iff_right hreq])⟩
  · rw [decide_eq_false hreq] at h
    obtain ⟨rfl, rfl⟩ := hg.of_pure h
    exact ⟨rfl, by simp [ExecContexts.Tried, hreq]⟩

/-- The SELinux half of the function. -/
theorem returns_contextHalf {x : ExecContexts} {b : Bool} {r : Int}
    (h : Returns (if b then lsmSetSelinuxExec x.selinuxCtx else Pure.pure 0 : Sys Int) tr r)
    (hg : Given (lsmMachine list o) .start tr t) (hb : b = true ↔ x.Tried list .context) :
    t.writes = o.contextWrites list x ∧ (0 ≤ r ↔ o.Passed list x) := by
  rw [LsmOutcomes.contextWrites]
  cases b with
  | false =>
      have htried : ¬ x.Tried list .context := by simpa using hb
      obtain ⟨rfl, rfl⟩ := hg.of_pure h
      rw [if_neg (fun h => htried h.1)]
      exact ⟨rfl, iff_of_true (Int.le_refl 0) (fun h => absurd h htried)⟩
  | true =>
      have htried := hb.mp rfl
      obtain ⟨-, hset⟩ := returns_lsmSetSelinuxExec h hg rfl htried.2
      by_cases hopen : 0 ≤ o.openContext
      · rw [if_pos hopen] at hset
        rw [if_pos ⟨htried, hopen⟩]
        refine ⟨hset.1, ?_⟩
        rw [hset.2]
        simp only [LsmOutcomes.Passed, LsmOutcomes.ContextWritten, htried, hopen, true_and,
          forall_true_left]
        by_cases hw : o.writeContext = x.selinuxCtx.length
        · rw [if_pos hw]
          exact iff_of_true (Int.le_refl 0) hw
        · rw [if_neg hw]
          exact iff_of_false (by omega) hw
      · rw [if_neg hopen] at hset
        rw [if_neg (fun h => hopen h.2)]
        refine ⟨hset.1, ?_⟩
        rw [hset.2]
        exact iff_of_false (by omega) (fun h => hopen (h htried).1)

/-- The AppArmor half of the function, where the run comes to it. -/
theorem returns_profileHalf {x : ExecContexts} {b : Bool} {r : Int}
    (h : Returns (if b then lsmSetApparmorExec x.apparmorProfile else Pure.pure 0 : Sys Int) tr r)
    (hg : Given (lsmMachine list o) s tr t) (hb : b = true ↔ x.Tried list .profile)
    (hpass : o.Passed list x) :
    t.writes = s.writes ++ o.profileWrites list x ∧
      (0 ≤ r ↔ (x.Tried list .profile → o.ProfileWritten x)) := by
  rw [LsmOutcomes.profileWrites]
  cases b with
  | false =>
      have htried : ¬ x.Tried list .profile := by simpa using hb
      obtain ⟨rfl, rfl⟩ := hg.of_pure h
      rw [if_neg (fun h => htried h.2.1), List.append_nil]
      exact ⟨rfl, iff_of_true (Int.le_refl 0) (fun h => absurd h htried)⟩
  | true =>
      have htried := hb.mp rfl
      have hset := returns_lsmSetApparmorExec h hg htried.2
      by_cases hopen : o.ProfileOpened
      · rw [if_pos hopen] at hset
        rw [if_pos ⟨hpass, htried, hopen⟩]
        refine ⟨hset.1, ?_⟩
        rw [hset.2]
        simp only [LsmOutcomes.ProfileWritten, htried, hopen, true_and, forall_true_left]
        by_cases hw : o.writeProfile = (cstr "exec " ++ x.apparmorProfile).length
        · rw [if_pos hw]
          exact iff_of_true (Int.le_refl 0) hw
        · rw [if_neg hw]
          exact iff_of_false (by omega) hw
      · rw [if_neg hopen] at hset
        rw [if_neg (fun h => hopen h.2.2), List.append_nil]
        refine ⟨hset.1, ?_⟩
        rw [hset.2]
        exact iff_of_false (by omega) (fun h => hopen (h htried).1)

/-- What is left of the function when the SELinux half has passed. -/
theorem returns_afterContext {x : ExecContexts} {se : Bool} {r : Int}
    (h : Returns (do
      let aa ← (if decide (x.Requested .profile) then lsmActiveHas LsmField.profile.lsm
        else Pure.pure false)
      let aaResult ← (if aa then lsmSetApparmorExec x.apparmorProfile else Pure.pure 0)
      if aaResult < 0 then Pure.pure (-1)
      else if se || aa then Pure.pure 0
      else Pure.pure (-1) : Sys Int) tr r)
    (hg : Given (lsmMachine list o) s tr t) (hse : se = true ↔ x.Tried list .context)
    (hpass : o.Passed list x) :
    t.writes = s.writes ++ o.profileWrites list x ∧
      (r = 0 ↔ (x.Tried list .profile → o.ProfileWritten x) ∧ ∃ f, x.Tried list f) := by
  obtain ⟨tr₁, trest, m₁, aa, hg₁, haa, hgrest, hrest⟩ := hg.of_bind h
  obtain ⟨rfl, htried⟩ := returns_active haa hg₁
  obtain ⟨tr₂, tr₃, m₂, r', hg₂, hset, hg₃, hend⟩ := hgrest.of_bind hrest
  obtain ⟨hwrites, hr⟩ := returns_profileHalf hset hg₂ htried hpass
  have hany : (se || aa) = true ↔ ∃ f, x.Tried list f := by
    rw [Bool.or_eq_true, hse, htried]
    constructor
    · intro h
      exact h.elim (fun h => ⟨_, h⟩) (fun h => ⟨_, h⟩)
    · intro h
      obtain ⟨f, hf⟩ := h
      cases f with
      | context => exact Or.inl hf
      | profile => exact Or.inr hf
  -- A failure of the profile's half is reported; else some context must have been applied.
  by_cases hfailed : r' < 0
  · rw [if_pos hfailed] at hend
    obtain ⟨rfl, rfl⟩ := hg₃.of_pure hend
    exact ⟨hwrites, iff_of_false (by omega) (fun h => absurd (hr.mpr h.1) (by omega))⟩
  · have hprofile := hr.mp (by omega)
    rw [if_neg hfailed] at hend
    by_cases happlied : (se || aa) = true
    · rw [if_pos happlied] at hend
      obtain ⟨rfl, rfl⟩ := hg₃.of_pure hend
      exact ⟨hwrites, iff_of_true rfl ⟨hprofile, hany.mp happlied⟩⟩
    · rw [if_neg happlied] at hend
      obtain ⟨rfl, rfl⟩ := hg₃.of_pure hend
      exact ⟨hwrites, iff_of_false (by omega) (fun h => happlied (hany.mpr h.2))⟩

/-- What a run writes, and when it returns 0. -/
theorem lsmApplyExec_given {x : ExecContexts} {r : Int}
    (h : Returns (lsmApplyExec x.selinuxCtx x.apparmorProfile) tr r)
    (hg : Given (lsmMachine list o) .start tr t) :
    t.writes = o.contextWrites list x ++ o.profileWrites list x ∧
      (r = 0 ↔ o.Succeeds list x) := by
  unfold lsmApplyExec at h
  by_cases hnone : ∀ f, ¬ x.Requested f
  · have hse : ¬ 0 < x.selinuxCtx.length := hnone .context
    have haa : ¬ 0 < x.apparmorProfile.length := hnone .profile
    simp only [hse, haa, decide_false, Bool.not_false, Bool.and_self, if_true] at h
    obtain ⟨rfl, rfl⟩ := hg.of_pure h
    refine ⟨?_, iff_of_true rfl (Or.inl hnone)⟩
    rw [LsmOutcomes.contextWrites, if_neg (fun h => hnone _ h.1.1), LsmOutcomes.profileWrites,
      if_neg (fun h => hnone _ h.2.1.1)]
    rfl
  · have hsome : ¬ (!decide (0 < x.selinuxCtx.length) &&
        !decide (0 < x.apparmorProfile.length)) = true := by
      simp only [Bool.and_eq_true, Bool.not_eq_true', decide_eq_false_iff_not]
      intro hempty
      refine hnone (fun f => ?_)
      cases f with
      | context => exact hempty.1
      | profile => exact hempty.2
    rw [LsmOutcomes.Succeeds, or_iff_right hnone]
    rw [if_neg hsome] at h
    obtain ⟨tr₁, trest₁, m₁, se, hg₁, hse, hgrest₁, hrest₁⟩ := hg.of_bind h
    obtain ⟨rfl, hseTried⟩ := returns_active (f := .context) hse hg₁
    obtain ⟨tr₂, trest₂, m₂, r₁, hg₂, hset, hgrest₂, hrest₂⟩ := hgrest₁.of_bind hrest₁
    obtain ⟨hwrites, hr⟩ := returns_contextHalf hset hg₂ hseTried
    by_cases hfailed : r₁ < 0
    · -- A failure of the SELinux half ends the function.
      have hpass : ¬ o.Passed list x := fun h => absurd (hr.mpr h) (by omega)
      rw [if_pos hfailed] at hrest₂
      obtain ⟨rfl, rfl⟩ := hgrest₂.of_pure hrest₂
      refine ⟨?_, iff_of_false (by omega) (fun h => hpass h.1)⟩
      rw [hwrites, LsmOutcomes.profileWrites, if_neg (fun h => hpass h.1), List.append_nil]
    · have hpass := hr.mp (by omega)
      rw [if_neg hfailed] at hrest₂
      obtain ⟨hwrites', hr'⟩ := returns_afterContext hrest₂ hgrest₂ hseTried hpass
      rw [hwrites', hwrites, hr', and_iff_right hpass]
      exact ⟨rfl, Iff.rfl⟩

end Runs

/-! ### Where the contexts end up -/

section Staged

variable {list : Bytes} {o : LsmOutcomes} {x : ExecContexts} {s : ExecAttrs}

theorem selinuxExecPath_ne : selinuxExecPath ≠ apparmorExecPath := by decide

theorem mem_contextWrites {w : AttrWrite} (h : w ∈ o.contextWrites list x) :
    (x.Tried list .context ∧ 0 ≤ o.openContext) ∧
      w = ⟨.context, selinuxExecPath, x.data .context, o.writeContext⟩ := by
  rw [LsmOutcomes.contextWrites] at h
  by_cases hwrite : x.Tried list .context ∧ 0 ≤ o.openContext
  · rw [if_pos hwrite] at h
    exact ⟨hwrite, List.mem_singleton.mp h⟩
  · rw [if_neg hwrite] at h
    cases h

theorem mem_profileWrites {w : AttrWrite} (h : w ∈ o.profileWrites list x) :
    (o.Passed list x ∧ x.Tried list .profile ∧ o.ProfileOpened) ∧
      w = ⟨.profile, o.profileAttr, x.data .profile, o.writeProfile⟩ := by
  rw [LsmOutcomes.profileWrites] at h
  by_cases hwrite : o.Passed list x ∧ x.Tried list .profile ∧ o.ProfileOpened
  · rw [if_pos hwrite] at h
    exact ⟨hwrite, List.mem_singleton.mp h⟩
  · rw [if_neg hwrite] at h
    cases h

theorem ExecAttrs.Staged.of_context
    (hwrites : s.writes = o.contextWrites list x ++ o.profileWrites list x)
    (h : s.Staged x .context) : x.Tried list .context ∧ o.ContextWritten x := by
  obtain ⟨w, hw, hfield, -, hanswer, -⟩ := h
  rw [hwrites] at hw
  rcases List.mem_append.mp hw with hw | hw
  · obtain ⟨⟨htried, hopen⟩, rfl⟩ := mem_contextWrites hw
    exact ⟨htried, hopen, hanswer⟩
  · obtain ⟨-, rfl⟩ := mem_profileWrites hw
    cases hfield

theorem ExecAttrs.Staged.of_profile
    (hwrites : s.writes = o.contextWrites list x ++ o.profileWrites list x)
    (h : s.Staged x .profile) :
    o.Passed list x ∧ x.Tried list .profile ∧ o.ProfileWritten x := by
  obtain ⟨w, hw, hfield, -, hanswer, -⟩ := h
  rw [hwrites] at hw
  rcases List.mem_append.mp hw with hw | hw
  · obtain ⟨-, rfl⟩ := mem_contextWrites hw
    cases hfield
  · obtain ⟨⟨hpass, htried, hopen⟩, rfl⟩ := mem_profileWrites hw
    exact ⟨hpass, htried, hopen, hanswer⟩

/-- An attribute holds what was written to it completely and last. -/
theorem ExecAttrs.held_of_last {before behind : List AttrWrite} {w : AttrWrite}
    (hwrites : s.writes = before ++ w :: behind) (hfull : w.answer = w.data.length)
    (hlast : ∀ w' ∈ behind, w'.attr ≠ w.attr) : s.held w.attr = some w.data := by
  have hbehind : behind.filter (fun w' => decide (w'.attr = w.attr ∧ 0 ≤ w'.answer)) = [] := by
    refine List.filter_eq_nil_iff.mpr (fun w' hw' => ?_)
    simp [hlast w' hw']
  rw [ExecAttrs.held, hwrites, List.filter_append, List.filter_cons_of_pos (by simp [hfull]),
    hbehind, List.getLast?_append]
  simp [hfull]

/-- The profile's write comes last. -/
theorem ExecAttrs.staged_profile
    (hwrites : s.writes = o.contextWrites list x ++ o.profileWrites list x)
    (hpass : o.Passed list x) (htried : x.Tried list .profile) (hwritten : o.ProfileWritten x) :
    s.Staged x .profile := by
  rw [LsmOutcomes.profileWrites, if_pos ⟨hpass, htried, hwritten.1⟩] at hwrites
  refine ⟨_, ?_, rfl, rfl, hwritten.2, ExecAttrs.held_of_last hwrites hwritten.2 (by simp)⟩
  rw [hwrites]
  exact List.mem_append_right _ List.mem_cons_self

/-- The context's write is the last to its attribute unless the profile goes there too. -/
theorem ExecAttrs.staged_context
    (hwrites : s.writes = o.contextWrites list x ++ o.profileWrites list x)
    (htried : x.Tried list .context) (hwritten : o.ContextWritten x)
    (hown : x.Tried list .profile → o.ProfileOpened → 0 ≤ o.openProfile) :
    s.Staged x .context := by
  rw [LsmOutcomes.contextWrites, if_pos ⟨htried, hwritten.1⟩] at hwrites
  rw [← List.nil_append (_ ++ _), List.singleton_append] at hwrites
  refine ⟨_, ?_, rfl, rfl, hwritten.2, ExecAttrs.held_of_last hwrites hwritten.2 ?_⟩
  · rw [hwrites]
    exact List.mem_cons_self
  · intro w hw
    obtain ⟨⟨-, htriedProfile, hopened⟩, rfl⟩ := mem_profileWrites hw
    rw [LsmOutcomes.profileAttr, if_pos (hown htriedProfile hopened)]
    exact selinuxExecPath_ne.symm

end Staged

/-! ### When no context goes astray -/

/-- **When no context goes astray.** The substring test stands for membership where the code
goes on after it, and no profile falls back to the attribute of an active SELinux. -/
structure StagesOwn (list : Bytes) (o : LsmOutcomes) (x : ExecContexts) : Prop where
  /-- A context that finds its LSM's name and an open attribute belongs to an active LSM. -/
  context_active : x.Tried list .context → 0 ≤ o.openContext → LsmField.context.Active list
  /-- So does a profile, also where no attribute opens but a context has been staged. -/
  profile_active : o.Passed list x → x.Tried list .profile →
    o.ProfileOpened ∨ x.Tried list .context → LsmField.profile.Active list
  /-- No active SELinux is overlooked while a profile is staged. -/
  context_found : x.Requested .context → LsmField.context.Active list →
    x.Tried list .profile → o.ProfileWritten x → LsmField.context.Found list
  /-- No active AppArmor is overlooked while a context is staged. -/
  profile_found : x.Requested .profile → LsmField.profile.Active list →
    x.Tried list .context → o.ContextWritten x → LsmField.profile.Found list
  /-- No profile falls back to SELinux's attribute. -/
  own_attr : o.Passed list x → x.Tried list .profile → LsmField.context.Active list →
    o.ProfileOpened → 0 ≤ o.openProfile

section StagesOwn

variable {list : Bytes} {o : LsmOutcomes} {x : ExecContexts} {s : ExecAttrs} {r : Int}

/-- A run that stages rightly meets each part of the condition. -/
theorem ExecAttrs.RightlyStaged.stagesOwn (h : s.RightlyStaged list x r)
    (hwrites : s.writes = o.contextWrites list x ++ o.profileWrites list x)
    (hr : r = 0 ↔ o.Succeeds list x) : StagesOwn list o x := by
  have hcontext : x.Tried list .context → 0 ≤ o.openContext → LsmField.context.Active list := by
    intro htried hopen
    refine h.only_active ⟨.context, selinuxExecPath, x.data .context, o.writeContext⟩ ?_
    rw [hwrites, LsmOutcomes.contextWrites, if_pos ⟨htried, hopen⟩]
    exact List.mem_append_left _ List.mem_cons_self
  have hprofileMem : o.Passed list x → x.Tried list .profile → o.ProfileOpened →
      ⟨.profile, o.profileAttr, x.data .profile, o.writeProfile⟩ ∈ s.writes := by
    intro hpass htried hopened
    rw [hwrites, LsmOutcomes.profileWrites, if_pos ⟨hpass, htried, hopened⟩]
    exact List.mem_append_right _ List.mem_cons_self
  -- A success stages every requested field whose LSM is active.
  have hsuccess : o.Succeeds list x → ∀ f, x.Requested f → f.Active list → s.Staged x f := by
    intro hsucc f hreq hactive
    rcases h.result_iff.mp (hr.mpr hsucc) with hnone | ⟨-, hall⟩
    · exact absurd hreq (hnone f)
    · exact hall f hreq hactive
  refine ⟨hcontext, ?_, ?_, ?_, ?_⟩
  · intro hpass htried hwhy
    by_cases hopened : o.ProfileOpened
    · exact h.only_active _ (hprofileMem hpass htried hopened)
    · -- Only SELinux is active and its context is staged, yet the run fails.
      have htriedContext := hwhy.resolve_left hopened
      have hwritten := hpass htriedContext
      by_contra hinactive
      have hstaged : s.Staged x .context :=
        ExecAttrs.staged_context hwrites htriedContext hwritten (fun _ hopened' =>
          absurd hopened' hopened)
      have hzero : r = 0 := by
        refine h.result_iff.mpr (Or.inr ⟨⟨.context, htriedContext.1,
          hcontext htriedContext hwritten.1⟩, fun f _ hactive => ?_⟩)
        cases f with
        | context => exact hstaged
        | profile => exact absurd hactive hinactive
      rcases hr.mp hzero with hnone | ⟨-, hprofile, -⟩
      · exact hnone _ htriedContext.1
      · exact hopened (hprofile htried).1
  · intro hreq hactive htried hwritten
    by_contra hlost
    have hstaged := hsuccess (Or.inr ⟨fun h => absurd h.2 hlost, fun _ => hwritten, _, htried⟩)
      .context hreq hactive
    exact hlost (hstaged.of_context hwrites).1.2
  · intro hreq hactive htried hwritten
    by_contra hlost
    have hstaged := hsuccess (Or.inr ⟨fun _ => hwritten, fun h => absurd h.2 hlost, _, htried⟩)
      .profile hreq hactive
    exact hlost (hstaged.of_profile hwrites).2.1.2
  · intro hpass htried hactive hopened
    have hattr := h.no_profile_syntax hactive _ (hprofileMem hpass htried hopened) rfl
    by_contra hneg
    exact hattr (if_neg hneg)

/-- Under the condition a success has staged every requested field whose LSM is active. -/
theorem StagesOwn.staged (h : StagesOwn list o x)
    (hwrites : s.writes = o.contextWrites list x ++ o.profileWrites list x)
    (hpass : o.Passed list x) (hprofile : x.Tried list .profile → o.ProfileWritten x)
    (htried : ∃ f, x.Tried list f) {f : LsmField} (hreq : x.Requested f)
    (hactive : f.Active list) : s.Staged x f := by
  obtain ⟨g, hg⟩ := htried
  cases f with
  | context =>
      have htriedContext : x.Tried list .context := by
        cases g with
        | context => exact hg
        | profile => exact ⟨hreq, h.context_found hreq hactive hg (hprofile hg)⟩
      exact ExecAttrs.staged_context hwrites htriedContext (hpass htriedContext)
        (fun htriedProfile => h.own_attr hpass htriedProfile hactive)
  | profile =>
      have htriedProfile : x.Tried list .profile := by
        cases g with
        | context => exact ⟨hreq, h.profile_found hreq hactive hg (hpass hg)⟩
        | profile => exact hg
      exact ExecAttrs.staged_profile hwrites hpass htriedProfile (hprofile htriedProfile)

/-- Under the condition a run that staged every requested field whose LSM is active, and one
at least, is a success. -/
theorem StagesOwn.succeeds (h : StagesOwn list o x)
    (hwrites : s.writes = o.contextWrites list x ++ o.profileWrites list x)
    (hsome : ∃ f, x.Requested f ∧ f.Active list)
    (hall : ∀ f, x.Requested f → f.Active list → s.Staged x f) : o.Succeeds list x := by
  obtain ⟨g, hreq, hactive⟩ := hsome
  have hstaged := hall g hreq hactive
  refine Or.inr ⟨fun htried => ?_, fun htried => ?_, ?_⟩
  · by_cases hcontext : LsmField.context.Active list
    · exact ((hall .context htried.1 hcontext).of_context hwrites).2
    · -- Then it is the profile that has been staged, past the context.
      cases g with
      | context => exact absurd hactive hcontext
      | profile => exact (hstaged.of_profile hwrites).1 htried
  · by_cases hprofile : LsmField.profile.Active list
    · exact ((hall .profile htried.1 hprofile).of_profile hwrites).2.2
    · cases g with
      | context =>
          obtain ⟨htriedContext, hwritten⟩ := hstaged.of_context hwrites
          exact absurd (h.profile_active (fun _ => hwritten) htried (Or.inr htriedContext)) hprofile
      | profile => exact absurd hactive hprofile
  · cases g with
    | context => exact ⟨_, (hstaged.of_context hwrites).1⟩
    | profile => exact ⟨_, (hstaged.of_profile hwrites).2.1⟩

/-- The condition is enough. -/
theorem StagesOwn.rightlyStaged (h : StagesOwn list o x)
    (hwrites : s.writes = o.contextWrites list x ++ o.profileWrites list x)
    (hr : r = 0 ↔ o.Succeeds list x) : s.RightlyStaged list x r := by
  have hsuccess : o.Succeeds list x → (∀ f, ¬ x.Requested f) ∨
      ((∃ f, x.Requested f ∧ f.Active list) ∧
        ∀ f, x.Requested f → f.Active list → s.Staged x f) := by
    intro hsucc
    refine hsucc.imp_right (fun hrest => ?_)
    obtain ⟨hpass, hprofile, htried⟩ := hrest
    refine ⟨?_, fun f => h.staged hwrites hpass hprofile htried⟩
    obtain ⟨g, hg⟩ := htried
    cases g with
    | context => exact ⟨_, hg.1, h.context_active hg (hpass hg).1⟩
    | profile => exact ⟨_, hg.1, h.profile_active hpass hg (Or.inl (hprofile hg).1)⟩
  -- The result, the writes to active LSMs only, SELinux's attribute, and both at once.
  refine ⟨?_, ?_, ?_, ?_⟩
  · rw [hr]
    constructor
    · exact hsuccess
    · intro hstaged
      rcases hstaged with hnone | ⟨hsome, hall⟩
      · exact Or.inl hnone
      · exact h.succeeds hwrites hsome hall
  · intro w hw
    rw [hwrites] at hw
    rcases List.mem_append.mp hw with hw | hw
    · obtain ⟨⟨htried, hopen⟩, rfl⟩ := mem_contextWrites hw
      exact h.context_active htried hopen
    · obtain ⟨⟨hpass, htried, hopened⟩, rfl⟩ := mem_profileWrites hw
      exact h.profile_active hpass htried (Or.inl hopened)
  · intro hactive w hw hfield
    rw [hwrites] at hw
    rcases List.mem_append.mp hw with hw | hw
    · obtain ⟨-, rfl⟩ := mem_contextWrites hw
      cases hfield
    · obtain ⟨⟨hpass, htried, hopened⟩, rfl⟩ := mem_profileWrites hw
      rw [LsmOutcomes.profileAttr, if_pos (h.own_attr hpass htried hactive hopened)]
      exact selinuxExecPath_ne.symm
  · intro hzero hboth f
    rcases hsuccess (hr.mp hzero) with hnone | ⟨-, hall⟩
    · exact absurd (hboth f).1 (hnone f)
    · exact hall f (hboth f).1 (hboth f).2

end StagesOwn

/-- **Each context reaches the node of its own LSM exactly under `StagesOwn`**: for every
list, request and way the opens and writes come out, a run of `lsm_apply_exec` returns what
it is to return and writes what it is to write if and only if the condition is met. -/
theorem lsmApplyExec_rightlyStaged_iff (list : Bytes) (o : LsmOutcomes) (x : ExecContexts)
    {tr : Trace} {r : Int} {s : ExecAttrs}
    (h : Returns (lsmApplyExec x.selinuxCtx x.apparmorProfile) tr r)
    (hg : Given (lsmMachine list o) .start tr s) :
    s.RightlyStaged list x r ↔ StagesOwn list o x := by
  obtain ⟨hwrites, hr⟩ := lsmApplyExec_given h hg
  constructor
  · exact fun hright => hright.stagesOwn hwrites hr
  · exact fun hown => hown.rightlyStaged hwrites hr

/-- A request for both contexts. -/
def bothContexts : ExecContexts := ⟨cstr "system_u:system_r:init_t", cstr "backup"⟩

/-- The list of a host on which both LSMs are active. -/
def bothActive : Bytes := utf8 "capability,selinux,apparmor"

/-- Every attribute opens, and every write is complete. -/
def allWell : LsmOutcomes := ⟨3, 24, 0, 3, 3, 11, 0⟩

/-- Where the AppArmor attribute opens, both contexts are staged. -/
theorem lsmApplyExec_rightlyStaged_both :
    (after (lsmMachine bothActive allWell) ExecAttrs.start
      (lsmApplyExec bothContexts.selinuxCtx bothContexts.apparmorProfile)).RightlyStaged
        bothActive bothContexts 0 := by
  refine (lsmApplyExec_rightlyStaged_iff bothActive allWell bothContexts (r := 0)
    (play_returns (by decide)) (play_given _ _ _)).mpr ?_
  have hactive : ∀ f, LsmField.Active bothActive f := by
    intro f
    cases f with
    | context => decide
    | profile => decide
  have hfound : ∀ f, LsmField.Found bothActive f := by
    intro f
    cases f with
    | context => decide
    | profile => decide
  exact ⟨fun _ _ => hactive _, fun _ _ _ => hactive _, fun _ _ _ _ => hfound _,
    fun _ _ _ _ => hfound _, fun _ _ _ _ => by decide⟩

/-- Where it does not, the profile replaces the SELinux context, and the run succeeds. -/
theorem lsmApplyExec_replaces : ¬ ∀ (list : Bytes) (o : LsmOutcomes) (x : ExecContexts)
    (tr : Trace) (r : Int) (s : ExecAttrs),
    Returns (lsmApplyExec x.selinuxCtx x.apparmorProfile) tr r →
    Given (lsmMachine list o) .start tr s → s.RightlyStaged list x r := by
  intro h
  have hright := h bothActive { allWell with openProfile := -2 } bothContexts _ 0 _
    (play_returns (by decide)) (play_given _ _ _)
  exact hright.no_profile_syntax (by decide)
    ⟨.profile, selinuxExecPath, utf8 "exec backup", 11⟩ (by decide) rfl rfl

end Shakti
