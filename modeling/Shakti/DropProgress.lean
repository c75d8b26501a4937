import Shakti.HandedOver
import Shakti.Lib.Ensures

/-!
# Shakti.DropProgress

The privilege drop asks for nothing it may not have.

On a kernel that refuses a call on the credentials only where its condition fails, and with memory
at hand, the drop of a set-uid-root process with the capabilities of the mask aborts nowhere: the
calls stand in an order in which each finds its condition met, and the read-backs find what was
set (`dropPrivileges_succeeds`).
-/

namespace Shakti

open Effects Effects.World Linux
open Effects.Prog (Avoids)

/-! ### The kernel -/

/-- A call on the credentials is refused only where it cannot be made. -/
def Decides (s : Creds) (call : CredCall) (r : Int) (t : Creds) : Prop :=
  (0 ≤ r ∧ s.Applies call t) ∨ (r < 0 ∧ t = s ∧ ∀ u, ¬ s.Applies call u)

/-- The effective set, in two of the words of the answer. -/
def Reports (s : Creds) (words : Option (List Nat)) : Prop :=
  ∃ ws, words = some ws ∧ ws.getD 0 0 < 2 ^ 32 ∧ ws.getD 3 0 < 2 ^ 32 ∧
    Process.wordCaps (ws.getD 0 0) (ws.getD 3 0) = s.effective

/-- What the kernel answers. -/
def decided (s : Creds) : Event sysSig → Creds → Prop
  | ⟨.alloc _, r⟩, t => r = true ∧ t = s
  | ⟨.getuid, r⟩, t => r = s.ruid ∧ t = s
  | ⟨.getgid, r⟩, t => r = s.rgid ∧ t = s
  | ⟨.setgroups gids, r⟩, t => Decides s (.setgroups gids) r t
  | ⟨.setgid gid, r⟩, t => Decides s (.setgid gid) r t
  | ⟨.setuid uid, r⟩, t => Decides s (.setuid uid) r t
  | ⟨.prctl option arg2 arg3, r⟩, t =>
      ∃ call, Process.prctlCall option arg2 arg3 = some call ∧ Decides s call r t
  | ⟨.capset _ _ data, r⟩, t =>
      Decides s (.capset (Process.wordCaps (data.getD 0 0) (data.getD 3 0))
        (Process.wordCaps (data.getD 1 0) (data.getD 4 0))
        (Process.wordCaps (data.getD 2 0) (data.getD 5 0))) r t
  | ⟨.capget _ _, r⟩, t => Reports s r ∧ t = s
  | _, t => t = s

/-- The kernel as a world, in which nothing moves by itself. -/
def kernelWorld : World sysSig Creds where
  answers s c r t := decided s ⟨c, r⟩ t
  other _ _ _ := False

theorem still_kernelWorld : kernelWorld.Still := fun _ _ _ => id

/-! ### Programs that never exit -/

/-- Every call can be answered, none is `exit`, and what is returned meets `post`. -/
abbrev Finishes {α : Type} (post : Creds → α → Prop) (s : Creds) (p : Sys α) : Prop :=
  Ensures kernelWorld (fun _ c => ∀ code, c ≠ .exit code) post s p

variable {α : Type} {s : Creds}

/-- The gids are found, whatever the group backends answer. -/
theorem finishes_identityLookupGids (nss : NssState) (username : CStr) (gid max : Nat) :
    Finishes (fun t _ => t = s) s (identityLookupGids nss username gid max) := by
  refine .frame still_kernelWorld (lookupOnly_identityLookupGids nss username gid max)
    (fun c hc => ?_) (fun c hc => ?_) fun c r t hc h => ?_
  · rintro code rfl
    exact hc trivial
  · cases c <;> first | exact absurd trivial hc | exact ⟨default, s, rfl⟩
  · cases c <;> first | exact absurd trivial hc | exact h

theorem Decides.answered {call : CredCall} {t : Creds} (h : s.Applies call t) :
    Decides s call 0 t :=
  Or.inl ⟨le_rfl, h⟩

/-- A call that can be made succeeds. -/
theorem Decides.applied {call : CredCall} {r : Int} {t u : Creds} (h : Decides s call r u)
    (happly : s.Applies call t) : ¬ r < 0 ∧ s.Applies call u := by
  rcases h with ⟨hr, hu⟩ | ⟨-, -, hno⟩
  · exact ⟨by omega, hu⟩
  · exact absurd happly (hno t)

/-! ### The parts of the drop -/

/-- A loop over the capabilities ends without an error when each of its calls can be made. -/
theorem finishes_capsPrctlLoop (selected : Nat → Bool) (option : Nat) (args : Nat → Nat × Nat)
    (call : ℕ → CredCall) (effect : Creds → ℕ → Creds) (may : Creds → ℕ → Prop)
    (hcall : ∀ c, Process.prctlCall option (args c).1 (args c).2 = some (call c))
    (heffect : ∀ u c t, u.Applies (call c) t → t = effect u c)
    (happly : ∀ u c, may u c → u.Applies (call c) (effect u c))
    (hkept : ∀ u c c', may u c' → may (effect u c) c') (caps : List Nat)
    (hmay : ∀ c ∈ caps, selected c = true → may s c) :
    Finishes (fun t r => r = 0 ∧ t = (caps.filter selected).foldl effect s) s
      (capsPrctlLoop selected option args caps) := by
  induction caps generalizing s with
  | nil => exact ⟨rfl, rfl⟩
  | cons c caps ih =>
      have hrest : ∀ c' ∈ caps, selected c' = true → may s c' :=
        fun c' hc' => hmay c' (List.mem_cons_of_mem _ hc')
      unfold capsPrctlLoop
      refine Ensures.ite (fun hsel => ?_) fun hsel => ?_
      · have hgranted := happly s c (hmay c (List.mem_cons_self ..) hsel)
        refine .ask_bind still_kernelWorld (by simp)
          ⟨0, _, call c, hcall c, Decides.answered hgranted⟩ fun r u h => ?_
        obtain ⟨call', hcall', hdecides⟩ := h
        obtain rfl : call' = call c := Option.some.inj (hcall'.symm.trans (hcall c))
        obtain ⟨hr, hu⟩ := hdecides.applied hgranted
        obtain rfl := heffect _ _ _ hu
        refine Ensures.ite (fun hneg => absurd hneg hr) fun _ => ?_
        rw [List.filter_cons_of_pos hsel, List.foldl_cons]
        exact ih fun c' hc' hsel' => hkept s c c' (hrest c' hc' hsel')
      · rw [List.filter_cons_of_neg hsel]
        exact ih hrest

theorem finishes_dropBounding (hpcap : capSetpcap ∈ s.effective) (mask : Nat) :
    Finishes (fun t _ => t = narrowed s mask) s (dropBounding mask) := by
  have hloop : Finishes (fun t r => r = 0 ∧ t = (missingCaps mask).foldl Creds.unbound s) s
      (capsBsetDropComplement mask) :=
    finishes_capsPrctlLoop _ _ _ CredCall.dropBounding Creds.unbound
      (fun u _ => capSetpcap ∈ u.effective) (fun _ => rfl) (fun _ _ _ h => h.dropBounding_inv)
      (fun _ _ h => .dropBounding h) (fun _ _ _ h => h) _ fun _ _ _ => hpcap
  refine Ensures.bind hloop fun t r ht => ?_
  obtain ⟨rfl, rfl⟩ := ht
  refine Ensures.ite (fun h => absurd h (by decide)) fun _ => ?_
  refine .ask_bind still_kernelWorld (by simp)
    ⟨0, _, .keepCaps true, rfl, Decides.answered .keepCaps⟩ fun r u h => ?_
  obtain ⟨call, hcall, hdecides⟩ := h
  obtain rfl : call = .keepCaps true := Option.some.inj (hcall.symm.trans rfl)
  obtain ⟨hr, hu⟩ := hdecides.applied .keepCaps
  refine Ensures.ite (fun hneg => absurd hneg hr) fun _ => ?_
  rw [hu.keepCaps_inv, Creds.foldl_unbound]
  exact rfl

theorem finishes_dropIds (hsetgid : capSetgid ∈ s.effective) (hsetuid : capSetuid ∈ s.effective)
    (gids : List Nat) (uid gid : Nat) :
    Finishes (fun t _ => t = s.become gids gid uid) s (dropIds gids uid gid) := by
  refine .ask_bind still_kernelWorld (by simp)
    ⟨0, _, Decides.answered (.setgroups hsetgid)⟩ fun r t h => ?_
  obtain ⟨hr, ht⟩ := Decides.applied h (.setgroups hsetgid)
  refine Ensures.ite (fun hneg => absurd hneg hr) fun _ => ?_
  obtain rfl := ht.setgroups_inv
  refine .ask_bind still_kernelWorld (by simp)
    ⟨0, _, Decides.answered (.setgid (by exact hsetgid))⟩ fun r t h => ?_
  obtain ⟨hr, ht⟩ := Decides.applied h (.setgid (by exact hsetgid))
  refine Ensures.ite (fun hneg => absurd hneg hr) fun _ => ?_
  obtain rfl := ht.setgid_inv (by exact hsetgid)
  refine .ask_bind still_kernelWorld (by simp)
    ⟨0, _, Decides.answered (.setuid (by exact hsetuid))⟩ fun r t h => ?_
  obtain ⟨hr, ht⟩ := Decides.applied h (.setuid (by exact hsetuid))
  refine Ensures.ite (fun hneg => absurd hneg hr) fun _ => ?_
  obtain rfl := ht.setuid_inv (by exact hsetuid)
  -- The read-backs find what was set.
  refine .ask_bind still_kernelWorld (by simp) ⟨_, _, rfl, rfl⟩ fun r t h => ?_
  obtain ⟨rfl, rfl⟩ := h
  refine Ensures.ite (fun hne => absurd rfl hne) fun _ => ?_
  refine .ask_bind still_kernelWorld (by simp) ⟨_, _, rfl, rfl⟩ fun r t h => ?_
  obtain ⟨rfl, rfl⟩ := h
  exact Ensures.ite (fun hne => absurd rfl hne) fun _ => rfl

/-! ### The capabilities -/

/-- Two words are read back as the mask whose capabilities they are. -/
theorem words_eq_mask {lo hi mask : Nat} (hlo : lo < 2 ^ 32) (hhi : hi < 2 ^ 32)
    (h : Process.wordCaps lo hi = maskCaps mask) :
    (hi &&& 4294967295) <<< 32 ||| (lo &&& 4294967295) = mask := by
  rw [Nat.and_two_pow_sub_one_of_lt_two_pow (n := 32) hhi,
    Nat.and_two_pow_sub_one_of_lt_two_pow (n := 32) hlo]
  refine Nat.eq_of_testBit_eq fun c => ?_
  have hmem : mask.testBit c = true ↔ (c < 32 ∧ lo.testBit c = true) ∨
      (32 ≤ c ∧ c < 64 ∧ hi.testBit (c - 32) = true) :=
    (Set.ext_iff.mp h c).symm
  rw [Bool.eq_iff_iff, hmem, Nat.testBit_or, Nat.testBit_shiftLeft]
  by_cases hc : c < 32
  · simp [hc, show ¬ 32 ≤ c by omega]
  · have hlow : lo.testBit c = false :=
      Nat.testBit_lt_two_pow (hlo.trans_le (Nat.pow_le_pow_right (by omega) (by omega)))
    by_cases hc64 : c < 64
    · simp [hlow, hc64, show 32 ≤ c by omega]
    · have hhigh : hi.testBit (c - 32) = false :=
        Nat.testBit_lt_two_pow (hhi.trans_le (Nat.pow_le_pow_right (by omega) (by omega)))
      simp [hlow, hhigh, hc64]

/-- The words of a mask report it. -/
theorem reports_mask {mask : Nat} (hmask : ∀ c, mask.testBit c = true → c ≤ capLastCap)
    (h : s.effective = maskCaps mask) :
    Reports s (some [capsMaskLo mask, 0, 0, capsMaskHi mask, 0, 0]) := by
  refine ⟨_, rfl, Nat.and_lt_two_pow _ (by decide), Nat.and_lt_two_pow _ (by decide), ?_⟩
  exact (wordCaps_mask fun c hc => (hmask c hc).trans_lt (by decide)).trans h.symm

theorem finishes_capsCapset {mask : Nat} (hmask : ∀ c, mask.testBit c = true → c ≤ capLastCap)
    (hpermitted : maskCaps mask ⊆ s.permitted) (hbounding : maskCaps mask ⊆ s.bounding) :
    Finishes (fun t r => 0 ≤ r ∧ t = { s with
        effective := maskCaps mask, permitted := maskCaps mask, inheritable := maskCaps mask,
        ambient := s.ambient ∩ maskCaps mask }) s (capsCapset mask) := by
  have hwords : Process.wordCaps (capsMaskLo mask) (capsMaskHi mask) = maskCaps mask :=
    wordCaps_mask fun c hc => (hmask c hc).trans_lt (by decide)
  have happly : s.Applies (.capset (maskCaps mask) (maskCaps mask) (maskCaps mask)) _ :=
    .capset hpermitted Set.Subset.rfl (hbounding.trans Set.subset_union_right)
      fun _ => hpermitted.trans Set.subset_union_right
  refine .ask_bind still_kernelWorld (by simp) ⟨true, s, rfl, rfl⟩ fun r t h => ?_
  obtain ⟨rfl, rfl⟩ := h
  refine Ensures.ite (fun h => absurd h (by decide)) fun _ => ?_
  refine .ask_bind still_kernelWorld (by simp) ⟨true, t, rfl, rfl⟩ fun r u h => ?_
  obtain ⟨rfl, rfl⟩ := h
  refine Ensures.ite (fun h => absurd h (by decide)) fun _ => ?_
  refine Ensures.call still_kernelWorld (by simp) ⟨0, _, Decides.answered (hwords ▸ happly)⟩
    fun r t h => ?_
  have hdecides : Decides u (.capset (maskCaps mask) (maskCaps mask) (maskCaps mask)) r t :=
    hwords ▸ h
  obtain ⟨hr, ht⟩ := hdecides.applied happly
  exact ⟨by omega, ht.capset_inv⟩

theorem finishes_capsAmbientRaiseSet {mask : Nat}
    (hmask : ∀ c, mask.testBit c = true → c ≤ capLastCap)
    (hpermitted : maskCaps mask ⊆ s.permitted) (hinheritable : maskCaps mask ⊆ s.inheritable) :
    Finishes (fun t r => r = 0 ∧ t = { s with ambient := maskCaps mask ∪ s.ambient }) s
      (capsAmbientRaiseSet mask) := by
  have hloop := finishes_capsPrctlLoop (s := s) (fun c => hasCap mask c) prCapAmbient
    (fun c => (prCapAmbientRaise, c)) CredCall.raiseAmbient Creds.raise
    (fun u c => c ∈ u.permitted ∧ c ∈ u.inheritable) (fun _ => rfl)
    (fun _ _ _ h => h.raiseAmbient_inv) (fun _ _ h => .raiseAmbient h.1 h.2) (fun _ _ _ h => h)
    (List.range (capLastCap + 1)) fun c _ hsel => by
      have hc : c ∈ maskCaps mask := (hasCap_eq_testBit mask c).symm.trans hsel
      exact ⟨hpermitted hc, hinheritable hc⟩
  refine hloop.mono fun t r ht => ⟨ht.1, ?_⟩
  rw [ht.2, Creds.foldl_raise]
  show { s with ambient := {c | c ∈ heldCaps mask} ∪ s.ambient } = _
  rw [setOf_heldCaps hmask]

theorem finishes_capsCapgetEffective {mask : Nat}
    (hmask : ∀ c, mask.testBit c = true → c ≤ capLastCap) (heff : s.effective = maskCaps mask) :
    Finishes (fun t r => r = some mask ∧ t = s) s capsCapgetEffective := by
  refine .ask_bind still_kernelWorld (by simp) ⟨true, s, rfl, rfl⟩ fun r t h => ?_
  obtain ⟨rfl, rfl⟩ := h
  refine Ensures.ite (fun h => absurd h (by decide)) fun _ => ?_
  refine .ask_bind still_kernelWorld (by simp) ⟨true, t, rfl, rfl⟩ fun r u h => ?_
  obtain ⟨rfl, rfl⟩ := h
  refine Ensures.ite (fun h => absurd h (by decide)) fun _ => ?_
  refine .ask_bind still_kernelWorld (by simp) ⟨_, u, reports_mask hmask heff, rfl⟩ fun r t h => ?_
  obtain ⟨⟨ws, rfl, hlo, hhi, hcaps⟩, rfl⟩ := h
  exact ⟨congrArg some (words_eq_mask hlo hhi (hcaps.trans heff)), rfl⟩

theorem finishes_dropCaps {mask : Nat} (hmask : ∀ c, mask.testBit c = true → c ≤ capLastCap)
    (hpermitted : maskCaps mask ⊆ s.permitted) (hbounding : maskCaps mask ⊆ s.bounding) :
    Finishes (fun t _ => t = capped s mask) s (dropCaps mask) := by
  refine Ensures.bind (finishes_capsCapset hmask hpermitted hbounding) fun t r ht => ?_
  obtain ⟨hr, rfl⟩ := ht
  refine Ensures.ite (fun hneg => absurd hneg (by omega)) fun _ => ?_
  refine Ensures.bind (finishes_capsAmbientRaiseSet hmask Set.Subset.rfl Set.Subset.rfl)
    fun t r ht => ?_
  obtain ⟨rfl, rfl⟩ := ht
  refine Ensures.ite (fun hneg => absurd hneg (by omega)) fun _ => ?_
  refine Ensures.bind (finishes_capsCapgetEffective hmask rfl) fun t r ht => ?_
  obtain ⟨rfl, rfl⟩ := ht
  refine Ensures.ite (fun hne => absurd rfl hne) fun _ => ?_
  rw [Set.union_eq_self_of_subset_right Set.inter_subset_right]
  exact rfl

/-! ### The drop -/

/-- What the drop needs of the process that runs it. -/
structure MayDrop (mask : Nat) (s : Creds) : Prop extends SetuidRoot s where
  setpcap : capSetpcap ∈ s.effective
  permitted : maskCaps mask ⊆ s.permitted
  allowed : maskCaps mask ⊆ s.bounding

/-- What was permitted is kept. -/
theorem permitted_become_narrowed (hroot : s.euid = 0) (gids : List Nat) (uid gid mask : Nat) :
    ((narrowed s mask).become gids gid uid).permitted = s.permitted := by
  by_cases huid : uid = 0
  · subst huid
    exact (Creds.become_root (by exact hroot) gids gid).1
  · exact (Creds.become_lost (by exact hroot) huid gids gid).1

/-- The calls of the drop, in their order. -/
theorem finishes_drop {mask : Nat} (hs : MayDrop mask s)
    (hmask : ∀ c, mask.testBit c = true → c ≤ capLastCap) (gids : List Nat) (uid gid : Nat) :
    Finishes (fun t _ => CredsFor uid gid gids mask t) s
      (do
        (if mask ≠ 0 then dropBounding mask else pure ())
        dropIds gids uid gid
        if mask ≠ 0 then dropCaps mask else pure ()) := by
  by_cases hzero : mask = 0
  · subst hzero
    rw [if_neg (by simp), if_neg (by simp)]
    show Finishes _ s (dropIds gids uid gid >>= fun _ => Pure.pure ())
    refine Ensures.bind (finishes_dropIds hs.setgid hs.setuid gids uid gid) fun t _ ht => ?_
    subst ht
    exact credsFor_of_no_mask hs.toSetuidRoot gids uid gid
  · rw [if_pos hzero, if_pos hzero]
    refine Ensures.bind (finishes_dropBounding hs.setpcap mask) fun t _ ht => ?_
    subst ht
    refine Ensures.bind (finishes_dropIds (by exact hs.setgid) (by exact hs.setuid) gids uid gid)
      fun t _ ht => ?_
    subst ht
    refine (finishes_dropCaps hmask ?_ ?_).mono fun t _ ht => ?_
    · -- The permitted set was to be kept when the uids changed.
      rw [permitted_become_narrowed hs.root]
      exact hs.permitted
    · refine fun c hc => ⟨hs.allowed hc, fun hmissing => ?_⟩
      have hnot := ((mem_missingCaps mask c).mp hmissing).2
      exact absurd (show mask.testBit c = true from hc) (by simp [hnot])
    · subst ht
      exact credsFor_of_mask hs.toSetuidRoot hzero gids uid gid

/-- **The drop succeeds where it may.** However far a drop has come, on a kernel that grants memory
and refuses a call only where its condition fails, in a process that has the capabilities of the
mask: it has not called `exit`, its next call is answered, and it can be finished; and when it is,
the process has the credentials the target is to be given. -/
theorem dropPrivileges_succeeds {nss : NssState} {targetUser : CStr} {uid gid mask : Nat}
    (hs : MayDrop mask s) (hmask : ∀ c, mask.testBit c = true → c ≤ capLastCap) {t : Creds}
    {h : List (Moment sysSig Creds)} {q : Sys Unit}
    (hrun : Runs kernelWorld s (dropPrivileges nss targetUser uid gid mask) h t q) :
    (∀ m ∈ h, ∀ code, m.event.call ≠ .exit code) ∧
    (∀ c k, q = .call c k → ∃ r u, kernelWorld.answers t c r u) ∧
    ∃ h' u gids, Completed kernelWorld t q h' u () ∧ CredsFor uid gid gids mask u := by
  have hdrop : Finishes (fun u _ => ∃ gids, CredsFor uid gid gids mask u) s
      (dropPrivileges nss targetUser uid gid mask) := by
    refine Ensures.bind (finishes_identityLookupGids nss targetUser gid 256) fun u x hu => ?_
    obtain ⟨gids, nss'⟩ := x
    subst hu
    exact (finishes_drop hs hmask gids uid gid).mono fun u _ hu => ⟨gids, hu⟩
  obtain ⟨hcalls, hrest⟩ := hdrop.runs hrun
  refine ⟨hcalls, fun c k hq => ?_, ?_⟩
  · subst hq
    exact (hrest t .refl).2.1
  · obtain ⟨h', u, ⟨⟩, hfinish⟩ := hrest.completes
    obtain ⟨gids, hu⟩ := hrest.completed hfinish
    exact ⟨h', u, gids, hfinish, hu⟩

/-- The drop to `sync` with one capability can be run to its end. -/
theorem dropPrivileges_succeeds_sync :
    ∃ (h : List (Moment sysSig Creds)) (u : Creds) (gids : List Nat),
      Completed kernelWorld (setuidProcess 1000).creds
        (dropPrivileges nssInitial (cstr "sync") 4 65534 4096) h u () ∧
      CredsFor 4 65534 gids 4096 u := by
  have hmask : ∀ c, (4096 : Nat).testBit c = true → c = 12 := fun c hc =>
    (Nat.testBit_two_pow (n := 12) ▸ hc : decide (12 = c) = true) |> of_decide_eq_true |>.symm
  have hcap (c : Nat) (hc : c ∈ maskCaps 4096) : c ≤ capLastCap :=
    (hmask c hc).trans_le (by decide)
  have hstart : Runs kernelWorld (setuidProcess 1000).creds
      (dropPrivileges nssInitial (cstr "sync") 4 65534 4096) [] (setuidProcess 1000).creds _ :=
    Runs.nil _ _
  have hsetpcap : capSetpcap ≤ capLastCap := by decide
  exact (dropPrivileges_succeeds
    ⟨setuidProcess_setuidRoot 1000, hsetpcap, hcap, hcap⟩ hcap hstart).2.2

end Shakti
