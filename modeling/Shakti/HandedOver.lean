import Shakti.Kernel
import Shakti.PrivilegeDrop

/-!
# Shakti.HandedOver

What the privilege drop makes of the credentials of a set-uid process.

Each part of the drop has a triple in `processWorld`: what the kernel leaves of the credentials if
the part returns. Put together, a drop that returns has left the process the ids of the target and
nothing else (`completed_dropPrivileges`): no capability but those of the mask, in any set, when a
mask is given; and without one none at all, unless the target is root.
-/

namespace Shakti

open Effects Effects.World Linux

/-- The capabilities of a mask. -/
def maskCaps (mask : Nat) : Set ℕ := {c | mask.testBit c = true}

/-- The credentials of a process started from a set-uid-root file. -/
structure SetuidRoot (s : Creds) : Prop where
  root : s.euid = 0
  setgid : capSetgid ∈ s.effective
  setuid : capSetuid ∈ s.effective
  keepCaps : s.keepCaps = false
  bounding : ∀ c ∈ s.bounding, c ≤ capLastCap

theorem setuidProcess_setuidRoot (uid : Nat) : SetuidRoot (setuidProcess uid).creds where
  root := rfl
  setgid := show 6 ≤ capLastCap by decide
  setuid := show 7 ≤ capLastCap by decide
  keepCaps := rfl
  bounding _ hc := hc

/-- The credentials a target is to be given. -/
structure CredsFor (uid gid : Nat) (gids : List Nat) (mask : Nat) (t : Creds) : Prop where
  ids : t.AllIds uid gid gids
  /-- With a mask: its capabilities, whoever the target is. -/
  caps : mask ≠ 0 → t.OnlyCaps (maskCaps mask)
  /-- Without one: none, unless the target is root. -/
  none : mask = 0 → uid ≠ 0 → t.permitted = ∅ ∧ t.effective = ∅ ∧ t.ambient = ∅

/-- They are the credentials of the program that is executed. -/
theorem CredsFor.exec {uid gid mask : Nat} {gids : List Nat} {t : Creds}
    (h : CredsFor uid gid gids mask t) : CredsFor uid gid gids mask t.exec where
  ids := h.ids.exec
  caps hmask := (h.caps hmask).exec h.ids
  none hmask huid := Creds.exec_no_caps h.ids huid (h.none hmask huid).2.2

/-- The bounding set is narrowed to the mask, and the permitted set is to be kept. -/
def narrowed (s : Creds) (mask : Nat) : Creds :=
  { s with bounding := s.bounding \ {c | c ∈ missingCaps mask}, keepCaps := true }

/-- The capabilities of the mask, in every set but the bounding one. -/
def capped (s : Creds) (mask : Nat) : Creds :=
  { s with effective := maskCaps mask, permitted := maskCaps mask, inheritable := maskCaps mask,
           ambient := maskCaps mask }

/-- The capabilities are those there were. -/
structure SameCaps (s t : Creds) : Prop where
  permitted : t.permitted = s.permitted
  effective : t.effective = s.effective
  inheritable : t.inheritable = s.inheritable
  ambient : t.ambient = s.ambient
  bounding : t.bounding = s.bounding

/-! ### Words and sets -/

theorem wordCaps_mask {mask : Nat} (h : ∀ c, mask.testBit c = true → c < 64) :
    Process.wordCaps (capsMaskLo mask) (capsMaskHi mask) = maskCaps mask := by
  ext c
  have hones (i : Nat) : (4294967295 : Nat).testBit i = decide (i < 32) :=
    Nat.testBit_two_pow_sub_one 32 i
  simp only [Process.wordCaps, maskCaps, capsMaskLo, capsMaskHi, Set.mem_ofPred_eq,
    Nat.testBit_and, Nat.testBit_shiftRight, hones, Bool.and_eq_true, decide_eq_true_iff]
  constructor
  · rintro (⟨-, hc, -⟩ | ⟨hlow, hhigh, hc, -⟩)
    · exact hc
    · rwa [show 32 + (c - 32) = c by omega] at hc
  · intro hc
    have := h c hc
    by_cases hlow : c < 32
    · exact Or.inl ⟨hlow, hc, hlow⟩
    · refine Or.inr ⟨by omega, by omega, ?_, by omega⟩
      rwa [show 32 + (c - 32) = c by omega]

/-- The capabilities the loops go through are those of the mask. -/
theorem setOf_heldCaps {mask : Nat} (hmask : ∀ c, mask.testBit c = true → c ≤ capLastCap) :
    {c | c ∈ heldCaps mask} = maskCaps mask := by
  ext c
  show c ∈ heldCaps mask ↔ mask.testBit c = true
  rw [heldCaps, List.mem_filter, hasCap_eq_testBit, List.mem_range]
  exact and_iff_right_of_imp fun hc => Nat.lt_succ_of_le (hmask c hc)

/-! ### Triples of the parts -/

/-- The program may do what it likes. -/
abbrev Leads {α : Type} (post : Process → α → Prop) (s : Process) (p : Sys α) : Prop :=
  Safe processWorld (fun _ _ => True) post s p

variable {α : Type} {s : Process}

theorem leads_any (p : Sys α) : Leads (fun _ _ => True) s p := by
  induction p generalizing s with
  | pure a => trivial
  | call c k ih => exact .call still_processWorld trivial fun r s' _ => ih r

/-- Who aborts has nothing to show. -/
theorem leads_abort {msg : String} {post : Process → α → Prop} : Leads post s (abort msg) :=
  (leads_any _).of_not_returns fun _ _ => not_returns_abort

theorem leads_idle {p : Sys α} (hp : Idle p) : Leads (fun t _ => t = s) s p :=
  .frame still_processWorld hp (fun _ _ => trivial) fun _ _ _ hc h => answers_of_not_touches hc h

/-- A call on the credentials that has not failed was made. -/
theorem Process.Credits.applied (call : CredCall) {r : Int} {s' : Process}
    (h : s.Credits (some call) r s') (hr : ¬ r < 0) :
    ∃ creds, s.creds.Applies call creds ∧ s' = s.withCreds creds := by
  rcases h with ⟨hneg, -⟩ | ⟨-, c, creds, hcall, happly, rfl⟩
  · exact absurd hneg hr
  · cases hcall
    exact ⟨creds, happly, rfl⟩

/-- A loop over the capabilities that reported no error made its call for each selected one. -/
theorem leads_capsPrctlLoop (selected : Nat → Bool) (option : Nat) (args : Nat → Nat × Nat)
    (call : ℕ → CredCall) (effect : Creds → ℕ → Creds)
    (hcall : ∀ c, Process.prctlCall option (args c).1 (args c).2 = some (call c))
    (heffect : ∀ creds c creds', creds.Applies (call c) creds' → creds' = effect creds c)
    (caps : List Nat) :
    Leads (fun t r => 0 ≤ r → t = s.withCreds ((caps.filter selected).foldl effect s.creds))
      s (capsPrctlLoop selected option args caps) := by
  induction caps generalizing s with
  | nil => exact fun _ => rfl
  | cons c caps ih =>
      unfold capsPrctlLoop
      refine Safe.ite (fun hsel => ?_) fun hsel => ?_
      · refine .ask_bind still_processWorld trivial fun r s' h => ?_
        refine Safe.ite (fun hneg hpos => absurd hneg (by omega)) fun hr => ?_
        have hcredits : s.Credits (some (call c)) r s' := hcall c ▸ (h : s.Credits _ r s')
        obtain ⟨creds, happly, rfl⟩ := Process.Credits.applied _ hcredits hr
        obtain rfl := heffect _ _ _ happly
        rw [List.filter_cons_of_pos hsel, List.foldl_cons]
        exact @ih (s.withCreds (effect s.creds c))
      · rw [List.filter_cons_of_neg hsel]
        exact ih

theorem leads_capsBsetDropComplement (mask : Nat) :
    Leads (fun t r => 0 ≤ r → t = s.withCreds { s.creds with
        bounding := s.creds.bounding \ {c | c ∈ missingCaps mask} })
      s (capsBsetDropComplement mask) := by
  refine (leads_capsPrctlLoop _ _ _ CredCall.dropBounding Creds.unbound (fun _ => rfl)
    (fun _ _ _ h => h.dropBounding_inv) _).mono fun t r ht hr => ?_
  rw [ht hr, Creds.foldl_unbound]
  rfl

theorem leads_capsAmbientRaiseSet (mask : Nat) :
    Leads (fun t r => 0 ≤ r → t = s.withCreds { s.creds with
        ambient := {c | c ∈ heldCaps mask} ∪ s.creds.ambient })
      s (capsAmbientRaiseSet mask) := by
  refine (leads_capsPrctlLoop _ _ _ CredCall.raiseAmbient Creds.raise (fun _ => rfl)
    (fun _ _ _ h => h.raiseAmbient_inv) _).mono fun t r ht hr => ?_
  rw [ht hr, Creds.foldl_raise]
  rfl

theorem leads_dropBounding (mask : Nat) :
    Leads (fun t _ => t = s.withCreds (narrowed s.creds mask)) s (dropBounding mask) := by
  refine .bind (leads_capsBsetDropComplement mask) fun t r ht => ?_
  refine Safe.ite (fun _ => leads_abort) fun hr => ?_
  obtain rfl := ht (by omega)
  refine .ask_bind still_processWorld trivial fun r s' h => ?_
  refine Safe.ite (fun _ => leads_abort) fun hr => ?_
  obtain ⟨creds, happly, rfl⟩ := Process.Credits.applied (.keepCaps true) h hr
  obtain rfl := happly.keepCaps_inv
  exact rfl

/-- The ids of the target, with the permission to change them. -/
theorem leads_dropIds (hsetgid : capSetgid ∈ s.creds.effective)
    (hsetuid : capSetuid ∈ s.creds.effective) (gids : List Nat) (uid gid : Nat) :
    Leads (fun t _ => t = s.withCreds (s.creds.become gids gid uid)) s (dropIds gids uid gid) := by
  refine .ask_bind still_processWorld trivial fun r s' h => ?_
  refine Safe.ite (fun _ => leads_abort) fun hr => ?_
  obtain ⟨creds, happly, rfl⟩ := Process.Credits.applied (.setgroups gids) h hr
  obtain rfl := happly.setgroups_inv
  refine .ask_bind still_processWorld trivial fun r s' h => ?_
  refine Safe.ite (fun _ => leads_abort) fun hr => ?_
  obtain ⟨creds, happly, rfl⟩ := Process.Credits.applied (.setgid gid) h hr
  obtain rfl := happly.setgid_inv (by exact hsetgid)
  refine .ask_bind still_processWorld trivial fun r s' h => ?_
  refine Safe.ite (fun _ => leads_abort) fun hr => ?_
  obtain ⟨creds, happly, rfl⟩ := Process.Credits.applied (.setuid uid) h hr
  obtain rfl := happly.setuid_inv (by exact hsetuid)
  refine .bind (leads_idle (by simp)) fun t x ht => Safe.ite (fun _ => leads_abort) fun _ => ?_
  subst ht
  refine .bind (leads_idle (by simp)) fun t x ht => Safe.ite (fun _ => leads_abort) fun _ => ?_
  exact ht

theorem leads_capsCapset {mask : Nat} (hmask : ∀ c, mask.testBit c = true → c ≤ capLastCap) :
    Leads (fun t r => 0 ≤ r → t = s.withCreds { s.creds with
        effective := maskCaps mask, permitted := maskCaps mask, inheritable := maskCaps mask,
        ambient := s.creds.ambient ∩ maskCaps mask })
      s (capsCapset mask) := by
  refine .bind (leads_idle (by simp)) fun t x ht => ?_
  subst ht
  refine Safe.ite (fun _ h => absurd h (by decide)) fun _ => ?_
  refine .bind (leads_idle (by simp)) fun t x ht => ?_
  subst ht
  refine Safe.ite (fun _ h => absurd h (by decide)) fun _ => ?_
  refine Safe.call still_processWorld trivial fun r s' h hr => ?_
  obtain ⟨creds, happly, rfl⟩ := Process.Credits.applied _ h (by omega)
  have hwords : Process.wordCaps (capsMaskLo mask) (capsMaskHi mask) = maskCaps mask :=
    wordCaps_mask fun c hc => (hmask c hc).trans_lt (by decide)
  have hset : t.creds.Applies (.capset (maskCaps mask) (maskCaps mask) (maskCaps mask)) creds :=
    hwords ▸ happly
  rw [hset.capset_inv]

theorem leads_dropCaps {mask : Nat} (hmask : ∀ c, mask.testBit c = true → c ≤ capLastCap) :
    Leads (fun t _ => t = s.withCreds (capped s.creds mask)) s (dropCaps mask) := by
  refine .bind (leads_capsCapset hmask) fun t r ht => ?_
  refine Safe.ite (fun _ => leads_abort) fun hr => ?_
  obtain rfl := ht (by omega)
  refine .bind (leads_capsAmbientRaiseSet mask) fun t r ht => ?_
  refine Safe.ite (fun _ => leads_abort) fun hr => ?_
  have ht' := ht (by omega)
  rw [setOf_heldCaps hmask,
    show (s.withCreds _).creds.ambient = s.creds.ambient ∩ maskCaps mask from rfl,
    Set.union_eq_self_of_subset_right Set.inter_subset_right] at ht'
  refine .bind (leads_idle (by simp)) fun u eff hu => ?_
  subst hu
  exact Safe.ite (fun _ => leads_abort) fun _ => ht'

/-! ### The drop -/

/-- Without a mask only the ids are dropped. -/
theorem credsFor_of_no_mask {s : Creds} (hs : SetuidRoot s) (gids : List Nat) (uid gid : Nat) :
    CredsFor uid gid gids 0 (s.become gids gid uid) where
  ids := Creds.allIds_become ..
  caps h := absurd rfl h
  none _ huid := by
    have hlost := Creds.become_lost hs.root huid gids gid
    rw [if_pos hs.keepCaps] at hlost
    exact hlost

theorem credsFor_of_mask {s : Creds} (hs : SetuidRoot s) {mask : Nat} (hmask : mask ≠ 0)
    (gids : List Nat) (uid gid : Nat) :
    CredsFor uid gid gids mask (capped ((narrowed s mask).become gids gid uid) mask) where
  ids := ⟨⟨rfl, rfl, rfl⟩, ⟨rfl, rfl, rfl⟩, rfl⟩
  caps _ := by
    refine ⟨rfl, rfl, rfl, rfl, ?_⟩
    -- What is left in the bounding set was there, and is not among the dropped.
    rintro c ⟨hc, hkept⟩
    by_contra hnot
    exact hkept ((mem_missingCaps mask c).mpr ⟨hs.bounding c hc, by simpa [maskCaps] using hnot⟩)
  none h := absurd h hmask

/-- The calls of the drop, in their order. -/
theorem leads_drop (hs : SetuidRoot s.creds) {mask : Nat}
    (hmask : ∀ c, mask.testBit c = true → c ≤ capLastCap) (gids : List Nat) (uid gid : Nat) :
    Leads (fun t _ => CredsFor uid gid gids mask t.creds ∧
        (mask = 0 → uid = 0 → SameCaps s.creds t.creds)) s
      (do
        (if mask ≠ 0 then dropBounding mask else pure ())
        dropIds gids uid gid
        if mask ≠ 0 then dropCaps mask else pure ()) := by
  by_cases hzero : mask = 0
  · subst hzero
    rw [if_neg (by simp), if_neg (by simp)]
    show Leads _ s (dropIds gids uid gid >>= fun _ => Pure.pure ())
    refine .bind (leads_dropIds hs.setgid hs.setuid gids uid gid) fun t _ ht => ?_
    subst ht
    refine ⟨credsFor_of_no_mask hs gids uid gid, fun _ huid => ?_⟩
    subst huid
    obtain ⟨hp, he, ha⟩ := Creds.become_root hs.root gids gid
    exact ⟨hp, he, rfl, ha, rfl⟩
  · rw [if_pos hzero, if_pos hzero]
    refine .bind (leads_dropBounding mask) fun t _ ht => ?_
    subst ht
    refine .bind (leads_dropIds (by exact hs.setgid) (by exact hs.setuid) gids uid gid)
      fun t _ ht => ?_
    subst ht
    refine (leads_dropCaps hmask).mono fun t _ ht => ?_
    subst ht
    exact ⟨credsFor_of_mask hs hzero gids uid gid, fun h => absurd h hzero⟩

/-- **What a drop that returned has left of a set-uid process**: the ids of the target, with the
groups that were looked up for it, and the capabilities of the mask or none. -/
theorem completed_dropPrivileges {nss : NssState} {targetUser : CStr} {uid gid mask : Nat}
    (hmask : ∀ c, mask.testBit c = true → c ≤ capLastCap) {t : Process}
    {h : List (Moment sysSig Process)} (hs : SetuidRoot s.creds)
    (hrun : Completed processWorld s (dropPrivileges nss targetUser uid gid mask) h t ()) :
    ∃ h₁ h₂ gids nss', h = h₁ ++ h₂ ∧
      Completed processWorld s (identityLookupGids nss targetUser gid 256) h₁ s (gids, nss') ∧
      CredsFor uid gid gids mask t.creds ∧
      (mask = 0 → uid = 0 → SameCaps s.creds t.creds) := by
  obtain ⟨h₁, h₂, m, ⟨gids, nss'⟩, rfl, hlookup, hrest⟩ := completed_bind_iff.mp hrun
  obtain rfl : m = s := (leads_idle (by simp)).completed hlookup
  exact ⟨h₁, h₂, gids, nss', rfl, hlookup, (leads_drop hs hmask gids uid gid).completed hrest⟩

/-- Whatever the process was, a drop that returned read the uid of the target back. -/
theorem leads_dropPrivileges_ruid {mask : Nat} (hmask : ∀ c, mask.testBit c = true → c ≤ capLastCap)
    (nss : NssState) (targetUser : CStr) (uid gid : Nat) :
    Leads (fun t _ => t.creds.ruid = uid) s (dropPrivileges nss targetUser uid gid mask) := by
  refine .bind (leads_any _) fun s₁ found _ => .bind (leads_any _) fun s₂ _ _ => ?_
  have hids : Leads (fun t _ => t.creds.ruid = uid) s₂ (dropIds found.1 uid gid) := by
    refine .ask_bind still_processWorld trivial fun r s₃ _ => ?_
    refine Safe.ite (fun _ => leads_abort) fun _ => ?_
    refine .ask_bind still_processWorld trivial fun r s₄ _ => ?_
    refine Safe.ite (fun _ => leads_abort) fun _ => ?_
    refine .ask_bind still_processWorld trivial fun r s₅ _ => ?_
    refine Safe.ite (fun _ => leads_abort) fun _ => ?_
    refine .ask_bind still_processWorld trivial fun ruid s₆ hread => ?_
    obtain ⟨rfl, hruid⟩ := hread
    refine Safe.ite (fun _ => leads_abort) fun hback => ?_
    refine .bind (leads_idle (by simp)) fun t x ht => Safe.ite (fun _ => leads_abort) fun _ => ?_
    subst ht
    exact hruid.symm.trans (not_not.mp hback)
  refine .bind hids fun s₃ _ hruid => Safe.ite (fun _ => ?_) fun _ => hruid
  refine (leads_dropCaps hmask).mono fun t _ ht => ?_
  rw [ht]
  exact hruid

/-! ### A kernel for a child that drops to a mask -/

/-- Answers to a process whose forks make it the child: it may lead a session, copy descriptors,
and take the steps of the drop to the capabilities of the mask. -/
def FileView.handsOver (v : FileView) (mask : Nat) (s : Process) :
    (c : SysCall) → Option (c.Answer × Process)
  | .setsid => some (1, { s with leader := true })
  | .dup2 old new =>
      match s.fds old with
      | some f => if s.child = true then some (new.natAbs, s.opened new f) else none
      | none => none
  | .prctl option arg2 arg3 =>
      if option = prCapbsetDrop ∧ s.creds.euid = 0 then
        some (0, s.withCreds { s.creds with bounding := s.creds.bounding \ {arg2} })
      else if option = prSetKeepcaps ∧ arg2 = 1 ∧ s.creds.euid = 0 then
        some (0, s.withCreds { s.creds with keepCaps := true })
      else if option = prCapAmbient ∧ arg2 = prCapAmbientRaise ∧ s.creds.keepCaps = true ∧
          mask.testBit arg3 = true then
        some (0, s.withCreds { s.creds with ambient := insert arg3 s.creds.ambient })
      else none
  | .capset _ _ data =>
      if data = [capsMaskLo mask, capsMaskLo mask, capsMaskLo mask, capsMaskHi mask,
          capsMaskHi mask, capsMaskHi mask] ∧ s.creds.euid ≠ 0 ∧ s.creds.keepCaps = true then
        some (0, s.withCreds { s.creds with
          effective := maskCaps mask, permitted := maskCaps mask, inheritable := maskCaps mask,
          ambient := s.creds.ambient ∩ (maskCaps mask ∩ maskCaps mask) })
      else none
  | .capget _ _ => some (some [capsMaskLo mask, 0, 0, capsMaskHi mask, 0, 0], s)
  | c => v.forks 0 s c

theorem handsOver_answers (v : FileView) {mask : Nat}
    (hmask : ∀ c, mask.testBit c = true → c ≤ capLastCap) (s : Process) (c : SysCall)
    (r : c.Answer) (s' : Process) (hs : s.Granted (maskCaps mask))
    (h : v.handsOver mask s c = some (r, s')) :
    processWorld.answers s c r s' ∧ s'.Granted (maskCaps mask) := by
  cases c with
  | setsid =>
      cases h
      refine ⟨⟨fun _ => show (0 : Int) ≤ 1 by decide, ?_⟩, hs.stdin, hs.caps, hs.held⟩
      rw [decide_eq_true (show (0 : Int) ≤ 1 by decide), Bool.or_true]
  | dup2 old new =>
      simp only [FileView.handsOver] at h
      split at h
      · rename_i f hold
        obtain ⟨hchild, h⟩ := Option.ite_none_right_eq_some.mp h
        cases h
        refine ⟨Or.inr ⟨Int.natCast_nonneg _, f, hold, rfl⟩, fun hown => ?_, hs.caps, hs.held⟩
        exact absurd (hchild.symm.trans hown) (by decide)
      · cases h
  | prctl option arg2 arg3 =>
      simp only [FileView.handsOver] at h
      split at h
      · rename_i hdrop
        cases h
        obtain ⟨rfl, hroot⟩ := hdrop
        exact ⟨Or.inr ⟨le_rfl, _, _, rfl, .dropBounding (hs.caps hroot).2.2, rfl⟩,
          hs.stdin, hs.caps, hs.held⟩
      · split at h
        · rename_i hkeep
          cases h
          obtain ⟨rfl, rfl, hroot⟩ := hkeep
          exact ⟨Or.inr ⟨le_rfl, _, _, rfl, .keepCaps, rfl⟩, hs.stdin, hs.caps,
            fun _ => hs.held (Or.inl hroot)⟩
        · obtain ⟨hraise, h⟩ := Option.ite_none_right_eq_some.mp h
          cases h
          obtain ⟨rfl, rfl, hkeep, hc⟩ := hraise
          obtain ⟨hpermitted, hinheritable⟩ := hs.held (Or.inr hkeep)
          exact ⟨Or.inr ⟨le_rfl, _, _, rfl, .raiseAmbient (hpermitted hc) (hinheritable hc), rfl⟩,
            hs.stdin, hs.caps, hs.held⟩
  | capset version pid data =>
      obtain ⟨hset, h⟩ := Option.ite_none_right_eq_some.mp h
      cases h
      obtain ⟨rfl, hroot, hkeep⟩ := hset
      obtain ⟨hpermitted, hinheritable⟩ := hs.held (Or.inr hkeep)
      refine ⟨Or.inr ⟨le_rfl, _, _, rfl, ?_, rfl⟩, hs.stdin, fun hzero => absurd hzero hroot,
        fun _ => ⟨le_rfl, le_rfl⟩⟩
      have hwords : Process.wordCaps (capsMaskLo mask) (capsMaskHi mask) = maskCaps mask :=
        wordCaps_mask fun c hc => (hmask c hc).trans_lt (by decide)
      show s.creds.Applies (.capset (Process.wordCaps (capsMaskLo mask) (capsMaskHi mask))
        (Process.wordCaps (capsMaskLo mask) (capsMaskHi mask))
        (Process.wordCaps (capsMaskLo mask) (capsMaskHi mask))) _
      rw [hwords]
      exact .capset hpermitted le_rfl (fun _ hc => Or.inl (hinheritable hc))
        fun _ _ hc => Or.inl (hinheritable hc)
  | capget =>
      cases h
      exact ⟨rfl, hs⟩
  | _ => exact forks_answers v 0 s _ r s' hs h

end Shakti
