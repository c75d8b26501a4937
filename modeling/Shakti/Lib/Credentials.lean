import Mathlib.Data.Set.Lattice
import Mathlib.Order.Interval.Set.Basic

/-!
# Shakti.Lib.Credentials

**The credentials of a Linux process** and the calls that change them, as capabilities(7)
describes them for a process with no securebits set.

* `Creds` — the user and group ids, the supplementary groups, the five capability sets, and
  whether capabilities are kept across a change of the uids.
* `Creds.Applies` — what a call that succeeds does; a call whose condition fails is refused.
* `Creds.withUids` — what a change of the uids does to the capability sets.
* `Creds.exec` — the credentials of an ordinary program the process executes.

`Creds.AllIds` and `Creds.OnlyCaps` say that nothing is left but given ids, or given
capabilities; `onlyCaps_exec` carries the latter to the executed program, also for root.
-/

namespace Linux

def capSetgid : ℕ := 6
def capSetuid : ℕ := 7
def capSetpcap : ℕ := 8

/-- The credentials of a process. -/
@[ext] structure Creds where
  ruid : ℕ
  euid : ℕ
  suid : ℕ
  rgid : ℕ
  egid : ℕ
  sgid : ℕ
  groups : List ℕ
  permitted : Set ℕ
  effective : Set ℕ
  inheritable : Set ℕ
  bounding : Set ℕ
  ambient : Set ℕ
  keepCaps : Bool

/-- The calls that change credentials. -/
inductive CredCall
  | setgroups (gids : List ℕ)
  | setgid (gid : ℕ)
  | setuid (uid : ℕ)
  | dropBounding (c : ℕ)
  | keepCaps (on : Bool)
  | capset (effective permitted inheritable : Set ℕ)
  | raiseAmbient (c : ℕ)

namespace Creds

variable {s t : Creds}

/-- The process has given up the last of its root uids. -/
def LosesRoot (s : Creds) (r e u : ℕ) : Prop :=
  (s.ruid = 0 ∨ s.euid = 0 ∨ s.suid = 0) ∧ r ≠ 0 ∧ e ≠ 0 ∧ u ≠ 0

instance (s : Creds) (r e u : ℕ) : Decidable (s.LosesRoot r e u) :=
  inferInstanceAs (Decidable (_ ∧ _))

/-- Change the uids, and the capability sets with them. -/
def withUids (s : Creds) (r e u : ℕ) : Creds :=
  let lost := s.LosesRoot r e u
  let permitted := if lost ∧ s.keepCaps = false then ∅ else s.permitted
  { s with
    ruid := r
    euid := e
    suid := u
    permitted := permitted
    effective :=
      if (lost ∧ s.keepCaps = false) ∨ (s.euid = 0 ∧ e ≠ 0) then ∅
      else if s.euid ≠ 0 ∧ e = 0 then permitted
      else s.effective
    ambient := if lost then ∅ else s.ambient }

/-- What a call that succeeds does. -/
inductive Applies : Creds → CredCall → Creds → Prop
  | setgroups {s : Creds} {gids : List ℕ} : capSetgid ∈ s.effective →
      Applies s (.setgroups gids) { s with groups := gids }
  | setgid {s : Creds} {gid : ℕ} : capSetgid ∈ s.effective →
      Applies s (.setgid gid) { s with rgid := gid, egid := gid, sgid := gid }
  /-- Without the capability only the effective gid changes, to one of the others. -/
  | setgidOwn {s : Creds} {gid : ℕ} : capSetgid ∉ s.effective → gid = s.rgid ∨ gid = s.sgid →
      Applies s (.setgid gid) { s with egid := gid }
  | setuid {s : Creds} {uid : ℕ} : capSetuid ∈ s.effective →
      Applies s (.setuid uid) (s.withUids uid uid uid)
  | setuidOwn {s : Creds} {uid : ℕ} : capSetuid ∉ s.effective → uid = s.ruid ∨ uid = s.suid →
      Applies s (.setuid uid) (s.withUids s.ruid uid s.suid)
  | dropBounding {s : Creds} {c : ℕ} : capSetpcap ∈ s.effective →
      Applies s (.dropBounding c) { s with bounding := s.bounding \ {c} }
  | keepCaps {s : Creds} {on : Bool} : Applies s (.keepCaps on) { s with keepCaps := on }
  /-- An ambient capability stays permitted and inheritable. -/
  | capset {s : Creds} {e p i : Set ℕ} : p ⊆ s.permitted → e ⊆ p →
      i ⊆ s.inheritable ∪ s.bounding →
      (capSetpcap ∉ s.effective → i ⊆ s.inheritable ∪ s.permitted) →
      Applies s (.capset e p i)
        { s with effective := e, permitted := p, inheritable := i,
                 ambient := s.ambient ∩ (p ∩ i) }
  | raiseAmbient {s : Creds} {c : ℕ} : c ∈ s.permitted → c ∈ s.inheritable →
      Applies s (.raiseAmbient c) { s with ambient := insert c s.ambient }

/-- The credentials of an executed file that has neither a set-id bit nor capabilities. -/
def exec (s : Creds) : Creds :=
  let ambient := if s.ruid = s.euid ∧ s.rgid = s.egid then s.ambient else ∅
  let permitted :=
    (if s.ruid = 0 ∨ s.euid = 0 then s.bounding ∪ s.inheritable else ∅) ∪ ambient
  { s with
    suid := s.euid
    sgid := s.egid
    permitted := permitted
    effective := if s.euid = 0 then permitted else ambient
    ambient := ambient
    keepCaps := false }

/-! ### What is left -/

/-- All uids and gids of the process, and its groups. -/
structure AllIds (uid gid : ℕ) (gids : List ℕ) (s : Creds) : Prop where
  uids : s.ruid = uid ∧ s.euid = uid ∧ s.suid = uid
  rgids : s.rgid = gid ∧ s.egid = gid ∧ s.sgid = gid
  groups : s.groups = gids

/-- The capabilities of the process, in every set; none can be gained by executing a file. -/
structure OnlyCaps (caps : Set ℕ) (s : Creds) : Prop where
  permitted : s.permitted = caps
  effective : s.effective = caps
  inheritable : s.inheritable = caps
  ambient : s.ambient = caps
  bounding : s.bounding ⊆ caps

/-- The ids outlive the execution of a file. -/
theorem AllIds.exec {uid gid : ℕ} {gids : List ℕ} (h : s.AllIds uid gid gids) :
    s.exec.AllIds uid gid gids where
  uids := ⟨h.uids.1, h.uids.2.1, h.uids.2.1⟩
  rgids := ⟨h.rgids.1, h.rgids.2.1, h.rgids.2.1⟩
  groups := h.groups

/-- So do the capabilities, whether or not the process is root's. -/
theorem OnlyCaps.exec {uid gid : ℕ} {gids : List ℕ} {caps : Set ℕ} (h : s.OnlyCaps caps)
    (hids : s.AllIds uid gid gids) : s.exec.OnlyCaps caps := by
  obtain ⟨⟨hr, he, -⟩, ⟨hrg, heg, -⟩, -⟩ := hids
  have hambient : s.exec.ambient = caps := by
    show (if s.ruid = s.euid ∧ s.rgid = s.egid then s.ambient else ∅) = caps
    rw [if_pos ⟨hr.trans he.symm, hrg.trans heg.symm⟩, h.ambient]
  have hpermitted : s.exec.permitted = caps := by
    show (if s.ruid = 0 ∨ s.euid = 0 then s.bounding ∪ s.inheritable else ∅) ∪ s.exec.ambient = caps
    rw [hambient, h.inheritable]
    split
    · rw [Set.union_eq_self_of_subset_left h.bounding, Set.union_self]
    · rw [Set.empty_union]
  have heffective : s.exec.effective = caps := by
    show (if s.euid = 0 then s.exec.permitted else s.exec.ambient) = caps
    rw [hambient, hpermitted, ite_self]
  exact ⟨hpermitted, heffective, h.inheritable, hambient, h.bounding⟩

/-- A process of another user than root with no ambient capabilities executes files without
capabilities. -/
theorem exec_no_caps {uid gid : ℕ} {gids : List ℕ} (hids : s.AllIds uid gid gids) (huid : uid ≠ 0)
    (hambient : s.ambient = ∅) :
    s.exec.permitted = ∅ ∧ s.exec.effective = ∅ ∧ s.exec.ambient = ∅ := by
  obtain ⟨⟨hr, he, -⟩, -, -⟩ := hids
  have hnone : s.exec.ambient = ∅ := by
    show (if s.ruid = s.euid ∧ s.rgid = s.egid then s.ambient else ∅) = ∅
    rw [hambient, ite_self]
  have hpermitted : s.exec.permitted = ∅ := by
    show (if s.ruid = 0 ∨ s.euid = 0 then s.bounding ∪ s.inheritable else ∅) ∪ s.exec.ambient = ∅
    rw [hnone, if_neg (by omega), Set.union_empty]
  refine ⟨hpermitted, ?_, hnone⟩
  show (if s.euid = 0 then s.exec.permitted else s.exec.ambient) = ∅
  rw [hnone, hpermitted, ite_self]

/-! ### A call of a process that may make it -/

theorem Applies.setgroups_inv {gids : List ℕ} (h : s.Applies (.setgroups gids) t) :
    t = { s with groups := gids } := by
  cases h
  rfl

theorem Applies.setgid_inv {gid : ℕ} (hcap : capSetgid ∈ s.effective)
    (h : s.Applies (.setgid gid) t) : t = { s with rgid := gid, egid := gid, sgid := gid } := by
  cases h with
  | setgid => rfl
  | setgidOwn hno => exact absurd hcap hno

theorem Applies.setuid_inv {uid : ℕ} (hcap : capSetuid ∈ s.effective)
    (h : s.Applies (.setuid uid) t) : t = s.withUids uid uid uid := by
  cases h with
  | setuid => rfl
  | setuidOwn hno => exact absurd hcap hno

theorem Applies.keepCaps_inv {on : Bool} (h : s.Applies (.keepCaps on) t) :
    t = { s with keepCaps := on } := by
  cases h
  rfl

theorem Applies.capset_inv {caps : Set ℕ} (h : s.Applies (.capset caps caps caps) t) :
    t = { s with effective := caps, permitted := caps, inheritable := caps,
                 ambient := s.ambient ∩ caps } := by
  cases h
  rw [Set.inter_self]

/-! ### Calls made for each of a list of capabilities -/

/-- Drop a capability from the bounding set. -/
def unbound (s : Creds) (c : ℕ) : Creds := { s with bounding := s.bounding \ {c} }

/-- Raise an ambient capability. -/
def raise (s : Creds) (c : ℕ) : Creds := { s with ambient := insert c s.ambient }

theorem Applies.dropBounding_inv {c : ℕ} (h : s.Applies (.dropBounding c) t) : t = s.unbound c := by
  cases h
  rfl

theorem Applies.raiseAmbient_inv {c : ℕ} (h : s.Applies (.raiseAmbient c) t) : t = s.raise c := by
  cases h
  rfl

theorem foldl_unbound (s : Creds) (caps : List ℕ) :
    caps.foldl unbound s = { s with bounding := s.bounding \ {c | c ∈ caps} } := by
  induction caps generalizing s with
  | nil => simp
  | cons c caps ih =>
      rw [List.foldl_cons, ih]
      show { s with bounding := (s.bounding \ {c}) \ {c | c ∈ caps} } = _
      rw [Set.sdiff_sdiff]
      congr 2
      ext x
      simp

theorem foldl_raise (s : Creds) (caps : List ℕ) :
    caps.foldl raise s = { s with ambient := {c | c ∈ caps} ∪ s.ambient } := by
  induction caps generalizing s with
  | nil => simp
  | cons c caps ih =>
      rw [List.foldl_cons, ih]
      show { s with ambient := {c | c ∈ caps} ∪ insert c s.ambient } = _
      congr 1
      ext x
      simp only [Set.mem_union, Set.mem_ofPred_eq, Set.mem_insert_iff, List.mem_cons]
      tauto

/-! ### A change of all uids -/

/-- Root becomes another user: the permitted set stays exactly if it is to be kept. -/
theorem withUids_lost {uid : ℕ} (hroot : s.euid = 0) (huid : uid ≠ 0) :
    s.withUids uid uid uid =
      { s with ruid := uid, euid := uid, suid := uid,
               permitted := if s.keepCaps = false then ∅ else s.permitted
               effective := ∅, ambient := ∅ } := by
  have hlost : s.LosesRoot uid uid uid := ⟨Or.inr (Or.inl hroot), huid, huid, huid⟩
  simp only [withUids, hlost, hroot, true_and, or_true, if_true, ne_eq, huid,
    not_false_eq_true]

/-- Root stays root. -/
theorem withUids_root (hroot : s.euid = 0) :
    s.withUids 0 0 0 = { s with ruid := 0, euid := 0, suid := 0 } := by
  have hkept : ¬ s.LosesRoot 0 0 0 := fun h => h.2.1 rfl
  simp only [withUids, hkept, hroot, false_and, and_false, if_false, ne_eq, not_true_eq_false,
    or_self]

/-- Groups, a gid and a uid are taken, in this order. -/
def become (s : Creds) (gids : List ℕ) (gid uid : ℕ) : Creds :=
  Creds.withUids { s with groups := gids, rgid := gid, egid := gid, sgid := gid } uid uid uid

theorem allIds_become (s : Creds) (gids : List ℕ) (gid uid : ℕ) :
    (s.become gids gid uid).AllIds uid gid gids :=
  ⟨⟨rfl, rfl, rfl⟩, ⟨rfl, rfl, rfl⟩, rfl⟩

/-- Root that becomes another user keeps no effective and no ambient capability. -/
theorem become_lost {uid : ℕ} (hroot : s.euid = 0) (huid : uid ≠ 0) (gids : List ℕ) (gid : ℕ) :
    (s.become gids gid uid).permitted = (if s.keepCaps = false then ∅ else s.permitted) ∧
      (s.become gids gid uid).effective = ∅ ∧ (s.become gids gid uid).ambient = ∅ := by
  rw [become, withUids_lost (by exact hroot) huid]
  exact ⟨rfl, rfl, rfl⟩

theorem become_root (hroot : s.euid = 0) (gids : List ℕ) (gid : ℕ) :
    (s.become gids gid 0).permitted = s.permitted ∧
      (s.become gids gid 0).effective = s.effective ∧
      (s.become gids gid 0).ambient = s.ambient := by
  rw [become, withUids_root (by exact hroot)]
  exact ⟨rfl, rfl, rfl⟩

end Creds

end Linux
