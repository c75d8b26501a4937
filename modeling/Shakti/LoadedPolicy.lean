import Shakti.PolicyChoice

/-!
# Shakti.LoadedPolicy

What `load_policy` builds on a machine at rest.

The policy is what the first `policyReadCap` bytes of the file parse to, completed with
the rules of the fragments that pass their checks (`FileView.loads_iff`). Nothing tells a
policy that lacks rules from one that was never longer: what was not read, and what was
left out, may have closed what the rest opens.
-/

namespace Shakti

open Effects Effects.Prog FirstMatch

/-! ### The loader on a machine at rest -/

/-- The fragment passes its checks: it is trusted and can be read. -/
def FileView.keepsFragment (v : FileView) (path : CStr) : Bool :=
  match v.stat path with
  | some st => fragmentTrusted st && (v.content path).isSome
  | none => false

/-- What a fragment parses to when it can be read. -/
def FileView.fragmentRules (v : FileView) (path : CStr) : List Rule :=
  (parsePolicy (((v.content path).getD []).take policyReadCap)).rules

/-- The fragments of a directory, in the order of their names. -/
def FileView.fragments (v : FileView) (dir : CStr) : List CStr :=
  ((shkSortStrVec (v.list dir)).filter isFragmentName).map (pathJoin dir)

/-- Whether the include directory passes its checks. -/
def FileView.keepsDir (v : FileView) (dir : CStr) : Bool :=
  match v.stat dir with
  | some st => includeDirTrusted st
  | none => false

/-- The rules the fragments of a directory add. -/
def FileView.includedRules (v : FileView) (dir : CStr) : List Rule :=
  if v.keepsDir dir then
    ((v.fragments dir).filter v.keepsFragment).flatMap v.fragmentRules
  else []

/-- A policy completed with the rules of its include directory. -/
def FileView.complete (v : FileView) (policy : Policy) : Policy :=
  match policy.defaults.includeDir with
  | none => policy
  | some dir => { policy with rules := policy.rules ++ v.includedRules dir }

variable {v : FileView} {tr : Trace}

theorem FileView.complete_none {policy : Policy} (h : policy.defaults.includeDir = none) :
    v.complete policy = policy := by
  simp only [FileView.complete, h]

theorem FileView.complete_some {policy : Policy} {dir : CStr}
    (h : policy.defaults.includeDir = some dir) :
    v.complete policy = { policy with rules := policy.rules ++ v.includedRules dir } := by
  simp only [FileView.complete, h]

theorem returns_fileReadAll {path : CStr} {cap : Nat} {got : Option Bytes}
    (hv : ∀ e ∈ tr, v.Answers e) (hrun : Returns (fileReadAll path cap) tr got) :
    got = (v.content path).map (List.take cap) := by
  obtain ⟨r, tr', rfl, hrest⟩ := returns_ask_bind_iff.mp hrun
  obtain ⟨-, rfl⟩ := returns_pure_iff.mp hrest
  have hr : r = v.content path := hv ⟨.readFile path, r⟩ (List.mem_cons_self ..)
  rw [hr]

theorem returns_loadFragment {path : CStr} {rules : List Rule} (hv : ∀ e ∈ tr, v.Answers e)
    (hrun : Returns (loadFragment path) tr rules) :
    rules = if v.keepsFragment path then v.fragmentRules path else [] := by
  obtain ⟨st, tr', rfl, hrun₁⟩ := returns_ask_bind_iff.mp hrun
  have hst : st = v.stat path := hv ⟨.stat path, st⟩ (List.mem_cons_self ..)
  unfold FileView.keepsFragment FileView.fragmentRules
  rw [← hst]
  cases st with
  | none => exact (returns_pure_iff.mp hrun₁).2
  | some st =>
      dsimp only at hrun₁ ⊢
      split at hrun₁
      case isFalse htrusted =>
        simpa [htrusted] using (returns_pure_iff.mp hrun₁).2
      case isTrue htrusted =>
        obtain ⟨tr₁, tr₂, got, rfl, hread, hrun₂⟩ := returns_bind_iff.mp hrun₁
        have hgot := returns_fileReadAll (fun e he => hv e (by simp [he])) hread
        simp only [htrusted, Bool.true_and]
        cases hcontent : v.content path with
        | none =>
            rw [hcontent] at hgot
            subst hgot
            simpa using (returns_pure_iff.mp hrun₂).2
        | some content =>
            rw [hcontent] at hgot
            subst hgot
            dsimp only [Option.map_some] at hrun₂
            rw [Option.getD_some]
            cases hbytes : content.take policyReadCap with
            | nil =>
                rw [hbytes] at hrun₂
                rw [(returns_pure_iff.mp hrun₂).2]
                rfl
            | cons b bs =>
                rw [hbytes] at hrun₂
                simpa using (returns_pure_iff.mp hrun₂).2

theorem returns_loadFragmentLoop {dir : CStr} {names : List CStr} {rules : List Rule}
    (hv : ∀ e ∈ tr, v.Answers e) (hrun : Returns (loadFragmentLoop dir names) tr rules) :
    rules = (((names.filter isFragmentName).map (pathJoin dir)).filter v.keepsFragment).flatMap
      v.fragmentRules := by
  induction names generalizing tr rules with
  | nil => exact (returns_pure_iff.mp hrun).2
  | cons name names ih =>
      rw [loadFragmentLoop] at hrun
      split at hrun
      case isFalse hname =>
        rw [List.filter_cons_of_neg hname]
        exact ih hv hrun
      case isTrue hname =>
        obtain ⟨tr₁, tr₂, rules₁, rfl, hone, hrun₁⟩ := returns_bind_iff.mp hrun
        obtain ⟨tr₃, tr₄, rules₂, rfl, hmore, hrun₂⟩ := returns_bind_iff.mp hrun₁
        obtain ⟨-, rfl⟩ := returns_pure_iff.mp hrun₂
        rw [returns_loadFragment (fun e he => hv e (by simp [he])) hone,
          ih (fun e he => hv e (by simp [he])) hmore, List.filter_cons_of_pos hname,
          List.map_cons]
        split
        case isTrue hkeep => rw [List.filter_cons_of_pos hkeep, List.flatMap_cons]
        case isFalse hkeep => rw [List.filter_cons_of_neg hkeep, List.nil_append]

theorem returns_shkLoadFragments {dir : CStr} {rules : List Rule} (hv : ∀ e ∈ tr, v.Answers e)
    (hrun : Returns (shkLoadFragments dir) tr rules) : rules = v.includedRules dir := by
  obtain ⟨st, tr', rfl, hrun₁⟩ := returns_ask_bind_iff.mp hrun
  have hst : st = v.stat dir := hv ⟨.stat dir, st⟩ (List.mem_cons_self ..)
  unfold FileView.includedRules FileView.keepsDir
  rw [← hst]
  cases st with
  | none => exact (returns_pure_iff.mp hrun₁).2
  | some st =>
      dsimp only at hrun₁ ⊢
      split at hrun₁
      case isFalse htrusted =>
        rw [if_neg htrusted]
        exact (returns_pure_iff.mp hrun₁).2
      case isTrue htrusted =>
        obtain ⟨names, tr₁, rfl, hrun₂⟩ := returns_ask_bind_iff.mp hrun₁
        have hnames : names = v.list dir := hv ⟨.dirList dir, names⟩ (by simp)
        rw [if_pos htrusted, FileView.fragments, ← hnames]
        exact returns_loadFragmentLoop (fun e he => hv e (by simp [he])) hrun₂

theorem returns_loadPolicyBytes {bytes : Bytes} {policy : Policy} (hv : ∀ e ∈ tr, v.Answers e)
    (hrun : Returns (loadPolicyBytes bytes) tr policy) :
    policy = v.complete (parsePolicy bytes) := by
  unfold loadPolicyBytes at hrun
  dsimp only at hrun
  cases hdir : (parsePolicy bytes).defaults.includeDir with
  | none =>
      rw [hdir] at hrun
      rw [FileView.complete_none hdir]
      exact (returns_pure_iff.mp hrun).2
  | some dir =>
      rw [hdir] at hrun
      obtain ⟨tr₁, tr₂, rules, rfl, hfrags, hrun₁⟩ := returns_bind_iff.mp hrun
      rw [FileView.complete_some hdir,
        ← returns_shkLoadFragments (fun e he => hv e (by simp [he])) hfrags]
      exact (returns_pure_iff.mp hrun₁).2

/-- What `load_policy` returns: nothing for a file that is not trusted, cannot be read or
is empty, and else what was read of it, completed. -/
def FileView.loadedPolicy (v : FileView) (path : CStr) : Option Policy :=
  match v.stat path with
  | none => none
  | some st =>
      if policyFileTrusted st then
        match (v.content path).map (List.take policyReadCap) with
        | none => none
        | some [] => none
        | some bytes => some (v.complete (parsePolicy bytes))
      else none

theorem returns_loadPolicy {path : CStr} {got : Option Policy} (hv : ∀ e ∈ tr, v.Answers e)
    (hrun : Returns (loadPolicy path) tr got) : got = v.loadedPolicy path := by
  obtain ⟨st, tr', rfl, hrun₁⟩ := returns_ask_bind_iff.mp hrun
  have hst : st = v.stat path := hv ⟨.stat path, st⟩ (List.mem_cons_self ..)
  unfold FileView.loadedPolicy
  rw [← hst]
  cases st with
  | none => exact (returns_pure_iff.mp hrun₁).2
  | some st =>
      dsimp only at hrun₁ ⊢
      split at hrun₁
      case isFalse htrusted =>
        rw [if_neg htrusted]
        exact (returns_pure_iff.mp hrun₁).2
      case isTrue htrusted =>
        obtain ⟨tr₁, tr₂, bytes, rfl, hread, hrun₂⟩ := returns_bind_iff.mp hrun₁
        rw [if_pos htrusted, ← returns_fileReadAll (fun e he => hv e (by simp [he])) hread]
        match bytes, hrun₂ with
        | none, hrun₂ => exact (returns_pure_iff.mp hrun₂).2
        | some [], hrun₂ => exact (returns_pure_iff.mp hrun₂).2
        | some (b :: bs), hrun₂ =>
            obtain ⟨tr₃, tr₄, pol, rfl, hload, hrun₃⟩ := returns_bind_iff.mp hrun₂
            obtain ⟨-, rfl⟩ := returns_pure_iff.mp hrun₃
            rw [returns_loadPolicyBytes (fun e he => hv e (by simp [he])) hload]

/-- **What the loader builds.** -/
theorem FileView.loads_iff {path : CStr} {policy : Policy} :
    v.Loads path policy ↔ v.loadedPolicy path = some policy := by
  constructor
  · rintro ⟨tr, hv, hrun⟩
    exact (returns_loadPolicy hv hrun).symm
  · intro hloaded
    obtain ⟨tr, got, hv, hrun⟩ := v.exists_returns (fileOnly_loadPolicy path)
    rw [← returns_loadPolicy hv hrun] at hloaded
    exact ⟨tr, hv, hloaded ▸ hrun⟩

/-- A trusted file of which something can be read is loaded. -/
theorem FileView.loads_of_read {path : CStr} {st : Stat} {content bytes : Bytes}
    (hst : v.stat path = some st) (htrusted : policyFileTrusted st = true)
    (hcontent : v.content path = some content) (hbytes : content.take policyReadCap = bytes)
    (hne : bytes ≠ []) : v.Loads path (v.complete (parsePolicy bytes)) := by
  rw [FileView.loads_iff, FileView.loadedPolicy, hst, hcontent, Option.map_some, hbytes]
  dsimp only
  rw [if_pos htrusted]
  cases bytes with
  | nil => exact absurd rfl hne
  | cons b bs => rfl

/-- The policy that is loaded was read of a file. -/
theorem FileView.Loads.eq {path : CStr} {policy : Policy} (h : v.Loads path policy) :
    ∃ content, v.content path = some content ∧
      policy = v.complete (parsePolicy (content.take policyReadCap)) := by
  have hloaded := FileView.loads_iff.mp h
  unfold FileView.loadedPolicy at hloaded
  cases hcontent : v.content path with
  | none =>
      simp only [hcontent, Option.map_none, ite_self] at hloaded
      split at hloaded <;> cases hloaded
  | some content =>
      refine ⟨content, rfl, ?_⟩
      simp only [hcontent, Option.map_some] at hloaded
      split at hloaded
      · cases hloaded
      · split at hloaded
        · split at hloaded
          case h_1 hnone => cases hnone
          case h_2 => cases hloaded
          case h_3 bytes _ hbytes =>
            cases hbytes
            exact (Option.some.inj hloaded).symm
        · cases hloaded

end Shakti
