import Shakti.Lib.InsertionSort
import Shakti.SkippedFragments

/-!
# Shakti.FragmentOrder

In which order fragments are loaded.

`_shk_sort_str_vec` sorts the names of the include directory in place, by the loops of the
source (`Checked.shkSortStrVec`); what it computes is the insertion sort of
`Shakti.Lib.InsertionSort` for `str_compare_lex`, which is the lexicographic order of byte
strings (`strCompareLex_nonpos_iff`). So what `load_policy` returns does not depend on the
order in which the directory lists its entries (`loadPolicy_fragmentOrder`).
-/

namespace Shakti

open Effects

/-! ### The comparison -/

theorem strCompareLex_nil_right (a : Bytes) : strCompareLex a [] = a.length := by
  cases a with
  | nil => rfl
  | cons x a => rfl

/-- `str_compare_lex` compares lexicographically. -/
theorem strCompareLex_nonpos_iff (a b : Bytes) : strCompareLex a b ≤ 0 ↔ a ≤ b := by
  induction a generalizing b with
  | nil => simp [strCompareLex]
  | cons x a ih =>
      cases b with
      | nil =>
          refine iff_of_false ?_ (List.not_le.mpr (List.nil_lt_cons x a))
          simp [strCompareLex]
      | cons y b =>
          rw [strCompareLex, List.cons_le_cons_iff]
          by_cases h : x = y
          · simp [h, ih]
          · have hlt : x < y ↔ (x.toNat : Int) < y.toNat := by
              rw [UInt8.lt_iff_toNat_lt]
              omega
            have hne : (x.toNat : Int) ≠ y.toNat := by
              intro heq
              exact h (UInt8.toNat_inj.mp (by omega))
            rw [if_pos h, hlt, or_iff_left (fun h' => h h'.1)]
            omega

/-- The order in which names are sorted. -/
def nameLe (a b : CStr) : Bool := decide (strCompareLex a.bytes b.bytes ≤ 0)

theorem nameLe_iff {a b : CStr} : nameLe a b = true ↔ a.bytes ≤ b.bytes := by
  rw [nameLe, decide_eq_true_iff, strCompareLex_nonpos_iff]

theorem nameLe_total (a b : CStr) : (nameLe a b || nameLe b a) = true := by
  rw [Bool.or_eq_true, nameLe_iff, nameLe_iff]
  exact List.le_total a.bytes b.bytes

theorem nameLe_trans (a b c : CStr) (hab : nameLe a b) (hbc : nameLe b c) : nameLe a c :=
  nameLe_iff.mpr (List.le_trans (nameLe_iff.mp hab) (nameLe_iff.mp hbc))

theorem nameLe_antisymm (a b : CStr) (hab : nameLe a b) (hba : nameLe b a) : a = b :=
  CStr.ext (List.le_antisymm (nameLe_iff.mp hab) (nameLe_iff.mp hba))

/-! ### The sort -/

theorem sortInsert_eq (s : List CStr) (x : CStr) :
    sortInsert s x = Memory.insertBack nameLe s x := by
  have habove : (fun a : CStr => decide (0 < strCompareLex a.bytes x.bytes)) =
      fun a => !nameLe a x := by
    funext a
    rw [nameLe, ← decide_not]
    congr 1
    exact propext Int.not_le.symm
  rw [sortInsert, Memory.insertBack, habove]

theorem shkSortStrVec_eq (names : List CStr) :
    shkSortStrVec names = Memory.sortBack nameLe names := by
  have hinsert : sortInsert = Memory.insertBack nameLe := by
    funext s x
    exact sortInsert_eq s x
  rw [shkSortStrVec, hinsert, Memory.sortBack]

/-- The names are kept, each as often as it was listed. -/
theorem shkSortStrVec_perm (names : List CStr) : (shkSortStrVec names).Perm names := by
  rw [shkSortStrVec_eq]
  exact Memory.sortBack_perm names

/-- Each name comes before those behind it in the order of byte strings. -/
theorem shkSortStrVec_pairwise (names : List CStr) :
    (shkSortStrVec names).Pairwise (fun a b => a.bytes ≤ b.bytes) := by
  rw [shkSortStrVec_eq]
  exact (Memory.sortBack_pairwise nameLe_total nameLe_trans names).imp nameLe_iff.mp

theorem shkSortStrVec_eq_of_perm {names names' : List CStr} (h : names.Perm names') :
    shkSortStrVec names = shkSortStrVec names' := by
  rw [shkSortStrVec_eq, shkSortStrVec_eq]
  exact Memory.sortBack_eq_of_perm nameLe_total nameLe_trans nameLe_antisymm h

namespace Checked

open Memory

/-- One turn of the loop of `str_compare_lex`. -/
def strCompareLexTurn (a b : Bytes) (min i : Nat) : Option (Turn Nat Int) :=
  if i < min then do
    let ca ← a[i]?
    let cb ← b[i]?
    if ca ≠ cb then return .done ((ca.toNat : Int) - cb.toNat) else return .next (i + 1)
  else return .done ((a.length : Int) - b.length)

/-- `str_compare_lex`, on two strings with their lengths. -/
def strCompareLex (a b : Bytes) : Option Int :=
  let min := if b.length < a.length then b.length else a.length
  run (strCompareLexTurn a b min) (min + 1) 0

/-- `_shk_sort_str_vec`, in place. -/
def shkSortStrVec (names : List CStr) : Option (List CStr) :=
  sortInPlace (fun a b => (strCompareLex a.bytes b.bytes).map (fun c => decide (c ≤ 0)))
    (names.length + 1) names

theorem strCompareLex_eq (a b : Bytes) : strCompareLex a b = some (Shakti.strCompareLex a b) := by
  generalize hmin : (if b.length < a.length then b.length else a.length) = min
  have hle : min ≤ a.length ∧ min ≤ b.length ∧ (min = a.length ∨ min = b.length) := by
    split at hmin <;> omega
  obtain ⟨ha, hb, hend⟩ := hle
  rw [strCompareLex, hmin]
  -- What is left to compare after `i` equal bytes.
  refine run_eq (fun n i c => n + i = min ∧ c = Shakti.strCompareLex (a.drop i) (b.drop i)) ?_
    ⟨rfl, rfl⟩ (Nat.lt_succ_self min)
  intro n i c h
  obtain ⟨hn, rfl⟩ := h
  by_cases hi : i < min
  · have hia : i < a.length := by omega
    have hib : i < b.length := by omega
    rw [List.drop_eq_getElem_cons hia, List.drop_eq_getElem_cons hib, Shakti.strCompareLex]
    by_cases hbyte : a[i] = b[i]
    · rw [if_neg (by simpa using hbyte)]
      refine Or.inr ⟨n - 1, i + 1, by omega, ?_, by omega, rfl⟩
      simp [strCompareLexTurn, hi, hia, hib, hbyte]
    · rw [if_pos hbyte]
      left
      simp [strCompareLexTurn, hi, hia, hib, hbyte]
  · left
    rw [strCompareLexTurn, if_neg hi]
    rcases hend with hend | hend
    · rw [List.drop_eq_nil_of_le (by omega : a.length ≤ i), Shakti.strCompareLex, List.length_drop]
      congr 2
      omega
    · rw [List.drop_eq_nil_of_le (by omega : b.length ≤ i), strCompareLex_nil_right,
        List.length_drop]
      congr 2
      omega

/-- The loops of the source end, stay in bounds and compute the sort. -/
theorem shkSortStrVec_eq (names : List CStr) :
    shkSortStrVec names = some (Shakti.shkSortStrVec names) := by
  rw [Shakti.shkSortStrVec_eq]
  refine sortInPlace_eq (fun a b => ?_) (Nat.lt_succ_self _)
  rw [strCompareLex_eq, Option.map_some, nameLe]

end Checked

/-! ### What is loaded -/

/-- What the file parses to, as far as it is read. -/
def FileView.readPolicy (v : FileView) (path : CStr) : Policy :=
  parsePolicy (((v.content path).getD []).take policyReadCap)

/-- The fragment is root's, not world-writable, and something can be read of it. -/
def FileView.loadsFragment (v : FileView) (path : CStr) : Bool :=
  match v.stat path, v.content path with
  | some st, some c => decide (st.uid = 0) && decide (st.mode &&& 2 = 0) && decide (c ≠ [])
  | _, _ => false

/-- The rules of those `.toml` fragments among the names that are loaded, in the order of the
names. -/
def FileView.rulesOf (v : FileView) (dir : CStr) (names : List CStr) : List Rule :=
  (((names.filter isFragmentName).map (pathJoin dir)).filter v.loadsFragment).flatMap
    (fun path => (v.readPolicy path).rules)

section Loaded

variable {v : FileView}

/-- What an empty file adds is nothing, so that it need not be told from one that is skipped. -/
theorem FileView.flatMap_keepsFragment (paths : List CStr) :
    (paths.filter v.keepsFragment).flatMap v.fragmentRules =
      (paths.filter v.loadsFragment).flatMap (fun path => (v.readPolicy path).rules) := by
  induction paths with
  | nil => rfl
  | cons path paths ih =>
      have hone : ([path].filter v.keepsFragment).flatMap v.fragmentRules =
          ([path].filter v.loadsFragment).flatMap (fun path => (v.readPolicy path).rules) := by
        cases hst : v.stat path with
        | none => simp [FileView.keepsFragment, FileView.loadsFragment, hst]
        | some st =>
            cases hc : v.content path with
            | none => simp [FileView.keepsFragment, FileView.loadsFragment, hst, hc]
            | some c =>
                have hrules : v.fragmentRules path = (v.readPolicy path).rules := rfl
                cases c with
                | nil =>
                    have hnone : (v.readPolicy path).rules = [] := by
                      rw [FileView.readPolicy, hc]
                      rfl
                    simp [FileView.keepsFragment, FileView.loadsFragment, List.filter_cons, hst, hc,
                      hrules, hnone]
                | cons b bs =>
                    have hkeeps : v.keepsFragment path = v.loadsFragment path := by
                      simp [FileView.keepsFragment, FileView.loadsFragment, fragmentTrusted, hst,
                        hc]
                    rw [List.filter_cons, List.filter_cons, hkeeps]
                    rfl
      rw [← List.singleton_append, List.filter_append, List.filter_append, List.flatMap_append,
        List.flatMap_append, hone, ih]

theorem FileView.includedRules_eq (dir : CStr) :
    v.includedRules dir =
      if v.keepsDir dir then v.rulesOf dir (shkSortStrVec (v.list dir)) else [] := by
  rw [FileView.includedRules, FileView.fragments, FileView.flatMap_keepsFragment,
    FileView.rulesOf]

/-- Only the set of names a directory lists counts, not their order. -/
theorem FileView.loadedPolicy_eq_of_perm {v' : FileView} (hstat : v'.stat = v.stat)
    (hcontent : v'.content = v.content) (hlist : ∀ dir, (v'.list dir).Perm (v.list dir))
    (path : CStr) : v'.loadedPolicy path = v.loadedPolicy path := by
  have hincluded : ∀ dir, v'.includedRules dir = v.includedRules dir := by
    intro dir
    have hsort := shkSortStrVec_eq_of_perm (hlist dir)
    have hloads : v'.loadsFragment = v.loadsFragment := by
      funext file
      simp only [FileView.loadsFragment, hstat, hcontent]
    have hkeeps : v'.keepsDir dir = v.keepsDir dir := by simp only [FileView.keepsDir, hstat]
    have hrules : v'.rulesOf dir = v.rulesOf dir := by
      funext names
      simp only [FileView.rulesOf, FileView.readPolicy, hloads, hcontent]
    rw [FileView.includedRules_eq, FileView.includedRules_eq, hsort, hkeeps, hrules]
  have hcomplete : ∀ policy, v'.complete policy = v.complete policy := by
    intro policy
    simp only [FileView.complete, hincluded]
  simp only [FileView.loadedPolicy, hstat, hcontent, hcomplete]

end Loaded

/-- **Fragments load in one order.** -/
theorem loadPolicy_fragmentOrder {v : FileView} {path : CStr} {policy : Policy}
    (h : v.Loads path policy) :
    policy.defaults = (v.readPolicy path).defaults ∧
    ((v.readPolicy path).defaults.includeDir = none →
      policy.rules = (v.readPolicy path).rules) ∧
    (∀ dir, (v.readPolicy path).defaults.includeDir = some dir →
      ∃ names, Checked.shkSortStrVec (v.list dir) = some names ∧ names.Perm (v.list dir) ∧
        names.Pairwise (fun a b => a.bytes ≤ b.bytes) ∧
        policy.rules = (v.readPolicy path).rules ++
          if v.keepsDir dir then v.rulesOf dir names else []) ∧
    (∀ file c, v.content file = some c → c.length ≤ policyReadCap →
      v.readPolicy file = parsePolicy c) ∧
    (∀ v' : FileView, v'.stat = v.stat → v'.content = v.content →
      (∀ dir, (v'.list dir).Perm (v.list dir)) → v'.Loads path policy) := by
  obtain ⟨content, hcontent, hpolicy⟩ := h.eq
  have hmain : parsePolicy (content.take policyReadCap) = v.readPolicy path := by
    rw [FileView.readPolicy, hcontent, Option.getD_some]
  rw [hmain] at hpolicy
  refine ⟨?_, ?_, ?_, ?_, ?_⟩
  · rw [hpolicy]
    cases hdir : (v.readPolicy path).defaults.includeDir with
    | none => rw [FileView.complete_none hdir]
    | some dir => rw [FileView.complete_some hdir]
  · intro hdir
    rw [hpolicy, FileView.complete_none hdir]
  · intro dir hdir
    refine ⟨shkSortStrVec (v.list dir), Checked.shkSortStrVec_eq _, shkSortStrVec_perm _,
      shkSortStrVec_pairwise _, ?_⟩
    rw [hpolicy, FileView.complete_some hdir, FileView.includedRules_eq]
  · intro file c hc hlen
    rw [FileView.readPolicy, hc, Option.getD_some, List.take_of_length_le hlen]
  · intro v' hstat hcontent' hlist
    rw [FileView.loads_iff, FileView.loadedPolicy_eq_of_perm hstat hcontent' hlist]
    exact FileView.loads_iff.mp h

/-- Two fragments whose names are listed in the other order. -/
theorem loadPolicy_fragmentOrder_skipping :
    skippedPolicy.rules = skippingMachine.rulesOf includeDir
      [cstr "10-deny.toml", cstr "20-allow.toml"] := by
  obtain ⟨names, hsort, -, -, hrules⟩ :=
    (loadPolicy_fragmentOrder skippingMachine_loads).2.2.1 includeDir (by decide)
  have hnames : names = [cstr "10-deny.toml", cstr "20-allow.toml"] := by
    rw [Checked.shkSortStrVec_eq] at hsort
    cases hsort
    decide
  have hmain : (skippingMachine.readPolicy defaultPolicyPath).rules = [] := by decide
  have hdir : skippingMachine.keepsDir includeDir = true := by decide
  rw [hrules, hmain, if_pos hdir, hnames, List.nil_append]

/-- The same machine, with an include directory that everybody may write. -/
def openDirMachine : FileView :=
  { skippingMachine with
    stat := fun path =>
      if path = includeDir then some ⟨sIfdir ||| 511, 0, 0⟩ else skippingMachine.stat path }

/-- The fragments of a directory that does not pass its own checks are not loaded. -/
theorem loadPolicy_openDir :
    ¬ ∀ (v : FileView) (path : CStr) (policy : Policy) (content : Bytes) (dir : CStr),
      (∀ file c, v.content file = some c → c.length ≤ policyReadCap) →
      v.Loads path policy → v.content path = some content →
      (parsePolicy content).defaults.includeDir = some dir →
      ∃ names : List CStr, names.Perm (v.list dir) ∧
        names.Pairwise (fun a b => a.bytes ≤ b.bytes) ∧
        policy.rules = (parsePolicy content).rules ++ v.rulesOf dir names := by
  intro hclaim
  have hload : openDirMachine.Loads defaultPolicyPath (parsePolicy includingPolicy) :=
    FileView.loads_iff.mpr (by decide)
  have hcap : ∀ file c, openDirMachine.content file = some c → c.length ≤ policyReadCap := by
    intro file c hc
    simp only [openDirMachine, skippingMachine] at hc
    split at hc
    · cases hc
      decide
    · split at hc
      · cases hc
        decide
      · split at hc
        · cases hc
          decide
        · cases hc
  obtain ⟨names, hperm, -, hrules⟩ := hclaim openDirMachine defaultPolicyPath _ includingPolicy
    includeDir hcap hload (by decide) (by decide)
  have hnone : openDirMachine.rulesOf includeDir names = [] := by simpa using hrules
  have hname : cstr "20-allow.toml" ∈ names.filter isFragmentName :=
    List.mem_filter.mpr ⟨hperm.mem_iff.mpr (by decide), by decide⟩
  have hfile : allowFragment ∈
      ((names.filter isFragmentName).map (pathJoin includeDir)).filter
        openDirMachine.loadsFragment :=
    List.mem_filter.mpr ⟨List.mem_map_of_mem hname, by decide⟩
  have hempty := List.flatMap_eq_nil_iff.mp hnone allowFragment hfile
  exact absurd hempty (by decide)

end Shakti
