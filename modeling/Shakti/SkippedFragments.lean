import Shakti.LoadedPolicy

/-!
# Shakti.SkippedFragments

What a fragment that is left out does to a verdict.

A fragment that fails its checks is passed over, and the policy goes without its rules;
so is a whole include directory. The rules behind a skipped one decide what it would have
decided: `loadPolicy_skipped_iff` says for which requests the policy allows more than the
same policy with all its fragments.
-/

namespace Shakti

open Effects FirstMatch

/-- The rules written in a fragment, where `text` is what the fragments hold that cannot be
read. -/
def FileView.writtenRules (v : FileView) (text : CStr → Bytes) (path : CStr) : List Rule :=
  (parsePolicy (((v.content path).getD (text path)).take policyReadCap)).rules

/-- A policy with the rules of all its fragments, in the order of their names. -/
def FileView.withAll (v : FileView) (text : CStr → Bytes) (policy : Policy) : Policy :=
  match policy.defaults.includeDir with
  | none => policy
  | some dir =>
      { policy with rules := policy.rules ++ (v.fragments dir).flatMap (v.writtenRules text) }

/-- All these rules, each marked with whether the loader keeps it. -/
def FileView.marked (v : FileView) (text : CStr → Bytes) (policy : Policy) :
    List (Rule × Bool) :=
  policy.rules.map (·, true) ++
    match policy.defaults.includeDir with
    | none => []
    | some dir =>
        (v.fragments dir).flatMap fun path =>
          (v.writtenRules text path).map (·, v.keepsDir dir && v.keepsFragment path)

/-- A rule of a skipped fragment closes the request: it is the first to decide it, with a
denial, and the first rule the loader keeps that decides the request allows it. -/
def FileView.SkipsDenial (v : FileView) (text : CStr → Bytes) (policy : Policy) (caller : CStr)
    (groups : Option (List CStr)) (target command : CStr) : Prop :=
  Reopened (fun r : Rule => r.Deciding caller groups target command)
    (fun r => ¬ MatchesSome command r.denyCommands) (v.marked text policy)

variable {v : FileView} {text : CStr → Bytes} {policy : Policy}

theorem FileView.marked_fst :
    (v.marked text policy).map Prod.fst = (v.withAll text policy).rules := by
  unfold FileView.marked FileView.withAll
  cases policy.defaults.includeDir with
  | none => simp [Function.comp_def]
  | some dir => simp [Function.comp_def, List.map_flatMap]

/-- What is written in a fragment that is kept is what is read of it. -/
theorem FileView.writtenRules_of_keeps {path : CStr} (h : v.keepsFragment path = true) :
    v.writtenRules text path = v.fragmentRules path := by
  unfold FileView.keepsFragment at h
  unfold FileView.writtenRules FileView.fragmentRules
  cases hcontent : v.content path with
  | some content => rfl
  | none =>
      rw [hcontent] at h
      split at h <;> simp at h

theorem kept_fragments (keepDir : Bool) (paths : List CStr) :
    kept (paths.flatMap fun path =>
        (v.writtenRules text path).map (·, keepDir && v.keepsFragment path)) =
      if keepDir then (paths.filter v.keepsFragment).flatMap v.fragmentRules else [] := by
  induction paths with
  | nil => cases keepDir <;> rfl
  | cons path paths ih =>
      rw [List.flatMap_cons, kept_append, kept_map, ih]
      cases keepDir with
      | false => rfl
      | true =>
          cases hkeep : v.keepsFragment path with
          | false => simp [hkeep]
          | true => simp [hkeep, FileView.writtenRules_of_keeps hkeep]

/-- The loader keeps the rules that are marked as kept. -/
theorem FileView.kept_marked : kept (v.marked text policy) = (v.complete policy).rules := by
  unfold FileView.marked
  rw [kept_append, kept_map]
  cases hdir : policy.defaults.includeDir with
  | none =>
      rw [FileView.complete_none hdir]
      simp [kept]
  | some dir =>
      rw [FileView.complete_some hdir]
      dsimp only
      rw [kept_fragments, FileView.includedRules]
      rfl

/-- **What a skipped fragment does to a verdict**: the policy that is loaded allows no more
than the one with all fragments exactly when no rule of a skipped fragment closes what a
kept rule behind it opens. -/
theorem loadPolicy_skipped_iff {path : CStr} {content : Bytes} (hload : v.Loads path policy)
    (hcontent : v.content path = some content) (text : CStr → Bytes) (caller : CStr)
    (groups : Option (List CStr)) (target command : CStr) :
    ((checkAuthorization policy caller groups target command).allowed = true →
      (checkAuthorization (v.withAll text (parsePolicy (content.take policyReadCap))) caller
        groups target command).allowed = true) ↔
    ¬ v.SkipsDenial text (parsePolicy (content.take policyReadCap)) caller groups target
      command := by
  obtain ⟨content', hcontent', rfl⟩ := hload.eq
  rw [hcontent] at hcontent'
  cases hcontent'
  have hkept := @FileView.kept_marked v text (parsePolicy (content.take policyReadCap))
  rw [allowed_iff_grants, allowed_iff_grants, ← hkept, ← FileView.marked_fst]
  exact grants_kept_imp_iff

/-! ### A deny list that is skipped -/

/-- The include directory and its two fragments. -/
def includeDir : CStr := cstr "/etc/agnos/sudoers.d"
def denyFragment : CStr := pathJoin includeDir (cstr "10-deny.toml")
def allowFragment : CStr := pathJoin includeDir (cstr "20-allow.toml")

/-- A main policy that only names the directory. -/
def includingPolicy : Bytes := utf8 "[defaults]\ninclude_dir = \"/etc/agnos/sudoers.d\"\n"

/-- A machine on which everybody may write the first of two fragments: it denies `al`
everything, and the second allows him everything. -/
def skippingMachine : FileView where
  stat path :=
    if path = includeDir then some ⟨sIfdir ||| 493, 0, 0⟩
    else if path = denyFragment then some (rootFile 438)
    else some (rootFile 384)
  content path :=
    if path = defaultPolicyPath then some includingPolicy
    else if path = denyFragment then
      some (utf8 "[[rules]]\nuser = \"al\"\ndeny_commands = [\"*\"]\n")
    else if path = allowFragment then some (utf8 "[[rules]]\nuser = \"al\"\n")
    else none
  list path := if path = includeDir then [cstr "20-allow.toml", cstr "10-deny.toml"] else []

/-- The policy loaded there. -/
def skippedPolicy : Policy := skippingMachine.complete (parsePolicy includingPolicy)

theorem skippingMachine_loads : skippingMachine.Loads defaultPolicyPath skippedPolicy :=
  FileView.loads_iff.mpr (by decide)

/-- The deny rule that is skipped closes what the rule after it opens. -/
theorem loadPolicy_skipped_deny :
    ((checkAuthorization skippedPolicy (cstr "al") none (cstr "root")
        (cstr "/bin/sh")).allowed = true →
      (checkAuthorization (skippingMachine.withAll (fun _ => [])
        (parsePolicy (includingPolicy.take policyReadCap))) (cstr "al") none (cstr "root")
        (cstr "/bin/sh")).allowed = true) ↔
    ¬ skippingMachine.SkipsDenial (fun _ => [])
      (parsePolicy (includingPolicy.take policyReadCap)) (cstr "al") none (cstr "root")
      (cstr "/bin/sh") :=
  loadPolicy_skipped_iff skippingMachine_loads (by decide) (fun _ => []) (cstr "al") none
    (cstr "root") (cstr "/bin/sh")

/-- **A skipped deny list opens what it closed.** -/
theorem loadPolicy_skip_opens :
    ¬ ∀ (v : FileView) (path : CStr) (policy : Policy) (content : Bytes),
      v.Loads path policy → v.content path = some content →
      ∀ (text : CStr → Bytes) (caller : CStr) (groups : Option (List CStr))
        (target command : CStr),
        (checkAuthorization policy caller groups target command).allowed = true →
        (checkAuthorization (v.withAll text (parsePolicy (content.take policyReadCap))) caller
          groups target command).allowed = true := by
  intro hclaim
  have hallowed := hclaim skippingMachine defaultPolicyPath skippedPolicy includingPolicy
    skippingMachine_loads (by decide) (fun _ => []) (cstr "al") none (cstr "root")
    (cstr "/bin/sh") (by decide)
  exact absurd hallowed (by decide)

end Shakti
