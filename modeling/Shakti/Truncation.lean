import Shakti.LoadedPolicy
import Shakti.Policy.CutBlocks
import Shakti.Policy.QuotedStrings

/-!
# Shakti.Truncation

What the read cap of a policy file does to a verdict.

A file longer than `policyReadCap` is cut, and the cut may fall anywhere. All rules that end
before it are read as they are written; the last rule that was read may lack pairs of its block,
and every rule after it is lost. A rule that lacks its commands or its deny list allows more than
it was written to allow, and a lost rule may have denied what a fragment allows:
`FileView.TailCloses` lists what the file has to say behind the cut for that, and
`loadPolicy_truncated_iff` says that nothing else matters.
-/

namespace Shakti

open Effects FirstMatch Writes

/-! ### What a block says of a request -/

section Blocks

variable {block : List (CStr × CStr)} {caller : CStr} {groups : Option (List CStr)}
  {target command : CStr}

/-- The block names the caller or one of the groups, and the target. -/
def BlockFor (block : List (CStr × CStr)) (caller : CStr) (groups : Option (List CStr))
    (target : CStr) : Prop :=
  ((∃ v, lastValue (cstr "user") block = some v ∧
      (shkUnquote v = cstr "*" ∨ shkUnquote v = caller)) ∨
    ∃ v, lastValue (cstr "group") block = some v ∧ shkUnquote v ∈ groups.getD []) ∧
  (match lastValue (cstr "run_as") block with
    | some v => shkUnquote v = cstr "*" ∨ shkUnquote v = target
    | none => target = cstr "root")

/-- The last value of the key has a pattern of the command in quotes. -/
def BlockMatches (key : CStr) (block : List (CStr × CStr)) (command : CStr) : Prop :=
  ∃ v p, lastValue key block = some v ∧ StandsQuoted v p.bytes ∧ commandMatches command p = true

/-- The block lists the command, or has nothing in quotes for its list. -/
def BlockLists (block : List (CStr × CStr)) (command : CStr) : Prop :=
  (∀ v s, lastValue (cstr "commands") block = some v → ¬ StandsQuoted v s) ∨
    BlockMatches (cstr "commands") block command

/-- The block denies the command, or lists it. -/
def BlockDecides (block : List (CStr × CStr)) (command : CStr) : Prop :=
  BlockMatches (cstr "deny_commands") block command ∨ BlockLists block command

theorem buildRule_applicable_iff :
    (buildRule block).Applicable caller groups target ↔ BlockFor block caller groups target := by
  have huser : (buildRule block).user =
      ((lastValue (cstr "user") block).map fun v => some (shkUnquote v)).getD none :=
    ruleFields.user.fill_last ruleNew block
  have hgroup : (buildRule block).group =
      ((lastValue (cstr "group") block).map fun v => some (shkUnquote v)).getD none :=
    ruleFields.group.fill_last ruleNew block
  have hrun : (buildRule block).runAs =
      ((lastValue (cstr "run_as") block).map shkUnquote).getD (cstr "root") :=
    ruleFields.runAs.fill_last ruleNew block
  have hroot : ¬ cstr "root" = cstr "*" := by decide
  rw [Rule.Applicable, Rule.ForUser, Rule.ForGroup, huser, hgroup, hrun, BlockFor]
  refine and_congr (or_congr ?_ ?_) ?_
  · cases lastValue (cstr "user") block with
    | none => simp
    | some v => simp
  · cases lastValue (cstr "group") block with
    | none => simp
    | some v => simp
  · cases lastValue (cstr "run_as") block with
    | none => simp [hroot, eq_comm]
    | some v => simp

/-- The list of a rule matches what its block's last value has a pattern for. -/
theorem matchesSome_lastList_iff {key : CStr} :
    MatchesSome command (((lastValue key block).map shkParseStrArray).getD []) ↔
      BlockMatches key block command := by
  constructor
  · intro ⟨p, hp, hmatch⟩
    obtain ⟨v, hv, hstands⟩ := mem_lastList_iff.mp ⟨p, hp, rfl⟩
    exact ⟨v, p, hv, hstands, hmatch⟩
  · intro ⟨v, p, hv, hstands, hmatch⟩
    obtain ⟨q, hq, hbytes⟩ := mem_lastList_iff.mpr ⟨v, hv, hstands⟩
    exact ⟨q, hq, CStr.ext hbytes ▸ hmatch⟩

theorem buildRule_denies_iff : MatchesSome command (buildRule block).denyCommands ↔
    BlockMatches (cstr "deny_commands") block command := by
  rw [← matchesSome_lastList_iff, show (buildRule block).denyCommands = _ from
    ruleFields.denyCommands.fill_last ruleNew block]
  rfl

theorem buildRule_decisive_iff :
    (buildRule block).Decisive command ↔ BlockDecides block command := by
  have hcommands : (buildRule block).commands =
      ((lastValue (cstr "commands") block).map shkParseStrArray).getD [] :=
    ruleFields.commands.fill_last ruleNew block
  rw [Rule.Decisive, buildRule_denies_iff, hcommands, matchesSome_lastList_iff, BlockDecides,
    BlockLists]
  refine or_congr_right (or_congr_left ?_)
  rw [List.eq_nil_iff_forall_not_mem]
  constructor
  · intro hnone v s hv hstands
    obtain ⟨p, hp, -⟩ := mem_lastList_iff.mpr ⟨v, hv, hstands⟩
    exact hnone p hp
  · intro hnone p hp
    obtain ⟨v, hv, hstands⟩ := mem_lastList_iff.mp ⟨p, hp, rfl⟩
    exact hnone v p.bytes hv hstands

theorem buildRule_deciding_iff : (buildRule block).Deciding caller groups target command ↔
    BlockFor block caller groups target ∧ BlockDecides block command := by
  rw [Rule.Deciding, buildRule_applicable_iff, buildRule_decisive_iff]

end Blocks

/-! ### The tail of a file -/

/-- The rules that were read in full: all that were read but the last. -/
def settledRules (content : Bytes) : List Rule :=
  (parsePolicy (content.take policyReadCap)).rules.dropLast

/-- The pairs that were read of the rule the cut falls into. -/
def cutBlock (content : Bytes) : Option (List (CStr × CStr)) :=
  (ruleBlocks (policyItems (content.take policyReadCap))).getLast?

/-- The block that the cut falls into: a front of whole pairs, the pair the cut tears, if any,
and what the file has behind the front. -/
structure CutRule (content : Bytes) (front torn behind : List (CStr × CStr)) : Prop where
  read : cutBlock content = some (front ++ torn)
  written : (ruleBlocks (policyItems content))[(settledRules content).length]? =
    some (front ++ behind)
  pair : TornPair torn behind

/-- The rules of a file behind those that were read in full. -/
def tailRules (content : Bytes) : List Rule :=
  (parsePolicy content).rules.drop (settledRules content).length

/-- The rules of a policy's include directory. -/
def FileView.fragmentsOf (v : FileView) (policy : Policy) : List Rule :=
  (policy.defaults.includeDir.map v.includedRules).getD []

section Tail

variable (v : FileView) (content : Bytes) (caller : CStr) (groups : Option (List CStr))
  (target command : CStr)

/-- The first of these rules that decides the request allows it. -/
def AllowedBy (rules : List Rule) : Prop :=
  Grants (fun r : Rule => r.Deciding caller groups target command)
    (fun r => ¬ MatchesSome command r.denyCommands) rules

/-- Of these rules, the first one that decides the request denies it, or there is none. -/
def RefusedBy (rules : List Rule) : Prop :=
  ∀ pre r, First (fun r : Rule => r.Deciding caller groups target command) rules pre r →
    MatchesSome command r.denyCommands

/-- What was read of the block the cut falls into allows the request. -/
structure CutAllows (front torn behind : List (CStr × CStr)) : Prop where
  rule : CutRule content front torn behind
  applies : BlockFor (front ++ torn) caller groups target
  notDenied : ¬ BlockMatches (cstr "deny_commands") (front ++ torn) command
  lists : BlockLists (front ++ torn) command

/-- What the file says behind the cut, when what was read allows the request. -/
inductive FileView.TailCloses : Prop
  /-- The block goes on with a deny list that has a pattern of the command. -/
  | denies {front torn behind : List (CStr × CStr)} {value pattern : CStr} :
      CutAllows content caller groups target command front torn behind →
      BlockFor (front ++ behind) caller groups target →
      lastValue (cstr "deny_commands") behind = some value → StandsQuoted value pattern.bytes →
      commandMatches command pattern = true → TailCloses
  /-- The block goes on with a list of other commands, and no rule behind it allows the
  request. -/
  | otherCommands {front torn behind : List (CStr × CStr)} {value : CStr} :
      CutAllows content caller groups target command front torn behind →
      lastValue (cstr "commands") behind = some value → (∃ s, StandsQuoted value s) →
      (∀ p : CStr, StandsQuoted value p.bytes → commandMatches command p = false) →
      ¬ BlockMatches (cstr "deny_commands") (front ++ behind) command →
      RefusedBy caller groups target command
        ((tailRules content).drop 1 ++ v.fragmentsOf (parsePolicy content)) → TailCloses
  /-- The block goes on with another user, group or target, and no rule behind it allows the
  request. -/
  | otherRequests {front torn behind : List (CStr × CStr)} :
      CutAllows content caller groups target command front torn behind →
      ¬ BlockFor (front ++ behind) caller groups target →
      RefusedBy caller groups target command
        ((tailRules content).drop 1 ++ v.fragmentsOf (parsePolicy content)) → TailCloses
  /-- What was read of the block passes the request on to the fragments, which allow it; of the
  rules that are written from there on, one denies it first. -/
  | laterRule {pre : List Rule} {r : Rule} :
      (∀ block, cutBlock content = some block →
        ¬ (BlockFor block caller groups target ∧ BlockDecides block command)) →
      AllowedBy caller groups target command
        (v.fragmentsOf (parsePolicy (content.take policyReadCap))) →
      First (fun r : Rule => r.Deciding caller groups target command) (tailRules content) pre r →
      MatchesSome command r.denyCommands → TailCloses
  /-- None of these decides it, and the fragments of the directory that the whole file names do
  not allow it. -/
  | otherFragments :
      (∀ block, cutBlock content = some block →
        ¬ (BlockFor block caller groups target ∧ BlockDecides block command)) →
      AllowedBy caller groups target command
        (v.fragmentsOf (parsePolicy (content.take policyReadCap))) →
      (∀ r ∈ tailRules content, ¬ r.Deciding caller groups target command) →
      RefusedBy caller groups target command (v.fragmentsOf (parsePolicy content)) → TailCloses

end Tail

section Tail

variable {v : FileView} {content : Bytes} {caller : CStr} {groups : Option (List CStr)}
  {target command : CStr} {front torn behind : List (CStr × CStr)}

theorem refusedBy_iff {rules : List Rule} :
    RefusedBy caller groups target command rules ↔
      ¬ AllowedBy caller groups target command rules := by
  rw [AllowedBy, not_grants_iff]
  exact forall₃_congr fun _ _ _ => not_not.symm

/-- A key that the file does not have behind the front has one value in both blocks. -/
theorem TornPair.lastValue_eq (h : TornPair torn behind) {key : CStr}
    (hnone : lastValue key behind = none) (front : List (CStr × CStr)) :
    lastValue key (front ++ torn) = lastValue key (front ++ behind) := by
  have htorn : lastValue key torn = none := by
    rcases h with rfl | ⟨k, value, value', more, rfl, rfl⟩
    · rfl
    · have hk : ¬ k = key := by
        intro hk
        rw [lastValue, valuesOf, if_pos hk, List.getLast?_eq_none_iff] at hnone
        cases hnone
      rw [lastValue, valuesOf, if_neg hk]
      rfl
  rw [lastValue_append, lastValue_append, htorn, hnone]

/-- The rule the cut falls into is the first of the tail. -/
theorem CutRule.tailRules_eq (h : CutRule content front torn behind) :
    tailRules content = buildRule (front ++ behind) :: (tailRules content).drop 1 := by
  have hget : (parsePolicy content).rules[(settledRules content).length]? =
      some (buildRule (front ++ behind)) := by
    rw [parsePolicy_eq, List.getElem?_map, h.written]
    rfl
  obtain ⟨hlt, hrule⟩ := List.getElem?_eq_some_iff.mp hget
  rw [tailRules, List.drop_eq_getElem_cons hlt, hrule]
  rfl

/-- When what was read of the last block decides the request, the cut falls into a rule. -/
theorem exists_cutRule {block : List (CStr × CStr)} (hcut : cutBlock content = some block)
    (hdecides : BlockFor block caller groups target) :
    ∃ front torn behind, block = front ++ torn ∧ CutRule content front torn behind := by
  have hne : block ≠ [] := by
    rintro rfl
    obtain ⟨⟨v, hv, -⟩ | ⟨v, hv, -⟩, -⟩ := hdecides
    · cases hv
    · cases hv
  obtain ⟨front, torn, behind, rfl, hwritten, hpair⟩ := exists_cutBlock _
    (content.drop policyReadCap) hcut hne
  rw [List.take_append_drop] at hwritten
  refine ⟨front, torn, behind, rfl, hcut, ?_, hpair⟩
  rwa [settledRules, List.length_dropLast, length_rules]

theorem FileView.complete_rules (v : FileView) (policy : Policy) :
    (v.complete policy).rules = policy.rules ++ v.fragmentsOf policy := by
  rw [FileView.fragmentsOf]
  cases hdir : policy.defaults.includeDir with
  | none => rw [FileView.complete_none hdir]; simp
  | some dir => rw [FileView.complete_some hdir]; rfl

/-- The rules that are read: those in full, the one that is cut, and the fragments. -/
theorem FileView.rules_read (v : FileView) (content : Bytes) :
    (v.complete (parsePolicy (content.take policyReadCap))).rules =
      settledRules content ++ (((cutBlock content).map buildRule).toList ++
        v.fragmentsOf (parsePolicy (content.take policyReadCap))) := by
  have hcut : (cutBlock content).map buildRule =
      (parsePolicy (content.take policyReadCap)).rules.getLast? := by
    rw [cutBlock, parsePolicy_eq, List.getLast?_map]
  rw [FileView.complete_rules, hcut, settledRules, ← List.append_assoc, dropLast_append_toList]

/-- The rules that are written: those in full, the tail, and the fragments. -/
theorem FileView.rules_written (v : FileView) (content : Bytes) :
    (v.complete (parsePolicy content)).rules =
      settledRules content ++ (tailRules content ++ v.fragmentsOf (parsePolicy content)) := by
  obtain ⟨t, ht⟩ := exists_rules_append (content.take policyReadCap) (content.drop policyReadCap)
  rw [List.take_append_drop] at ht
  rw [FileView.complete_rules, tailRules, ht, ← settledRules, List.drop_left, List.append_assoc]

/-- A rule in front passes a request on that it does not decide. -/
theorem refusedBy_cons_iff {r : Rule} {rules : List Rule} :
    RefusedBy caller groups target command (r :: rules) ↔
      (r.Deciding caller groups target command → MatchesSome command r.denyCommands) ∧
      (¬ r.Deciding caller groups target command →
        RefusedBy caller groups target command rules) := by
  rw [refusedBy_iff, refusedBy_iff, AllowedBy, grants_cons_iff, AllowedBy]
  tauto

/-- The rule that is cut allows the request as it was read. -/
theorem CutAllows.allowedBy (h : CutAllows content caller groups target command front torn behind)
    (rules : List Rule) : AllowedBy caller groups target command
      (((cutBlock content).map buildRule).toList ++ rules) := by
  rw [h.rule.read]
  refine grants_cons_iff.mpr (Or.inl ⟨?_, ?_⟩)
  · exact buildRule_deciding_iff.mpr ⟨h.applies, Or.inr h.lists⟩
  · rw [buildRule_denies_iff]
    exact h.notDenied

/-- The rule that is cut passes the request on. -/
theorem allowedBy_of_passes (hpass : ∀ block, cutBlock content = some block →
      ¬ (BlockFor block caller groups target ∧ BlockDecides block command)) (rules : List Rule) :
    AllowedBy caller groups target command
        (((cutBlock content).map buildRule).toList ++ rules) ↔
      AllowedBy caller groups target command rules := by
  refine grants_append_iff fun r hr => ?_
  obtain ⟨block, hblock, rfl⟩ := Option.map_eq_some_iff.mp (Option.mem_toList.mp hr)
  rw [buildRule_deciding_iff]
  exact hpass block hblock

/-- What the block says behind the cut, when the whole of it does not let the request pass. -/
theorem CutAllows.tailCloses
    (h : CutAllows content caller groups target command front torn behind)
    (hrefused : RefusedBy caller groups target command
      (tailRules content ++ v.fragmentsOf (parsePolicy content))) :
    v.TailCloses content caller groups target command := by
  rw [h.rule.tailRules_eq, List.cons_append, refusedBy_cons_iff, buildRule_deciding_iff,
    buildRule_denies_iff] at hrefused
  obtain ⟨hdenies, hlater⟩ := hrefused
  by_cases hfor : BlockFor (front ++ behind) caller groups target
  case neg => exact .otherRequests h hfor (hlater fun hdeciding => hfor hdeciding.1)
  by_cases hdeny : BlockMatches (cstr "deny_commands") (front ++ behind) command
  · -- The pattern does not stand in front of the cut, so its key is written behind it.
    obtain ⟨value, pattern, hvalue, hstands, hmatch⟩ := hdeny
    cases hbehind : lastValue (cstr "deny_commands") behind with
    | none =>
        rw [← h.rule.pair.lastValue_eq hbehind] at hvalue
        exact absurd ⟨value, pattern, hvalue, hstands, hmatch⟩ h.notDenied
    | some value' =>
        rw [lastValue_append, hbehind] at hvalue
        obtain rfl := Option.some.inj hvalue
        exact .denies h hfor hbehind hstands hmatch
  · have hlists : ¬ BlockLists (front ++ behind) command := fun hlists =>
      hdeny (hdenies ⟨hfor, Or.inr hlists⟩)
    have hlater := hlater fun hdeciding => hdeciding.2.elim hdeny hlists
    cases hbehind : lastValue (cstr "commands") behind with
    | none =>
        have hsame := h.rule.pair.lastValue_eq hbehind front
        have hlisted := h.lists
        rw [BlockLists, BlockMatches, hsame] at hlisted
        exact absurd hlisted hlists
    | some value =>
        have hvalue : lastValue (cstr "commands") (front ++ behind) = some value := by
          rw [lastValue_append, hbehind, Option.some_or]
        rw [BlockLists, not_or] at hlists
        obtain ⟨hsome, hnone⟩ := hlists
        push Not at hsome
        obtain ⟨value', s, hvalue', hs⟩ := hsome
        obtain rfl : value = value' := Option.some.inj (hvalue.symm.trans hvalue')
        refine .otherCommands h hbehind ⟨s, hs⟩ (fun p hp => ?_) hdeny hlater
        rw [← Bool.not_eq_true]
        exact fun hmatch => hnone ⟨value, p, hvalue, hp, hmatch⟩

/-- **What closes the tail**: behind the rules that were read in full, the request is allowed as
it was read, and not as it is written. -/
theorem tailCloses_iff : v.TailCloses content caller groups target command ↔
    AllowedBy caller groups target command (((cutBlock content).map buildRule).toList ++
        v.fragmentsOf (parsePolicy (content.take policyReadCap))) ∧
      RefusedBy caller groups target command
        (tailRules content ++ v.fragmentsOf (parsePolicy content)) := by
  constructor
  · intro h
    cases h with
    | @denies front torn behind value pattern h hfor hvalue hstands hmatch =>
        refine ⟨h.allowedBy _, ?_⟩
        have hdeny : BlockMatches (cstr "deny_commands") (front ++ behind) command :=
          ⟨_, _, by rw [lastValue_append, hvalue, Option.some_or], hstands, hmatch⟩
        rw [h.rule.tailRules_eq, List.cons_append, refusedBy_cons_iff, buildRule_denies_iff,
          buildRule_deciding_iff]
        exact ⟨fun _ => hdeny, fun hno => absurd ⟨hfor, Or.inl hdeny⟩ hno⟩
    | @otherCommands front torn behind value h hvalue hsome hnone hdeny hlater =>
        refine ⟨h.allowedBy _, ?_⟩
        have hlast : lastValue (cstr "commands") (front ++ behind) = some value := by
          rw [lastValue_append, hvalue, Option.some_or]
        have hlists : ¬ BlockLists (front ++ behind) command := by
          intro hlists
          rcases hlists with hempty | ⟨value', p, hvalue', hstands, hmatch⟩
          · obtain ⟨s, hs⟩ := hsome
            exact hempty value s hlast hs
          · obtain rfl := Option.some.inj (hlast.symm.trans hvalue')
            exact absurd hmatch (by simp [hnone p hstands])
        rw [h.rule.tailRules_eq, List.cons_append, refusedBy_cons_iff, buildRule_deciding_iff]
        exact ⟨fun hdeciding => absurd hdeciding.2 (not_or.mpr ⟨hdeny, hlists⟩),
          fun _ => hlater⟩
    | otherRequests h hfor hlater =>
        refine ⟨h.allowedBy _, ?_⟩
        rw [h.rule.tailRules_eq, List.cons_append, refusedBy_cons_iff, buildRule_deciding_iff]
        exact ⟨fun hdeciding => absurd hdeciding.1 hfor, fun _ => hlater⟩
    | laterRule hpass hallowed hfirst hdeny =>
        refine ⟨(allowedBy_of_passes hpass _).mpr hallowed, fun pre' r' hfirst' => ?_⟩
        obtain ⟨⟨post, hsplit⟩, hdeciding, hbefore⟩ := hfirst
        have hfirst : First _ (tailRules content ++ v.fragmentsOf (parsePolicy content)) _ _ :=
          ⟨⟨post ++ v.fragmentsOf (parsePolicy content), by rw [hsplit]; simp⟩, hdeciding, hbefore⟩
        obtain ⟨-, rfl⟩ := hfirst.unique hfirst'
        exact hdeny
    | otherFragments hpass hallowed hnone hrefused =>
        refine ⟨(allowedBy_of_passes hpass _).mpr hallowed, ?_⟩
        rw [refusedBy_iff, AllowedBy, grants_append_iff hnone]
        exact refusedBy_iff.mp hrefused
  · intro ⟨hallowed, hrefused⟩
    by_cases hcut : ∃ block, cutBlock content = some block ∧
        BlockFor block caller groups target ∧ BlockDecides block command
    · obtain ⟨block, hblock, hfor, hdecides⟩ := hcut
      obtain ⟨front, torn, behind, rfl, hrule⟩ := exists_cutRule hblock hfor
      have hdeciding : (buildRule (front ++ torn)).Deciding caller groups target command :=
        buildRule_deciding_iff.mpr ⟨hfor, hdecides⟩
      rw [hblock, AllowedBy] at hallowed
      rcases grants_cons_iff.mp hallowed with ⟨-, hdeny⟩ | ⟨hno, -⟩
      · rw [buildRule_denies_iff] at hdeny
        exact CutAllows.tailCloses ⟨hrule, hfor, hdeny, hdecides.resolve_left hdeny⟩ hrefused
      · exact absurd hdeciding hno
    · have hpass : ∀ block, cutBlock content = some block →
          ¬ (BlockFor block caller groups target ∧ BlockDecides block command) :=
        fun block hblock hdecides => hcut ⟨block, hblock, hdecides⟩
      rw [allowedBy_of_passes hpass] at hallowed
      by_cases hex : ∃ r ∈ tailRules content, r.Deciding caller groups target command
      · obtain ⟨r, hr, hdeciding⟩ := hex
        obtain ⟨pre, r', ⟨post, hsplit⟩, hr', hbefore⟩ :=
          exists_first (p := fun r : Rule => r.Deciding caller groups target command) hr hdeciding
        refine .laterRule hpass hallowed ⟨⟨post, hsplit⟩, hr', hbefore⟩ (hrefused pre r' ?_)
        exact ⟨⟨post ++ v.fragmentsOf (parsePolicy content), by rw [hsplit]; simp⟩, hr', hbefore⟩
      · push Not at hex
        refine .otherFragments hpass hallowed hex ?_
        rw [refusedBy_iff, AllowedBy, grants_append_iff hex] at hrefused
        exact refusedBy_iff.mpr hrefused

/-- **What a cut does to a verdict**: the policy that is loaded allows no more than the whole
file exactly when a rule that was read in full decides, or the tail does not close what was read
behind them. -/
theorem loadPolicy_truncated_iff {path : CStr} {policy : Policy} (hload : v.Loads path policy)
    (hcontent : v.content path = some content) (caller : CStr) (groups : Option (List CStr))
    (target command : CStr) :
    ((checkAuthorization policy caller groups target command).allowed = true →
      (checkAuthorization (v.complete (parsePolicy content)) caller groups target
        command).allowed = true) ↔
    ¬ ((∀ r ∈ settledRules content, ¬ r.Deciding caller groups target command) ∧
      v.TailCloses content caller groups target command) := by
  obtain ⟨content', hcontent', rfl⟩ := hload.eq
  rw [hcontent] at hcontent'
  cases hcontent'
  rw [allowed_iff_grants, allowed_iff_grants, v.rules_read, v.rules_written,
    grants_append_imp_iff, tailCloses_iff, refusedBy_iff, AllowedBy, AllowedBy]
  tauto

end Tail

/-- A policy that fits the cap. -/
def shortMachine : FileView := rootFiles [(defaultPolicyPath, 384, denyRule)]

/-- A file that is read whole is not cut. -/
theorem loadPolicy_truncated_short :
    ((checkAuthorization (parsePolicy denyRule) (cstr "al") none (cstr "root")
        (cstr "/bin/sh")).allowed = true →
      (checkAuthorization (shortMachine.complete (parsePolicy denyRule)) (cstr "al") none
        (cstr "root") (cstr "/bin/sh")).allowed = true) ↔
    ¬ ((∀ r ∈ settledRules denyRule, ¬ r.Deciding (cstr "al") none (cstr "root")
        (cstr "/bin/sh")) ∧
      shortMachine.TailCloses denyRule (cstr "al") none (cstr "root") (cstr "/bin/sh")) :=
  loadPolicy_truncated_iff
    (FileView.loads_iff.mpr (by decide : shortMachine.loadedPolicy defaultPolicyPath
      = some (parsePolicy denyRule)))
    (by decide) (cstr "al") none (cstr "root") (cstr "/bin/sh")

/-! ### A rule that is cut -/

/-- A rule, and the key the cut takes from it. -/
def openRule : Bytes := utf8 "[[rules]]\nuser = \"al\"\n"
def closingKey : Bytes := utf8 "deny_commands = [\"*\"]\n"

/-- A comment line of `n + 2` bytes. -/
def commentLine (n : Nat) : Bytes := 35 :: List.replicate n 35 ++ [10]

/-- A file in which the cap falls between the two. -/
def longPolicy : Bytes :=
  commentLine (policyReadCap - 2 - openRule.length) ++ openRule ++ closingKey

/-- A comment line says nothing. -/
theorem parsePolicy_commentLine (n : Nat) (b : Bytes) :
    parsePolicy (commentLine n ++ b) = parsePolicy b := by
  have hread : readItem (commentLine n ++ b) = (.skip, b) := by
    have hall : ∀ c ∈ (35 : UInt8) :: List.replicate n 35, (c != 10) = true := by
      intro c hc
      rcases List.mem_cons.mp hc with rfl | hc
      · rfl
      · rw [List.eq_of_mem_replicate hc]
        rfl
    have hafter : afterLine (commentLine n ++ b) = b := by
      rw [afterLine, commentLine, List.append_assoc, List.dropWhile_append_of_pos hall]
      rfl
    have hskip : readItem (commentLine n ++ b) = (.skip, afterLine (commentLine n ++ b)) := rfl
    rw [hskip, hafter]
  have hitems : policyItems (commentLine n ++ b) = .skip :: policyItems b := by
    have hcons : commentLine n ++ b = 35 :: (List.replicate n 35 ++ [10] ++ b) := rfl
    rw [hcons, policyItems_cons (by decide), ← hcons, hread]
  rw [parsePolicy_eq, parsePolicy_eq, hitems]
  rfl

theorem commentLine_length (n : Nat) : (commentLine n).length = n + 2 := by
  simp [commentLine]

theorem longPolicy_take : longPolicy.take policyReadCap =
    commentLine (policyReadCap - 2 - openRule.length) ++ openRule := by
  have hrule : openRule.length + 2 ≤ policyReadCap := by decide
  rw [longPolicy]
  refine List.take_left' ?_
  rw [List.length_append, commentLine_length]
  omega

/-- The machine with the file. -/
def longMachine : FileView := rootFiles [(defaultPolicyPath, 384, longPolicy)]

theorem longMachine_loads : longMachine.Loads defaultPolicyPath (parsePolicy openRule) := by
  have hstat : longMachine.stat defaultPolicyPath = some (rootFile 384) := by
    simp [longMachine, rootFiles]
  have hload : longMachine.Loads defaultPolicyPath (longMachine.complete
      (parsePolicy (commentLine (policyReadCap - 2 - openRule.length) ++ openRule))) :=
    FileView.loads_of_read hstat (by decide) (by simp [longMachine, rootFiles])
      longPolicy_take (by simp [commentLine])
  have hno : (parsePolicy openRule).defaults.includeDir = none := by decide
  rwa [parsePolicy_commentLine, FileView.complete_none hno] at hload

/-- **A cut opens what it falls into.** The deny list of a rule is lost, and the rule
allows everything. -/
theorem loadPolicy_cut_opens :
    ¬ ∀ (v : FileView) (path : CStr) (policy : Policy) (content : Bytes),
      v.Loads path policy → v.content path = some content →
      ∀ (caller : CStr) (groups : Option (List CStr)) (target command : CStr),
        (checkAuthorization policy caller groups target command).allowed = true →
        (checkAuthorization (v.complete (parsePolicy content)) caller groups target
          command).allowed = true := by
  intro hclaim
  have hcontent : longMachine.content defaultPolicyPath = some longPolicy := by
    simp [longMachine, rootFiles]
  have hallowed := hclaim longMachine defaultPolicyPath _ longPolicy longMachine_loads hcontent
    (cstr "al") none (cstr "root") (cstr "/bin/sh") (by decide)
  have hno : (parsePolicy (openRule ++ closingKey)).defaults.includeDir = none := by
    decide
  rw [longPolicy, List.append_assoc, parsePolicy_commentLine,
    FileView.complete_none hno] at hallowed
  exact absurd hallowed (by decide)

end Shakti
