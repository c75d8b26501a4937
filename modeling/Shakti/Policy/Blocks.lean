import Shakti.Policy.Fields

/-!
# Shakti.Policy.Blocks

A policy text as blocks of key-value pairs.

The main loop of `parse_policy` carries a section and the rule being filled from turn
to turn. What it builds does not depend on that bookkeeping: the defaults are filled by
the pairs of the `[defaults]` blocks, and every `[[rules]]` header starts one rule,
filled by the pairs up to the next header (`parsePolicy_eq`).
-/

namespace Shakti

open Writes

/-- The pairs up to the next section header. -/
def blockOf : List Item → List (CStr × CStr)
  | [] => []
  | .skip :: items => blockOf items
  | .header _ :: _ => []
  | .keyValue key value :: items => (key, value) :: blockOf items

/-- The pairs of all `[defaults]` blocks. -/
def defaultsPairs : List Item → List (CStr × CStr)
  | [] => []
  | .header name :: items =>
      if name = cstr "defaults" then blockOf items ++ defaultsPairs items
      else defaultsPairs items
  | .skip :: items => defaultsPairs items
  | .keyValue _ _ :: items => defaultsPairs items

/-- The pairs of each `[[rules]]` block, in order. -/
def ruleBlocks : List Item → List (List (CStr × CStr))
  | [] => []
  | .header name :: items =>
      if name = cstr "rules" then blockOf items :: ruleBlocks items else ruleBlocks items
  | .skip :: items => ruleBlocks items
  | .keyValue _ _ :: items => ruleBlocks items

/-- The rule a block of pairs describes. -/
def buildRule (block : List (CStr × CStr)) : Rule := fill shkRuleSet ruleNew block

/-- The defaults some pairs describe. -/
def buildDefaults (pairs : List (CStr × CStr)) : Defaults := fill shkDefSet defaultsNew pairs

/-- The pairs of the block the parser is in that belong to the defaults. -/
def Section.defaultsPart : Section → List (CStr × CStr) → List (CStr × CStr)
  | .defaults, block => block
  | _, _ => []

/-- The rule the parser is filling, after the block it is in. -/
def Section.rulePart : Section → List (CStr × CStr) → List Rule
  | .rule cur, block => [fill shkRuleSet cur block]
  | _, _ => []

/-- At the end of its block a section leaves the rule it was filling. -/
@[simp] theorem Section.rulePart_nil (sec : Section) : sec.rulePart [] = sec.rules := by
  cases sec <;> rfl

@[simp] theorem Section.defaultsPart_nil (sec : Section) : sec.defaultsPart [] = [] := by
  cases sec <;> rfl

/-- The run of the main loop from any state. -/
theorem foldl_applyItem (items : List Item) (st : ParseState) :
    (items.foldl applyItem st).policy =
      ⟨fill shkDefSet st.defaults (st.sec.defaultsPart (blockOf items) ++ defaultsPairs items),
        st.done ++ st.sec.rulePart (blockOf items) ++ (ruleBlocks items).map buildRule⟩ := by
  induction items generalizing st with
  | nil => simp [ParseState.policy, blockOf, defaultsPairs, ruleBlocks, fill]
  | cons item items ih =>
      rw [List.foldl_cons, ih]
      cases item with
      | skip => rfl
      | header name =>
          simp only [applyItem, blockOf, Section.rulePart_nil, Section.defaultsPart_nil,
            List.nil_append, defaultsPairs, ruleBlocks]
          by_cases hd : name = cstr "defaults"
          · have hr : ¬ cstr "defaults" = cstr "rules" := by decide
            simp [hd, hr, Section.defaultsPart, Section.rulePart]
          · by_cases hr : name = cstr "rules"
            · rw [if_neg hd, if_pos hr, if_neg hd, if_pos hr, List.map_cons]
              simp [Section.defaultsPart, Section.rulePart, buildRule]
            · rw [if_neg hd, if_neg hr, if_neg hd, if_neg hr]
              simp [Section.defaultsPart, Section.rulePart]
      | keyValue key value =>
          obtain ⟨defaults, done, sec⟩ := st
          cases sec with
          | none => rfl
          | defaults => rfl
          | rule cur => rfl

/-- **What `parse_policy` builds**: the defaults from their blocks, and one rule from
each rule block. -/
theorem parsePolicy_eq (buf : Bytes) :
    parsePolicy buf =
      ⟨buildDefaults (defaultsPairs (policyItems buf)),
        (ruleBlocks (policyItems buf)).map buildRule⟩ := by
  rw [parsePolicy, foldl_applyItem]
  rfl

end Shakti
