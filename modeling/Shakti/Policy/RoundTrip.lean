import Shakti.Policy.Blocks
import Shakti.Policy.Lexing

/-!
# Shakti.Policy.RoundTrip

Parsing undoes rendering.

A text in the documented format is read as the items of its lines
(`significant_policyItems`); the blocks of these items are the sections it was written
with; and each field of a section is read back from the one line that wrote it, or kept
(`Spells.read`).
-/

namespace Shakti

open Writes

/-! ### Items that say nothing -/

theorem blockOf_significant (items : List Item) : blockOf (significant items) = blockOf items := by
  induction items with
  | nil => rfl
  | cons item items ih =>
      cases item with
      | skip => rw [significant_cons_skip, ih, blockOf]
      | header name => rw [significant_cons_header, blockOf, blockOf]
      | keyValue key value => rw [significant_cons_keyValue, blockOf, blockOf, ih]

theorem defaultsPairs_significant (items : List Item) :
    defaultsPairs (significant items) = defaultsPairs items := by
  induction items with
  | nil => rfl
  | cons item items ih =>
      cases item with
      | skip => rw [significant_cons_skip, ih, defaultsPairs]
      | header name =>
          rw [significant_cons_header, defaultsPairs, defaultsPairs, ih, blockOf_significant]
      | keyValue key value => rw [significant_cons_keyValue, defaultsPairs, defaultsPairs, ih]

theorem ruleBlocks_significant (items : List Item) :
    ruleBlocks (significant items) = ruleBlocks items := by
  induction items with
  | nil => rfl
  | cons item items ih =>
      cases item with
      | skip => rw [significant_cons_skip, ih, ruleBlocks]
      | header name =>
          rw [significant_cons_header, ruleBlocks, ruleBlocks, ih, blockOf_significant]
      | keyValue key value => rw [significant_cons_keyValue, ruleBlocks, ruleBlocks, ih]

/-- What is built depends on the significant items only. -/
theorem parsePolicy_significant {text : Bytes} {items : List Item}
    (h : significant (policyItems text) = significant items) :
    parsePolicy text =
      ⟨buildDefaults (defaultsPairs (significant items)),
        (ruleBlocks (significant items)).map buildRule⟩ := by
  rw [parsePolicy_eq, ← h, defaultsPairs_significant, ruleBlocks_significant]

/-! ### Sections -/

section Sections

variable {κ : Type} (keyName : κ → CStr)

/-- The pairs of a section, with their keys as written. -/
def rawPairs (pairs : List (κ × CStr)) : List (CStr × CStr) :=
  pairs.map (fun kv => (keyName kv.1, kv.2))

theorem blockOf_pairItems (pairs : List (κ × CStr)) {rest : List Item}
    (hrest : blockOf rest = []) :
    blockOf (pairItems keyName pairs ++ rest) = rawPairs keyName pairs := by
  induction pairs with
  | nil => exact hrest
  | cons kv pairs ih =>
      rw [pairItems_cons, List.cons_append, blockOf, ih]
      rfl

theorem ruleBlocks_pairItems (pairs : List (κ × CStr)) (rest : List Item) :
    ruleBlocks (pairItems keyName pairs ++ rest) = ruleBlocks rest := by
  induction pairs with
  | nil => rfl
  | cons kv pairs ih => rw [pairItems_cons, List.cons_append, ruleBlocks, ih]

theorem defaultsPairs_pairItems (pairs : List (κ × CStr)) (rest : List Item) :
    defaultsPairs (pairItems keyName pairs ++ rest) = defaultsPairs rest := by
  induction pairs with
  | nil => rfl
  | cons kv pairs ih => rw [pairItems_cons, List.cons_append, defaultsPairs, ih]

end Sections

theorem cstr_rules_ne_defaults : cstr "rules" ≠ cstr "defaults" := by decide

/-- Between sections no block is open. -/
theorem blockOf_ruleItems (sections : List (List (RuleKey × CStr))) {rest : List Item}
    (hrest : blockOf rest = []) : blockOf (ruleItems sections ++ rest) = [] := by
  cases sections with
  | nil => exact hrest
  | cons pairs sections => rfl

theorem ruleItems_cons (pairs : List (RuleKey × CStr)) (sections : List (List (RuleKey × CStr)))
    (rest : List Item) :
    ruleItems (pairs :: sections) ++ rest
      = .header (cstr "rules") ::
          (pairItems RuleKey.name pairs ++ (ruleItems sections ++ rest)) := by
  simp [ruleItems, sectionItems]

theorem ruleBlocks_ruleItems (sections : List (List (RuleKey × CStr))) {rest : List Item}
    (hrest : blockOf rest = []) :
    ruleBlocks (ruleItems sections ++ rest)
      = sections.map (rawPairs RuleKey.name) ++ ruleBlocks rest := by
  induction sections with
  | nil => rfl
  | cons pairs sections ih =>
      rw [ruleItems_cons, ruleBlocks, if_pos rfl,
        blockOf_pairItems _ _ (blockOf_ruleItems sections hrest), ruleBlocks_pairItems, ih,
        List.map_cons, List.cons_append]

theorem defaultsPairs_ruleItems (sections : List (List (RuleKey × CStr))) (rest : List Item) :
    defaultsPairs (ruleItems sections ++ rest) = defaultsPairs rest := by
  induction sections with
  | nil => rfl
  | cons pairs sections ih =>
      rw [ruleItems_cons, defaultsPairs, if_neg cstr_rules_ne_defaults, defaultsPairs_pairItems,
        ih]

/-- The defaults section, and rules on both sides. -/
theorem blocks_of_sections (before after : List (List (RuleKey × CStr)))
    (pairs : List (DefaultsKey × CStr)) :
    defaultsPairs (ruleItems before ++
        (sectionItems (cstr "defaults") DefaultsKey.name pairs ++ ruleItems after))
      = rawPairs DefaultsKey.name pairs ∧
    ruleBlocks (ruleItems before ++
        (sectionItems (cstr "defaults") DefaultsKey.name pairs ++ ruleItems after))
      = (before ++ after).map (rawPairs RuleKey.name) := by
  have hafter : blockOf (ruleItems after) = [] := by
    have hnil : blockOf ([] : List Item) = [] := rfl
    simpa using blockOf_ruleItems after hnil
  have hpairs : defaultsPairs (ruleItems after) = [] := by
    simpa [defaultsPairs] using defaultsPairs_ruleItems after []
  have hrules : ruleBlocks (ruleItems after) = after.map (rawPairs RuleKey.name) := by
    have hnil : blockOf ([] : List Item) = [] := rfl
    simpa [ruleBlocks] using ruleBlocks_ruleItems after hnil
  constructor
  · rw [defaultsPairs_ruleItems, sectionItems, List.cons_append, defaultsPairs, if_pos rfl,
      blockOf_pairItems _ _ hafter, defaultsPairs_pairItems, hpairs, List.append_nil]
  · rw [ruleBlocks_ruleItems before rfl, sectionItems, List.cons_append, ruleBlocks,
      if_neg cstr_rules_ne_defaults.symm, ruleBlocks_pairItems, hrules, List.map_append]

/-! ### Fields -/

/-- A value is read back as it was written. -/
theorem ValueText.unquote {s text : CStr} (h : ValueText (.string s) text) :
    shkUnquote text = s := by
  cases h with
  | string _ htext => exact shkUnquote_quoted htext

theorem ValueText.parseInt {n : Nat} {text : CStr} (h : ValueText (.int n) text) :
    shkParseInt text = some n := by
  cases h with
  | int hn hdec => exact shkParseInt_decimal hn hdec

theorem ValueText.parseBool {b : Bool} {text : CStr} (h : ValueText (.bool b) text) :
    shkParseBool text = some b := by
  cases h
  exact shkParseBool_text b

theorem ValueText.parseStrArray {entries : List CStr} {text : CStr}
    (h : ValueText (.list entries) text) : shkParseStrArray text = entries := by
  cases h with
  | list hbody htext => exact shkParseStrArray_text hbody htext

/-- A field of a spelled section is read back from its line, or keeps its initial
value. -/
theorem Spells.read {κ σ β : Type} [DecidableEq κ] {base value : κ → Option Value}
    {pairs : List (κ × CStr)} (hs : Spells base value pairs) {name : κ → CStr}
    (hname : Function.Injective name) {set : σ → CStr → CStr → σ} {get : σ → β}
    {put : β → CStr → β} (k : κ) (hfield : Field set get (name k) put) (s : σ) {x : β}
    (hwritten : ∀ v text, value k = some v → ValueText v text → put (get s) text = x)
    (hkept : value k = base k → get s = x) :
    get (fill set s (rawPairs name pairs)) = x := by
  rw [hfield.fill, rawPairs, valuesOf_map hname]
  by_cases hmem : k ∈ pairs.map Prod.fst
  · obtain ⟨⟨_, text⟩, hpair, rfl⟩ := List.mem_map.mp hmem
    obtain ⟨v, hv, htext⟩ := hs.written _ _ hpair
    rw [valuesOf_of_mem hs.once hpair]
    exact hwritten v text hv htext
  · rw [valuesOf_of_not_mem hmem]
    exact hkept ((hs.complete k).resolve_left hmem)

section Read

variable {κ σ α β : Type} [DecidableEq κ] {base value : κ → Option Value}
  {pairs : List (κ × CStr)} {name : κ → CStr} {set : σ → CStr → CStr → σ} {s : σ}

/-- A field that always has a value. -/
theorem Spells.readValue {get : σ → α} {put : α → CStr → α} (hs : Spells base value pairs)
    (hname : Function.Injective name) (k : κ) (hfield : Field set get (name k) put)
    {f : α → Value} (hf : Function.Injective f) {x : α} (hx : value k = some (f x))
    (hbase : base k = some (f (get s)))
    (hread : ∀ text, ValueText (f x) text → put (get s) text = x) :
    get (fill set s (rawPairs name pairs)) = x := by
  refine hs.read hname k hfield s (fun v text hv htext => ?_) (fun hkept => ?_)
  · rw [hx, Option.some.injEq] at hv
    exact hread text (hv ▸ htext)
  · rw [hx, hbase, Option.some.injEq] at hkept
    exact (hf hkept).symm

/-- A field that may be without a value. -/
theorem Spells.readOption {get : σ → Option α} {put : Option α → CStr → Option α}
    (hs : Spells base value pairs) (hname : Function.Injective name) (k : κ)
    (hfield : Field set get (name k) put) {f : α → Value} (hf : Function.Injective f)
    {x : Option α} (hx : value k = x.map f) (hbase : base k = (get s).map f)
    (hread : ∀ a text, ValueText (f a) text → put (get s) text = some a) :
    get (fill set s (rawPairs name pairs)) = x := by
  refine hs.read hname k hfield s (fun v text hv htext => ?_) (fun hkept => ?_)
  · obtain ⟨a, ha, rfl⟩ := Option.map_eq_some_iff.mp (hx.symm.trans hv)
    rw [ha]
    exact hread a text htext
  · rw [hx, hbase] at hkept
    exact (Option.map_injective hf hkept).symm

end Read

theorem Value.string_injective : Function.Injective Value.string := fun _ _ h => string.inj h

theorem Value.int_injective : Function.Injective Value.int := fun _ _ h => int.inj h

theorem Value.bool_injective : Function.Injective Value.bool := fun _ _ h => bool.inj h

theorem Value.list_injective : Function.Injective Value.list := fun _ _ h => list.inj h

theorem RuleKey.name_injective : Function.Injective RuleKey.name := by
  intro a b h
  cases a <;> cases b <;> first | rfl | exact absurd h (by decide)

theorem DefaultsKey.name_injective : Function.Injective DefaultsKey.name := by
  intro a b h
  cases a <;> cases b <;> first | rfl | exact absurd h (by decide)

/-- A rule is read back from its section. -/
theorem buildRule_spells {r : Rule} {pairs : List (RuleKey × CStr)}
    (hs : Spells ruleNew.value r.value pairs) :
    buildRule (rawPairs RuleKey.name pairs) = r := by
  have hinj := RuleKey.name_injective
  apply Rule.ext
  case user =>
    exact hs.readOption hinj .user ruleFields.user Value.string_injective rfl rfl
      (fun _ _ ht => by rw [ht.unquote])
  case group =>
    exact hs.readOption hinj .group ruleFields.group Value.string_injective rfl rfl
      (fun _ _ ht => by rw [ht.unquote])
  case runAs =>
    exact hs.readValue hinj .runAs ruleFields.runAs Value.string_injective rfl rfl
      (fun _ ht => ht.unquote)
  case commands =>
    exact hs.readValue hinj .commands ruleFields.commands Value.list_injective rfl rfl
      (fun _ ht => ht.parseStrArray)
  case denyCommands =>
    exact hs.readValue hinj .denyCommands ruleFields.denyCommands Value.list_injective rfl rfl
      (fun _ ht => ht.parseStrArray)
  case requireAuth =>
    exact hs.readValue hinj .requireAuth ruleFields.requireAuth Value.bool_injective rfl rfl
      (fun _ ht => by rw [ht.parseBool]; rfl)
  case description =>
    exact hs.readValue hinj .description ruleFields.description Value.string_injective rfl rfl
      (fun _ ht => ht.unquote)
  case capabilities =>
    exact hs.readValue hinj .capabilities ruleFields.capabilities Value.list_injective rfl rfl
      (fun _ ht => ht.parseStrArray)
  case logSession =>
    exact hs.readOption hinj .logSession ruleFields.logSession Value.bool_injective rfl rfl
      (fun _ _ ht => by rw [ht.parseBool]; rfl)
  case selinuxContext =>
    exact hs.readValue hinj .selinuxContext ruleFields.selinuxContext Value.string_injective rfl
      rfl (fun _ ht => ht.unquote)
  case apparmorProfile =>
    exact hs.readValue hinj .apparmorProfile ruleFields.apparmorProfile Value.string_injective
      rfl rfl (fun _ ht => ht.unquote)
  case logInput =>
    exact hs.readOption hinj .logInput ruleFields.logInput Value.bool_injective rfl rfl
      (fun _ _ ht => by rw [ht.parseBool]; rfl)

/-- The defaults are read back from their section. -/
theorem buildDefaults_spells {d : Defaults} {pairs : List (DefaultsKey × CStr)}
    (hs : Spells defaultsNew.value d.value pairs) :
    buildDefaults (rawPairs DefaultsKey.name pairs) = d := by
  have hinj := DefaultsKey.name_injective
  apply Defaults.ext
  case timestampTtl =>
    exact hs.readValue hinj .timestampTtl defaultsFields.timestampTtl Value.int_injective rfl rfl
      (fun _ ht => by rw [ht.parseInt]; rfl)
  case requireAuth =>
    exact hs.readValue hinj .requireAuth defaultsFields.requireAuth Value.bool_injective rfl rfl
      (fun _ ht => by rw [ht.parseBool]; rfl)
  case auditLog =>
    exact hs.readValue hinj .auditLog defaultsFields.auditLog Value.bool_injective rfl rfl
      (fun _ ht => by rw [ht.parseBool]; rfl)
  case envKeep =>
    exact hs.readValue hinj .envKeep defaultsFields.envKeep Value.list_injective rfl rfl
      (fun _ ht => ht.parseStrArray)
  case maxCommandLen =>
    exact hs.readValue hinj .maxCommandLen defaultsFields.maxCommandLen Value.int_injective rfl
      rfl (fun _ ht => by rw [ht.parseInt]; rfl)
  case includeDir =>
    exact hs.readOption hinj .includeDir defaultsFields.includeDir Value.string_injective rfl rfl
      (fun _ _ ht => by rw [ht.unquote])
  case logSession =>
    exact hs.readValue hinj .logSession defaultsFields.logSession Value.bool_injective rfl rfl
      (fun _ ht => by rw [ht.parseBool]; rfl)
  case sessionLogDir =>
    exact hs.readValue hinj .sessionLogDir defaultsFields.sessionLogDir Value.string_injective
      rfl rfl (fun _ ht => ht.unquote)
  case logInput =>
    exact hs.readValue hinj .logInput defaultsFields.logInput Value.bool_injective rfl rfl
      (fun _ ht => by rw [ht.parseBool]; rfl)
  case nssGroups =>
    exact hs.readValue hinj .nssGroups defaultsFields.nssGroups Value.bool_injective rfl rfl
      (fun _ ht => by rw [ht.parseBool]; rfl)

/-- The rules are read back, in order. -/
theorem map_buildRule_spells {rules : List Rule} {sections : List (List (RuleKey × CStr))}
    (h : List.Forall₂ (fun r pairs => Spells ruleNew.value r.value pairs) rules sections) :
    (sections.map (rawPairs RuleKey.name)).map buildRule = rules := by
  induction h with
  | nil => rfl
  | cons hs _ ih => rw [List.map_cons, List.map_cons, buildRule_spells hs, ih]

/-- **Parsing undoes rendering**: a text in the documented format is read back as the
policy it was written from. -/
theorem parsePolicy_renders {policy : Policy} {text : Bytes} (h : Renders policy text) :
    parsePolicy text = policy := by
  obtain ⟨items, pairs, before, after, hlines, hitems, hdefaults, hrules⟩ := h
  obtain ⟨hpairs, hblocks⟩ := blocks_of_sections before after pairs
  rw [parsePolicy_significant (significant_policyItems hlines), hitems, hpairs, hblocks,
    buildDefaults_spells hdefaults, map_buildRule_spells hrules]

/-- A policy of one rule. -/
def samplePolicy : Policy where
  defaults := { defaultsNew with timestampTtl := 60 }
  rules := [{ ruleNew with
    user := some (cstr "al"), commands := [cstr "/bin/id", cstr "/bin/ls #]"],
    logSession := some true }]

/-- One of its texts: a comment ended by CRLF, trailing comments, an indented key, keys
out of order, an array over several lines, and a last line without an end. -/
def sampleText : Bytes :=
  utf8 "# one\r\n[defaults] # two\n\ttimestamp_ttl = 60 # three\n\n" ++
  utf8 "[[rules]]\nlog_session = true\nuser=\"al\"\n" ++
  utf8 "commands = [\n  \"/bin/id\",\n  \"/bin/ls #]\",\n] # four"

/-- The value of the array in the sample. -/
def sampleArray : CStr := cstr "[\n  \"/bin/id\",\n  \"/bin/ls #]\",\n]"

theorem sampleArray_text :
    ValueText (.list [cstr "/bin/id", cstr "/bin/ls #]"]) sampleArray := by
  have hbytes : sampleArray.bytes = 91 :: (([10, 32, 32] ++ (quoted (cstr "/bin/id") ++ ([] ++ 44 ::
      ([10, 32, 32] ++ (quoted (cstr "/bin/ls #]") ++ ([] ++ 44 :: [10])))))) ++ [93]) := by
    decide
  exact .list (.cons (by decide) (by decide) (by decide) (.cons (by decide)
    (by decide) (by decide) (.nil (by decide)))) hbytes

theorem sampleText_renders : Renders samplePolicy sampleText := by
  have htext : sampleText =
      ([] ++ 35 :: utf8 " one") ++ ([13, 10] ++
      (([] ++ (headerText (cstr "defaults") ++ ([32] ++ 35 :: utf8 " two"))) ++ ([10] ++
      (([9] ++ (DefaultsKey.timestampTtl.name.bytes ++ ([32] ++ 61 :: ([32] ++
        ((cstr "60").bytes ++ ([32] ++ 35 :: utf8 " three")))))) ++ ([10] ++
      ([] ++ ([10] ++
      (([] ++ (headerText (cstr "rules") ++ [])) ++ ([10] ++
      (([] ++ (RuleKey.logSession.name.bytes ++ ([32] ++ 61 :: ([32] ++
        ((cstr "true").bytes ++ []))))) ++ ([10] ++
      (([] ++ (RuleKey.user.name.bytes ++ ([] ++ 61 :: ([] ++
        ((cstr "\"al\"").bytes ++ []))))) ++ ([10] ++
      ([] ++ (RuleKey.commands.name.bytes ++ ([32] ++ 61 :: ([32] ++
        (sampleArray.bytes ++ ([32] ++ 35 :: utf8 " four"))))))))))))))))))) := by
    decide
  have hint : ValueText (.int 60) (cstr "60") := .int (by decide) (by decide)
  have hbool : ValueText (.bool true) (cstr "true") := .bool true
  have hstring : ValueText (.string (cstr "al")) (cstr "\"al\"") :=
    .string (by decide) (by decide)
  have htrail : ∀ c, 10 ∉ c → Trail ([32] ++ 35 :: c) :=
    fun _ hc => .comment (by decide) (by decide) hc
  refine ⟨[.skip, .header (cstr "defaults"), .keyValue DefaultsKey.timestampTtl.name (cstr "60"),
    .skip, .header (cstr "rules"), .keyValue RuleKey.logSession.name (cstr "true"),
    .keyValue RuleKey.user.name (cstr "\"al\""), .keyValue RuleKey.commands.name sampleArray],
    [(.timestampTtl, cstr "60")], [],
    [[(.logSession, cstr "true"), (.user, cstr "\"al\""), (.commands, sampleArray)]],
    ?_, rfl, ?_, ?_⟩
  · rw [htext]
    refine .cons (.comment (by decide) (by decide)) (Or.inr rfl) ?_
    refine .cons (.header (Or.inl rfl) (by decide) (htrail _ (by decide))) (Or.inl rfl) ?_
    refine .cons (.keyValue (by decide) (by decide) (by decide) (by decide) hint
      (htrail _ (by decide))) (Or.inl rfl) ?_
    refine .cons (.blank (by decide)) (Or.inl rfl) ?_
    refine .cons (.header (Or.inr rfl) (by decide) (.blank (by decide))) (Or.inl rfl) ?_
    refine .cons (.keyValue (by decide) (by decide) (by decide) (by decide) hbool
      (.blank (by decide))) (Or.inl rfl) ?_
    refine .cons (.keyValue (by decide) (by decide) (by decide) (by decide) hstring
      (.blank (by decide))) (Or.inl rfl) ?_
    exact .last (.keyValue (by decide) (by decide) (by decide) (by decide)
      sampleArray_text (htrail _ (by decide)))
  · constructor
    · decide
    · intro k text hmem
      cases List.mem_singleton.mp hmem
      exact ⟨_, rfl, hint⟩
    · intro k
      cases k <;> first | exact Or.inr rfl | exact Or.inl (by decide)
  · refine .cons ?_ .nil
    constructor
    · decide
    · intro k text hmem
      simp only [List.mem_cons, Prod.mk.injEq, List.not_mem_nil, or_false] at hmem
      rcases hmem with ⟨rfl, rfl⟩ | ⟨rfl, rfl⟩ | ⟨rfl, rfl⟩
      · exact ⟨_, rfl, hbool⟩
      · exact ⟨_, rfl, hstring⟩
      · exact ⟨_, rfl, sampleArray_text⟩
    · intro k
      cases k <;> first | exact Or.inr rfl | exact Or.inl (by decide)

/-- The sample is read back. -/
theorem parsePolicy_renders_sample : parsePolicy sampleText = samplePolicy :=
  parsePolicy_renders sampleText_renders

end Shakti
