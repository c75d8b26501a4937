import Mathlib.Data.List.Forall2
import Shakti.Policy.Parse

/-!
# Shakti.Policy.Render

The documented policy format, as a relation between policies and texts.

Parsing forgets layout, so a policy has many texts. `Renders policy text` says that
`text` is one of them: its lines (`Lines`) are blank lines, comments, section headers
and `key = value` lines in any indentation, the values as `ValueText` writes them, and
the sections spell the fields of the policy (`Spells`), each on one line, in any order. A
field that has its initial value may be left out.
-/

namespace Shakti

/-! ### Layout -/

/-- Spaces and tabs. -/
def Blanks (ws : Bytes) : Prop := ∀ c ∈ ws, isBlank c = true

/-- Spaces, tabs and line ends, as they may stand in an array. -/
def Spaces (ws : Bytes) : Prop := ∀ c ∈ ws, isTrimmed c = true

instance (ws : Bytes) : Decidable (Blanks ws) := List.decidableBAll _ ws

instance (ws : Bytes) : Decidable (Spaces ws) := List.decidableBAll _ ws

/-- LF or CRLF. -/
def Eol (e : Bytes) : Prop := e = [10] ∨ e = [13, 10]

/-- What may follow a header or a value on its line: blanks, and a comment that a blank
precedes. -/
inductive Trail : Bytes → Prop
  | blank {ws : Bytes} : Blanks ws → Trail ws
  | comment {ws c : Bytes} : Blanks ws → ws ≠ [] → 10 ∉ c → Trail (ws ++ 35 :: c)

/-! ### Values -/

/-- What a field holds. -/
inductive Value
  | string (s : CStr)
  | int (n : Nat)
  | bool (b : Bool)
  | list (entries : List CStr)

/-- A string that may stand between double quotes. -/
def Quotable (s : CStr) : Prop := ∀ c ∈ s.bytes, c ≠ 34 ∧ c ≠ 10 ∧ c ≠ 13

instance (s : CStr) : Decidable (Quotable s) := List.decidableBAll _ s.bytes

/-- A string in double quotes. -/
def quoted (s : CStr) : Bytes := 34 :: (s.bytes ++ [34])

/-- Digits that denote `n`. -/
def Decimal (n : Nat) (ds : Bytes) : Prop :=
  ds ≠ [] ∧ (∀ c ∈ ds, 48 ≤ c ∧ c ≤ 57) ∧
    ds.foldl (fun v c => v * 10 + (c.toNat - 48)) 0 = n

instance (n : Nat) (ds : Bytes) : Decidable (Decimal n ds) :=
  have : Decidable (∀ c ∈ ds, 48 ≤ c ∧ c ≤ 57) := List.decidableBAll _ ds
  inferInstanceAs (Decidable (_ ∧ _ ∧ _))

/-- The inside of an array, from where an entry may start: entries in double quotes,
separated by commas, with spaces anywhere between, and possibly a comma after the last. -/
inductive ArrayText : List CStr → Bytes → Prop
  | nil {ws : Bytes} : Spaces ws → ArrayText [] ws
  | last {ws₁ ws₂ : Bytes} {entry : CStr} : Spaces ws₁ → Quotable entry → Spaces ws₂ →
      ArrayText [entry] (ws₁ ++ (quoted entry ++ ws₂))
  | cons {ws₁ ws₂ body : Bytes} {entry : CStr} {entries : List CStr} : Spaces ws₁ →
      Quotable entry → Spaces ws₂ → ArrayText entries body →
      ArrayText (entry :: entries) (ws₁ ++ (quoted entry ++ (ws₂ ++ 44 :: body)))

/-- A value as it is written. -/
inductive ValueText : Value → CStr → Prop
  | string {s text : CStr} : Quotable s → text.bytes = quoted s → ValueText (.string s) text
  | int {n : Nat} {text : CStr} : n ≤ 4294967295 → Decimal n text.bytes →
      ValueText (.int n) text
  | bool (b : Bool) : ValueText (.bool b) (if b then cstr "true" else cstr "false")
  | list {entries : List CStr} {body : Bytes} {text : CStr} : ArrayText entries body →
      text.bytes = 91 :: (body ++ [93]) → ValueText (.list entries) text

/-! ### Lines -/

/-- A bare key: lower-case letters and underscores. -/
def BareKey (key : CStr) : Prop :=
  key.bytes ≠ [] ∧ ∀ c ∈ key.bytes, (97 ≤ c ∧ c ≤ 122) ∨ c = 95

instance (key : CStr) : Decidable (BareKey key) :=
  have : Decidable (∀ c ∈ key.bytes, (97 ≤ c ∧ c ≤ 122) ∨ c = 95) :=
    List.decidableBAll _ key.bytes
  inferInstanceAs (Decidable (_ ∧ _))

/-- A section header: rules are an array of tables. -/
def headerText (name : CStr) : Bytes :=
  if name = cstr "rules" then 91 :: 91 :: (name.bytes ++ [93, 93])
  else 91 :: (name.bytes ++ [93])

/-- A line without its end, and the item it stands for. The line of an array value may
run over several lines of the file. -/
inductive LineText : Bytes → Item → Prop
  | blank {ws : Bytes} : Blanks ws → LineText ws .skip
  | comment {ws c : Bytes} : Blanks ws → 10 ∉ c → LineText (ws ++ 35 :: c) .skip
  | header {ws t : Bytes} {name : CStr} : (name = cstr "defaults" ∨ name = cstr "rules") →
      Blanks ws → Trail t → LineText (ws ++ (headerText name ++ t)) (.header name)
  | keyValue {ws ws₁ ws₂ t : Bytes} {key text : CStr} {v : Value} : Blanks ws → BareKey key →
      Blanks ws₁ → Blanks ws₂ → ValueText v text → Trail t →
      LineText (ws ++ (key.bytes ++ (ws₁ ++ 61 :: (ws₂ ++ (text.bytes ++ t)))))
        (.keyValue key text)

/-- A text as lines. The last one may lack its end. -/
inductive Lines : Bytes → List Item → Prop
  | nil : Lines [] []
  | last {line : Bytes} {item : Item} : LineText line item → Lines line [item]
  | cons {line e text : Bytes} {item : Item} {items : List Item} : LineText line item →
      Eol e → Lines text items → Lines (line ++ (e ++ text)) (item :: items)

/-! ### Sections -/

/-- The keys of `[defaults]`. -/
inductive DefaultsKey
  | timestampTtl | requireAuth | auditLog | envKeep | maxCommandLen | includeDir | logSession
  | sessionLogDir | logInput | nssGroups
  deriving DecidableEq

/-- The keys of `[[rules]]`. -/
inductive RuleKey
  | user | group | runAs | commands | denyCommands | requireAuth | description | capabilities
  | logSession | selinuxContext | apparmorProfile | logInput
  deriving DecidableEq

/-- A key as it is written. -/
def DefaultsKey.name : DefaultsKey → CStr
  | .timestampTtl => cstr "timestamp_ttl"
  | .requireAuth => cstr "require_auth"
  | .auditLog => cstr "audit_log"
  | .envKeep => cstr "env_keep"
  | .maxCommandLen => cstr "max_command_len"
  | .includeDir => cstr "include_dir"
  | .logSession => cstr "log_session"
  | .sessionLogDir => cstr "session_log_dir"
  | .logInput => cstr "log_input"
  | .nssGroups => cstr "nss_groups"

/-- A key as it is written. -/
def RuleKey.name : RuleKey → CStr
  | .user => cstr "user"
  | .group => cstr "group"
  | .runAs => cstr "run_as"
  | .commands => cstr "commands"
  | .denyCommands => cstr "deny_commands"
  | .requireAuth => cstr "require_auth"
  | .description => cstr "description"
  | .capabilities => cstr "capabilities"
  | .logSession => cstr "log_session"
  | .selinuxContext => cstr "selinux_context"
  | .apparmorProfile => cstr "apparmor_profile"
  | .logInput => cstr "log_input"

/-- What the defaults hold under a key; nothing where there is no way to write it. -/
def Defaults.value (d : Defaults) : DefaultsKey → Option Value
  | .timestampTtl => some (.int d.timestampTtl)
  | .requireAuth => some (.bool d.requireAuth)
  | .auditLog => some (.bool d.auditLog)
  | .envKeep => some (.list d.envKeep)
  | .maxCommandLen => some (.int d.maxCommandLen)
  | .includeDir => d.includeDir.map .string
  | .logSession => some (.bool d.logSession)
  | .sessionLogDir => some (.string d.sessionLogDir)
  | .logInput => some (.bool d.logInput)
  | .nssGroups => some (.bool d.nssGroups)

/-- What a rule holds under a key; nothing where there is no way to write it. -/
def Rule.value (r : Rule) : RuleKey → Option Value
  | .user => r.user.map .string
  | .group => r.group.map .string
  | .runAs => some (.string r.runAs)
  | .commands => some (.list r.commands)
  | .denyCommands => some (.list r.denyCommands)
  | .requireAuth => some (.bool r.requireAuth)
  | .description => some (.string r.description)
  | .capabilities => some (.list r.capabilities)
  | .logSession => r.logSession.map .bool
  | .selinuxContext => some (.string r.selinuxContext)
  | .apparmorProfile => some (.string r.apparmorProfile)
  | .logInput => r.logInput.map .bool

/-- The pairs write down the values of a section: no key twice, in any order, and every
key whose value is not that of the initial record `base`. -/
structure Spells {κ : Type} (base value : κ → Option Value) (pairs : List (κ × CStr)) :
    Prop where
  once : (pairs.map Prod.fst).Nodup
  written : ∀ k text, (k, text) ∈ pairs → ∃ v, value k = some v ∧ ValueText v text
  complete : ∀ k, k ∈ pairs.map Prod.fst ∨ value k = base k

/-- The pairs of a section as items. -/
def pairItems {κ : Type} (keyName : κ → CStr) (pairs : List (κ × CStr)) : List Item :=
  pairs.map (fun kv => .keyValue (keyName kv.1) kv.2)

@[simp] theorem pairItems_cons {κ : Type} (keyName : κ → CStr) (kv : κ × CStr)
    (pairs : List (κ × CStr)) :
    pairItems keyName (kv :: pairs) = .keyValue (keyName kv.1) kv.2 :: pairItems keyName pairs :=
  rfl

/-- A section as items: its header and its pairs. -/
def sectionItems {κ : Type} (name : CStr) (keyName : κ → CStr) (pairs : List (κ × CStr)) :
    List Item :=
  .header name :: pairItems keyName pairs

/-- The rules' sections, one after the other. -/
def ruleItems (sections : List (List (RuleKey × CStr))) : List Item :=
  sections.flatMap (sectionItems (cstr "rules") RuleKey.name)

/-- The items without those that say nothing. -/
def significant (items : List Item) : List Item := items.filter (· ≠ .skip)

@[simp] theorem significant_cons_skip (items : List Item) :
    significant (.skip :: items) = significant items := rfl

@[simp] theorem significant_cons_header (name : CStr) (items : List Item) :
    significant (.header name :: items) = .header name :: significant items := rfl

@[simp] theorem significant_cons_keyValue (key value : CStr) (items : List Item) :
    significant (.keyValue key value :: items) = .keyValue key value :: significant items := rfl

/-- **The documented format.** The text renders the policy: its lines are a `[defaults]`
section and a `[[rules]]` section for each rule, in order, with blank lines and comments
anywhere between. -/
def Renders (policy : Policy) (text : Bytes) : Prop :=
  ∃ items defaultsPairs before after, Lines text items ∧
    significant items = ruleItems before ++
      (sectionItems (cstr "defaults") DefaultsKey.name defaultsPairs ++ ruleItems after) ∧
    Spells defaultsNew.value policy.defaults.value defaultsPairs ∧
    List.Forall₂ (fun r pairs => Spells ruleNew.value r.value pairs) policy.rules
      (before ++ after)

end Shakti
