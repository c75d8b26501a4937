import Shakti.CStr
import Mathlib.Data.List.TakeWhile

/-!
# Shakti.Policy.Parse

The policy data model and the mini-TOML parser (`policy.cyr`).

`parse_policy` moves a position through a buffer. Here the position is the suffix
still to be read, so a scan that only looks ahead is a `takeWhile` and the resume
position after it is what that scan left over. One turn of the main loop reads one
`Item` (`readItem`) and applies it to the policy built so far (`applyItem`).

The tri-state logging flags of a rule (`-1` inherit, `0` off, `1` on) are
`Option Bool`, its other flags `Bool`: the setters store nothing else.
-/

namespace Shakti

/-! ### The data model -/

/-- `Defaults`. -/
@[ext] structure Defaults where
  timestampTtl : Nat
  requireAuth : Bool
  auditLog : Bool
  envKeep : List CStr
  maxCommandLen : Nat
  includeDir : Option CStr
  logSession : Bool
  sessionLogDir : CStr
  logInput : Bool
  nssGroups : Bool
  deriving DecidableEq

/-- `defaults_new`. -/
def defaultsNew : Defaults where
  timestampTtl := 300
  requireAuth := true
  auditLog := true
  envKeep := []
  maxCommandLen := 4096
  includeDir := none
  logSession := false
  sessionLogDir := cstr "/var/log/agnos/sessions"
  logInput := false
  nssGroups := false

/-- `Rule`. -/
@[ext] structure Rule where
  user : Option CStr
  group : Option CStr
  runAs : CStr
  commands : List CStr
  denyCommands : List CStr
  requireAuth : Bool
  description : CStr
  capabilities : List CStr
  logSession : Option Bool
  selinuxContext : CStr
  apparmorProfile : CStr
  logInput : Option Bool
  deriving DecidableEq

/-- `rule_new`. -/
def ruleNew : Rule where
  user := none
  group := none
  runAs := cstr "root"
  commands := []
  denyCommands := []
  requireAuth := true
  description := cstr ""
  capabilities := []
  logSession := none
  selinuxContext := cstr ""
  apparmorProfile := cstr ""
  logInput := none

/-- `Policy`. -/
structure Policy where
  defaults : Defaults
  rules : List Rule
  deriving DecidableEq

/-! ### Values -/

/-- Space or tab. -/
def isBlank (c : UInt8) : Bool := c == 32 || c == 9

/-- The bytes `_shk_copy_trim` strips: space, tab, CR, LF. -/
def isTrimmed (c : UInt8) : Bool := c == 32 || c == 9 || c == 13 || c == 10

/-- `_shk_copy_trim` on a slice of the buffer. -/
def shkCopyTrim (slice : Bytes) : CStr :=
  CStr.read (((slice.dropWhile isTrimmed).reverse.dropWhile isTrimmed).reverse)

/-- `_shk_unquote`. -/
def shkUnquote (s : CStr) : CStr :=
  if s.length < 2 then s
  else if s.load8 0 = 34 ∧ s.load8 (s.length - 1) = 34 then
    CStr.read ((s.bytes.drop 1).take (s.length - 2))
  else if s.load8 0 = 39 ∧ s.load8 (s.length - 1) = 39 then
    CStr.read ((s.bytes.drop 1).take (s.length - 2))
  else s

/-- The loop of `_shk_parse_int`; `none` is the source's `-1`. -/
def shkParseIntLoop : Bytes → Nat → Option Nat
  | [], v => some v
  | c :: cs, v =>
      if c < 48 then none
      else if 57 < c then none
      else
        let digit := c.toNat - 48
        if (4294967295 - digit) / 10 < v then none
        else shkParseIntLoop cs (v * 10 + digit)

/-- `_shk_parse_int`. -/
def shkParseInt (s : CStr) : Option Nat :=
  if s.length = 0 then none else shkParseIntLoop s.bytes 0

/-- `_shk_parse_bool`; `none` is the source's `-1`. -/
def shkParseBool (s : CStr) : Option Bool :=
  if s = cstr "true" then some true
  else if s = cstr "True" then some true
  else if s = cstr "false" then some false
  else if s = cstr "False" then some false
  else none

/-! ### String arrays -/

/-- Skip one comma and the whitespace before it. -/
def skipComma : Bytes → Bytes
  | [] => []
  | c :: cs => if c = 44 then cs else if isTrimmed c then skipComma cs else c :: cs

/-- One turn of the item loop of `_shk_parse_str_array`, on the part of the body
still to be read: the entry it found, if any, and what is left. -/
def arrayTurn (body : Bytes) : Option CStr × Bytes :=
  match body.dropWhile isTrimmed with
  | [] => (none, [])
  | qchar :: rest =>
      if qchar = 34 ∨ qchar = 39 then
        (some (CStr.read (rest.takeWhile (· != qchar))),
          skipComma ((rest.dropWhile (· != qchar)).drop 1))
      else
        let left := skipComma (qchar :: rest)
        -- Nothing recognised and nothing skipped: step over one byte.
        (none, if left.length = body.length then left.drop 1 else left)

/-- The item loop of `_shk_parse_str_array`; every turn reads at least one byte of
the body, so its length bounds the number of turns. -/
def arrayItems : Nat → Bytes → List CStr
  | 0, _ => []
  | fuel + 1, body =>
      if body = [] then []
      else (arrayTurn body).1.toList ++ arrayItems fuel (arrayTurn body).2

/-- The item list between the opening bracket and the last `]`; empty without one. -/
def arrayBody (afterBracket : Bytes) : Bytes :=
  ((afterBracket.reverse.dropWhile (· != 93)).drop 1).reverse

/-- `_shk_parse_str_array`. -/
def shkParseStrArray (s : CStr) : List CStr :=
  match s.bytes with
  | c :: rest =>
      if s.length < 2 then []
      else if c ≠ 91 then []
      else arrayItems (arrayBody rest).length (arrayBody rest)
  | [] => []

/-! ### Setters -/

/-- `_shk_def_set`. A value that does not parse leaves its field alone. -/
def shkDefSet (d : Defaults) (key rawVal : CStr) : Defaults :=
  if key = cstr "timestamp_ttl" then
    { d with timestampTtl := (shkParseInt rawVal).getD d.timestampTtl }
  else if key = cstr "require_auth" then
    { d with requireAuth := (shkParseBool rawVal).getD d.requireAuth }
  else if key = cstr "audit_log" then
    { d with auditLog := (shkParseBool rawVal).getD d.auditLog }
  else if key = cstr "env_keep" then { d with envKeep := shkParseStrArray rawVal }
  else if key = cstr "max_command_len" then
    { d with maxCommandLen := (shkParseInt rawVal).getD d.maxCommandLen }
  else if key = cstr "include_dir" then { d with includeDir := some (shkUnquote rawVal) }
  else if key = cstr "log_session" then
    { d with logSession := (shkParseBool rawVal).getD d.logSession }
  else if key = cstr "session_log_dir" then { d with sessionLogDir := shkUnquote rawVal }
  else if key = cstr "log_input" then
    { d with logInput := (shkParseBool rawVal).getD d.logInput }
  else if key = cstr "nss_groups" then
    { d with nssGroups := (shkParseBool rawVal).getD d.nssGroups }
  else d

/-- `_shk_rule_set`. -/
def shkRuleSet (r : Rule) (key rawVal : CStr) : Rule :=
  if key = cstr "user" then { r with user := some (shkUnquote rawVal) }
  else if key = cstr "group" then { r with group := some (shkUnquote rawVal) }
  else if key = cstr "run_as" then { r with runAs := shkUnquote rawVal }
  else if key = cstr "commands" then { r with commands := shkParseStrArray rawVal }
  else if key = cstr "deny_commands" then { r with denyCommands := shkParseStrArray rawVal }
  else if key = cstr "require_auth" then
    { r with requireAuth := (shkParseBool rawVal).getD r.requireAuth }
  else if key = cstr "description" then { r with description := shkUnquote rawVal }
  else if key = cstr "capabilities" then { r with capabilities := shkParseStrArray rawVal }
  else if key = cstr "log_session" then
    { r with logSession := (shkParseBool rawVal).orElse (fun _ => r.logSession) }
  else if key = cstr "selinux_context" then { r with selinuxContext := shkUnquote rawVal }
  else if key = cstr "apparmor_profile" then { r with apparmorProfile := shkUnquote rawVal }
  else if key = cstr "log_input" then
    { r with logInput := (shkParseBool rawVal).orElse (fun _ => r.logInput) }
  else r

/-! ### One turn of the main loop -/

/-- What one turn of `parse_policy` recognises. -/
inductive Item
  /-- A comment, a blank line, or a line without `=`. -/
  | skip
  /-- `[name]` or `[[name]]`. -/
  | header (name : CStr)
  | keyValue (key value : CStr)
  deriving DecidableEq

/-- The line that starts here, without its LF. -/
def lineOf (buf : Bytes) : Bytes := buf.takeWhile (· != 10)

/-- What follows the line that starts here and its LF. -/
def afterLine (buf : Bytes) : Bytes := (buf.dropWhile (· != 10)).drop 1

/-- The bracket scan of an array value: the bytes up to the bracket that brings
`depth` to zero, and what follows it. Only `"` quotes. -/
def arrayScan : Nat → Bool → Bytes → Bytes × Bytes
  | 0, _, buf => ([], buf)
  | _ + 1, _, [] => ([], [])
  | depth + 1, inQ, ch :: buf =>
      let next :=
        if inQ then arrayScan (depth + 1) (ch != 34) buf
        else if ch = 34 then arrayScan (depth + 1) true buf
        else if ch = 91 then arrayScan (depth + 2) false buf
        else if ch = 93 then arrayScan depth false buf
        else arrayScan (depth + 1) false buf
      (ch :: next.1, next.2)

/-- The value part of a scalar line: everything before a `#` outside `"` quotes. -/
def scalarScan : Bool → Bytes → Bytes
  | _, [] => []
  | inStr, c :: line =>
      if c = 34 then c :: scalarScan (!inStr) line
      else if c = 35 ∧ !inStr then []
      else c :: scalarScan inStr line

/-- A section header; `buf` starts at its first bracket. -/
def readHeader (buf : Bytes) : Item × Bytes :=
  let line := lineOf buf
  let name := if line.getD 1 0 = 91 then line.drop 2 else line.drop 1
  (.header (shkCopyTrim (name.takeWhile (· != 93))), afterLine buf)

/-- A `key = value` line; `buf` starts at the key. An array value may run over
the following lines, and the byte after its closing bracket is skipped. -/
def readKeyValue (buf : Bytes) : Item × Bytes :=
  let line := lineOf buf
  if line.contains 61 then
    let key := shkCopyTrim (line.takeWhile (· != 61))
    let afterEq := (buf.dropWhile (· != 61)).drop 1
    let lead := afterEq.takeWhile isBlank
    match afterEq.dropWhile isBlank with
    | 91 :: body =>
        let scan := arrayScan 1 false body
        (.keyValue key (shkCopyTrim (lead ++ 91 :: scan.1)), scan.2.drop 1)
    | _ => (.keyValue key (shkCopyTrim (scalarScan false (lineOf afterEq))), afterLine buf)
  else (.skip, afterLine buf)

/-- One turn of the main loop past the leading blanks: what it recognises, and
where the next turn starts. -/
def readItem (buf : Bytes) : Item × Bytes :=
  match buf with
  | [] => (.skip, [])
  | first :: _ =>
      if first = 35 ∨ first = 10 ∨ first = 13 then (.skip, afterLine buf)
      else if first = 91 then readHeader buf
      else readKeyValue buf

/-! ### The parser -/

/-- The section the parser is in. In a rule section it carries the rule being
filled, which the source keeps as the last element of the rule list. -/
inductive Section
  | none
  | defaults
  | rule (cur : Rule)
  deriving DecidableEq

/-- The rule a section is filling, if any. -/
def Section.rules : Section → List Rule
  | .rule cur => [cur]
  | _ => []

/-- The policy built so far: the defaults, the finished rules, and the section. -/
structure ParseState where
  defaults : Defaults
  done : List Rule
  sec : Section
  deriving DecidableEq

/-- The state `parse_policy` starts in. -/
def parseInitial : ParseState := ⟨defaultsNew, [], .none⟩

/-- The policy a state stands for. -/
def ParseState.policy (st : ParseState) : Policy := ⟨st.defaults, st.done ++ st.sec.rules⟩

/-- Apply what one turn recognised. -/
def applyItem (st : ParseState) : Item → ParseState
  | .skip => st
  | .header name =>
      let done := st.done ++ st.sec.rules
      if name = cstr "defaults" then ⟨st.defaults, done, .defaults⟩
      else if name = cstr "rules" then ⟨st.defaults, done, .rule ruleNew⟩
      else ⟨st.defaults, done, .none⟩
  | .keyValue key value =>
      match st.sec with
      | .none => st
      | .defaults => { st with defaults := shkDefSet st.defaults key value }
      | .rule cur => { st with sec := .rule (shkRuleSet cur key value) }

/-- The items the main loop recognises; every turn reads at least one byte, so the
length of the buffer bounds the number of turns. -/
def policyItemsLoop : Nat → Bytes → List Item
  | 0, _ => []
  | fuel + 1, buf =>
      let buf := buf.dropWhile isBlank
      if buf = [] then [] else (readItem buf).1 :: policyItemsLoop fuel (readItem buf).2

/-- The items `parse_policy` recognises in a buffer. -/
def policyItems (buf : Bytes) : List Item := policyItemsLoop buf.length buf

/-- `parse_policy`. -/
def parsePolicy (buf : Bytes) : Policy := ((policyItems buf).foldl applyItem parseInitial).policy

end Shakti
