import Shakti.Lib.Memory
import Shakti.Policy.Parse

/-!
# Shakti.Policy.Checked

The policy parser by positions, as `policy.cyr` writes it, with every memory access
checked.

`Shakti.Policy.Parse` says what each function computes. Here the same functions move
positions through a buffer or a string with the loops of the source: a read must lie
below the stop of its region, a write in the block it was allocated for, and every loop
gets `fuel` turns. `none` is an access out of bounds or a loop that does not end, so
`some` says that the source's run ends and stays in bounds.

* A buffer may be read below `buflen`, a string up to and including its terminating NUL.
* A string a helper returns is read back from the block it wrote (`cstrAt`).
* A record of the source is a block of eight-byte fields; a write to a field is checked
  against the size the record was allocated with.
-/

namespace Shakti
namespace Checked

open Memory

/-! ### Memory -/

/-- The read buffer of `parse_policy`. -/
def buffer (buf : Bytes) (buflen i : Nat) : Option UInt8 :=
  if i < buflen then buf[i]? else none

/-- A string: its bytes and its terminator. -/
def chars (s : CStr) (i : Nat) : Option UInt8 := (s.bytes ++ [0])[i]?

/-- The bytes of a block up to its first NUL; `none` when no NUL was written. -/
def textOf : Block UInt8 → Option Bytes
  | some c :: b => if c = 0 then some [] else (textOf b).map (c :: ·)
  | _ => none

/-- The string a block holds. -/
def cstrAt (b : Block UInt8) : Option CStr := (textOf b).map CStr.read

/-- `strlen`. -/
def strlen (fuel : Nat) (s : CStr) : Option Nat :=
  run (fun i => do if (← chars s i) = 0 then return .done i else return .next (i + 1)) fuel 0

/-- One turn of `streq`. -/
def streqTurn (a b : CStr) (i : Nat) : Option (Turn Nat Bool) := do
  let ca ← chars a i
  let cb ← chars b i
  if ca ≠ cb then return .done false
  else if ca = 0 then return .done true
  else return .next (i + 1)

/-- `streq`. -/
def streq (fuel : Nat) (a b : CStr) : Option Bool := run (streqTurn a b) fuel 0

/-- `store64(p + off, _)`, `p` being a record of `size` bytes: the record after it. -/
def store64 {α : Type} (size off : Nat) (record : α) : Option α :=
  if off + 8 ≤ size then some record else none

/-- A `store64` of a parsed value, left out when the value did not parse. -/
def storeParsed {α β : Type} (size off : Nat) (record : β) (set : α → β) :
    Option α → Option β
  | some v => store64 size off (set v)
  | none => some record

/-! ### Values -/

/-- `_shk_copy_trim`. -/
def shkCopyTrim (fuel : Nat) (load : Nat → Option UInt8) (start len : Nat) : Option CStr := do
  let s ← scan load isTrimmed (start + len) fuel start
  let e ← scanBack load isTrimmed s fuel (start + len)
  let n := e - s
  let out ← copy load s n (alloc (n + 1))
  cstrAt (← store out n 0)

/-- `_shk_unquote`. -/
def shkUnquote (fuel : Nat) (s : CStr) : Option CStr := do
  let n ← strlen fuel s
  if n < 2 then return s
  let first ← chars s 0
  let last ← chars s (n - 1)
  if first = 34 ∧ last = 34 then
    let out ← copy (chars s) 1 (n - 2) (alloc (n - 1))
    cstrAt (← store out (n - 2) 0)
  else if first = 39 ∧ last = 39 then
    let out ← copy (chars s) 1 (n - 2) (alloc (n - 1))
    cstrAt (← store out (n - 2) 0)
  else return s

/-- One turn of `_shk_parse_int`, at position `i` with the value `v` so far. -/
def shkParseIntTurn (s : CStr) (n : Nat) : Nat × Nat → Option (Turn (Nat × Nat) (Option Nat))
  | (i, v) =>
      if i < n then do
        let c ← chars s i
        if c < 48 then return .done none
        else if 57 < c then return .done none
        else
          let digit := c.toNat - 48
          if (4294967295 - digit) / 10 < v then return .done none
          else return .next (i + 1, v * 10 + digit)
      else return .done (some v)

/-- `_shk_parse_int`; the inner `none` is the source's `-1`. -/
def shkParseInt (fuel : Nat) (s : CStr) : Option (Option Nat) := do
  let n ← strlen fuel s
  if n = 0 then return none
  run (shkParseIntTurn s n) fuel (0, 0)

/-- `_shk_parse_bool`; the inner `none` is the source's `-1`. -/
def shkParseBool (fuel : Nat) (s : CStr) : Option (Option Bool) := do
  if ← streq fuel s (cstr "true") then return some true
  else if ← streq fuel s (cstr "True") then return some true
  else if ← streq fuel s (cstr "false") then return some false
  else if ← streq fuel s (cstr "False") then return some false
  else return none

/-! ### String arrays -/

/-- One turn of the search for the last `]`. -/
def closeTurn (load : Nat → Option UInt8) (start stop : Nat) : Option (Turn Nat Nat) :=
  if start < stop then do
    if (← load (stop - 1)) = 93 then return .done (stop - 1) else return .next (stop - 1)
  else return .done stop

/-- One turn of the skip over a comma and the whitespace before it. -/
def skipCommaTurn (load : Nat → Option UInt8) (stop pos : Nat) : Option (Turn Nat Nat) :=
  if pos < stop then do
    let c ← load pos
    if c = 44 then return .done (pos + 1)
    else if isTrimmed c then return .next (pos + 1)
    else return .done pos
  else return .done pos

/-- The quoted item whose text starts at `istart`, and the position after its closing
quote. -/
def quotedItem (fuel : Nat) (load : Nat → Option UInt8) (stop : Nat) (qchar : UInt8)
    (istart : Nat) : Option (CStr × Nat) := do
  let pos ← scan load (· != qchar) stop fuel istart
  let ilen := pos - istart
  let item ← copy load istart ilen (alloc (ilen + 1))
  let item ← cstrAt (← store item ilen 0)
  return (item, if pos < stop then pos + 1 else pos)

/-- One turn of the item loop, at position `pos` with the items `v` so far. -/
def arrayTurn (fuel : Nat) (load : Nat → Option UInt8) (stop : Nat) :
    Nat × List CStr → Option (Turn (Nat × List CStr) (List CStr))
  | (loopStart, v) =>
      if loopStart < stop then do
        let pos ← scan load isTrimmed stop fuel loopStart
        if stop ≤ pos then return .done v
        let qchar ← load pos
        let (pos, v) ←
          if qchar = 34 ∨ qchar = 39 then do
            let (item, pos) ← quotedItem fuel load stop qchar (pos + 1)
            pure (pos, v ++ [item])
          else pure (pos, v)
        let pos ← run (skipCommaTurn load stop) fuel pos
        return .next (if pos = loopStart then pos + 1 else pos, v)
      else return .done v

/-- `_shk_parse_str_array`. -/
def shkParseStrArray (fuel : Nat) (s : CStr) : Option (List CStr) := do
  let n ← strlen fuel s
  if n < 2 then return []
  if (← chars s 0) ≠ 91 then return []
  let stop ← run (closeTurn (chars s) 1) fuel n
  run (arrayTurn fuel (chars s) stop) fuel (1, [])

/-! ### Setters -/

/-- `DefOff`, less the size. -/
inductive DefOff
  | ttl | requireAuth | auditLog | envKeep | maxCmdLen | includeDir | logSession
  | sessionLogDir | logInput | nssGroups

/-- `DEF_SZ`. -/
def DefOff.size : Nat := 80

/-- The offset of a field of the defaults. -/
def DefOff.offset : DefOff → Nat
  | ttl => 0
  | requireAuth => 8
  | auditLog => 16
  | envKeep => 24
  | maxCmdLen => 32
  | includeDir => 40
  | logSession => 48
  | sessionLogDir => 56
  | logInput => 64
  | nssGroups => 72

/-- A write to a field of the defaults. -/
def DefOff.store (o : DefOff) (d : Defaults) : Option Defaults := store64 size o.offset d

/-- A write of a parsed value to a field of the defaults. -/
def DefOff.storeParsed {α : Type} (o : DefOff) (d : Defaults) (set : α → Defaults) :
    Option α → Option Defaults :=
  Checked.storeParsed size o.offset d set

/-- `_shk_def_set`. -/
def shkDefSet (fuel : Nat) (d : Defaults) (key rawVal : CStr) : Option Defaults := do
  if ← streq fuel key (cstr "timestamp_ttl") then
    DefOff.ttl.storeParsed d ({ d with timestampTtl := · }) (← shkParseInt fuel rawVal)
  else if ← streq fuel key (cstr "require_auth") then
    DefOff.requireAuth.storeParsed d ({ d with requireAuth := · }) (← shkParseBool fuel rawVal)
  else if ← streq fuel key (cstr "audit_log") then
    DefOff.auditLog.storeParsed d ({ d with auditLog := · }) (← shkParseBool fuel rawVal)
  else if ← streq fuel key (cstr "env_keep") then
    DefOff.envKeep.store { d with envKeep := ← shkParseStrArray fuel rawVal }
  else if ← streq fuel key (cstr "max_command_len") then
    DefOff.maxCmdLen.storeParsed d ({ d with maxCommandLen := · }) (← shkParseInt fuel rawVal)
  else if ← streq fuel key (cstr "include_dir") then
    DefOff.includeDir.store { d with includeDir := some (← shkUnquote fuel rawVal) }
  else if ← streq fuel key (cstr "log_session") then
    DefOff.logSession.storeParsed d ({ d with logSession := · }) (← shkParseBool fuel rawVal)
  else if ← streq fuel key (cstr "session_log_dir") then
    DefOff.sessionLogDir.store { d with sessionLogDir := ← shkUnquote fuel rawVal }
  else if ← streq fuel key (cstr "log_input") then
    DefOff.logInput.storeParsed d ({ d with logInput := · }) (← shkParseBool fuel rawVal)
  else if ← streq fuel key (cstr "nss_groups") then
    DefOff.nssGroups.storeParsed d ({ d with nssGroups := · }) (← shkParseBool fuel rawVal)
  else return d

/-- `RuleOff`, less the size. -/
inductive RuleOff
  | user | group | runAs | commands | deny | requireAuth | description | capabilities
  | logSession | selinuxContext | apparmorProfile | logInput

/-- `RU_SZ`. -/
def RuleOff.size : Nat := 96

/-- The offset of a field of a rule. -/
def RuleOff.offset : RuleOff → Nat
  | user => 0
  | group => 8
  | runAs => 16
  | commands => 24
  | deny => 32
  | requireAuth => 40
  | description => 48
  | capabilities => 56
  | logSession => 64
  | selinuxContext => 72
  | apparmorProfile => 80
  | logInput => 88

/-- A write to a field of a rule. -/
def RuleOff.store (o : RuleOff) (r : Rule) : Option Rule := store64 size o.offset r

/-- A write of a parsed value to a field of a rule. -/
def RuleOff.storeParsed {α : Type} (o : RuleOff) (r : Rule) (set : α → Rule) :
    Option α → Option Rule :=
  Checked.storeParsed size o.offset r set

/-- `_shk_rule_set`. -/
def shkRuleSet (fuel : Nat) (r : Rule) (key rawVal : CStr) : Option Rule := do
  if ← streq fuel key (cstr "user") then
    RuleOff.user.store { r with user := some (← shkUnquote fuel rawVal) }
  else if ← streq fuel key (cstr "group") then
    RuleOff.group.store { r with group := some (← shkUnquote fuel rawVal) }
  else if ← streq fuel key (cstr "run_as") then
    RuleOff.runAs.store { r with runAs := ← shkUnquote fuel rawVal }
  else if ← streq fuel key (cstr "commands") then
    RuleOff.commands.store { r with commands := ← shkParseStrArray fuel rawVal }
  else if ← streq fuel key (cstr "deny_commands") then
    RuleOff.deny.store { r with denyCommands := ← shkParseStrArray fuel rawVal }
  else if ← streq fuel key (cstr "require_auth") then
    RuleOff.requireAuth.storeParsed r ({ r with requireAuth := · }) (← shkParseBool fuel rawVal)
  else if ← streq fuel key (cstr "description") then
    RuleOff.description.store { r with description := ← shkUnquote fuel rawVal }
  else if ← streq fuel key (cstr "capabilities") then
    RuleOff.capabilities.store { r with capabilities := ← shkParseStrArray fuel rawVal }
  else if ← streq fuel key (cstr "log_session") then
    RuleOff.logSession.storeParsed r ({ r with logSession := some · })
      (← shkParseBool fuel rawVal)
  else if ← streq fuel key (cstr "selinux_context") then
    RuleOff.selinuxContext.store { r with selinuxContext := ← shkUnquote fuel rawVal }
  else if ← streq fuel key (cstr "apparmor_profile") then
    RuleOff.apparmorProfile.store { r with apparmorProfile := ← shkUnquote fuel rawVal }
  else if ← streq fuel key (cstr "log_input") then
    RuleOff.logInput.storeParsed r ({ r with logInput := some · }) (← shkParseBool fuel rawVal)
  else return r

/-! ### The main loop -/

/-- One turn of the skip to the end of a line and over its LF. -/
def skipLineTurn (load : Nat → Option UInt8) (buflen pos : Nat) : Option (Turn Nat Nat) :=
  if pos < buflen then do
    if (← load pos) = 10 then return .done (pos + 1) else return .next (pos + 1)
  else return .done pos

/-- Whether a `[` stands at `pos`. -/
def isBracket (load : Nat → Option UInt8) (buflen pos : Nat) : Option Bool :=
  if pos < buflen then do return (← load pos) == 91 else return false

/-- A section header at `pos`: its name, and where the next turn starts. -/
def readHeader (fuel : Nat) (load : Nat → Option UInt8) (buflen pos : Nat) :
    Option (CStr × Nat) := do
  let lend ← scan load (· != 10) buflen fuel pos
  let isArray ← isBracket load buflen (pos + 1)
  let nameStart := if isArray then pos + 2 else pos + 1
  let nameEnd ← scan load (· != 93) lend fuel nameStart
  let name ← shkCopyTrim fuel load nameStart (nameEnd - nameStart)
  return (name, if lend < buflen then lend + 1 else lend)

/-- One turn of the bracket scan, at `ap` with the bracket depth and the quote state. -/
def arrayScanTurn (load : Nat → Option UInt8) (buflen : Nat) :
    Nat × Nat × Bool → Option (Turn (Nat × Nat × Bool) Nat)
  | (ap, depth, inQ) =>
      if ap < buflen ∧ 0 < depth then do
        let ch ← load ap
        if inQ then return .next (ap + 1, depth, ch != 34)
        else if ch = 34 then return .next (ap + 1, depth, true)
        else if ch = 91 then return .next (ap + 1, depth + 1, false)
        else if ch = 93 then return .next (ap + 1, depth - 1, false)
        else return .next (ap + 1, depth, false)
      else return .done ap

/-- One turn of the comment scan, at `pos` with the quote state and the end of the
value so far. A comment moves the position past the end of the line. -/
def scalarScanTurn (load : Nat → Option UInt8) (lend : Nat) :
    Nat × Bool × Nat → Option (Turn (Nat × Bool × Nat) Nat)
  | (pos, inStr, vend) =>
      if pos < lend then do
        let c ← load pos
        if c = 34 then return .next (pos + 1, !inStr, vend)
        else if c = 35 ∧ !inStr then return .next (lend + 1, inStr, pos)
        else return .next (pos + 1, inStr, vend)
      else return .done vend

/-- A line with a `key = value` at `pos`: the pair, if it has an `=`, and where the next
turn starts. -/
def readKeyValue (fuel : Nat) (load : Nat → Option UInt8) (buflen pos : Nat) :
    Option (Option (CStr × CStr) × Nat) := do
  let lend ← scan load (· != 10) buflen fuel pos
  let eq ← scan load (· != 61) lend fuel pos
  if eq < lend then
    let key ← shkCopyTrim fuel load pos (eq - pos)
    let vstart ← scan load isBlank buflen fuel (eq + 1)
    let isArray ← isBracket load buflen vstart
    if isArray then
      let ap ← run (arrayScanTurn load buflen) fuel (vstart + 1, 1, false)
      let value ← shkCopyTrim fuel load (eq + 1) (ap - (eq + 1))
      return (some (key, value), if ap < buflen then ap + 1 else ap)
    else
      let vend ← run (scalarScanTurn load lend) fuel (eq + 1, false, lend)
      let value ← shkCopyTrim fuel load (eq + 1) (vend - (eq + 1))
      return (some (key, value), if lend < buflen then lend + 1 else lend)
  else return (none, if lend < buflen then lend + 1 else lend)

/-- Enter the section a header names. -/
def enterSection (fuel : Nat) (st : ParseState) (name : CStr) : Option ParseState := do
  let done := st.done ++ st.sec.rules
  if ← streq fuel name (cstr "defaults") then return ⟨st.defaults, done, .defaults⟩
  else if ← streq fuel name (cstr "rules") then return ⟨st.defaults, done, .rule ruleNew⟩
  else return ⟨st.defaults, done, .none⟩

/-- Hand a pair to the setter of the section. -/
def setKey (fuel : Nat) (st : ParseState) (key value : CStr) : Option ParseState :=
  match st.sec with
  | .none => return st
  | .defaults => return { st with defaults := ← shkDefSet fuel st.defaults key value }
  | .rule cur => return { st with sec := .rule (← shkRuleSet fuel cur key value) }

/-- One turn of the main loop. -/
def policyTurn (fuel : Nat) (load : Nat → Option UInt8) (buflen : Nat) :
    Nat × ParseState → Option (Turn (Nat × ParseState) ParseState)
  | (pos, st) =>
      if pos < buflen then do
        let pos ← scan load isBlank buflen fuel pos
        if buflen ≤ pos then return .done st
        let first ← load pos
        if first = 35 ∨ first = 10 ∨ first = 13 then
          let pos ← run (skipLineTurn load buflen) fuel pos
          return .next (pos, st)
        else if first = 91 then
          let (name, pos) ← readHeader fuel load buflen pos
          return .next (pos, ← enterSection fuel st name)
        else
          match ← readKeyValue fuel load buflen pos with
          | (some (key, value), pos) => return .next (pos, ← setKey fuel st key value)
          | (none, pos) => return .next (pos, st)
      else return .done st

/-- `parse_policy`. -/
def parsePolicy (fuel : Nat) (buf : Bytes) (buflen : Nat) : Option Policy := do
  let st ← run (policyTurn fuel (buffer buf buflen) buflen) fuel (0, parseInitial)
  return st.policy

end Checked
end Shakti
