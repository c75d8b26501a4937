import Shakti.Sys
import Shakti.Lib.Scan

/-!
# Shakti.Identity

User and group lookups (`identity.cyr`, and the home and shell lookups of
`api.cyr`): the `/etc/passwd` scanners, the optional libc group backend, and the
group-name and gid lists built from either group backend.

A scan over the lines of a buffer is a recursion over `Scan.segments`; the scans
of `api.cyr`, which read on past the end of a line, run over the suffixes at
which lines start (`Scan.lineSuffixes`).
-/

namespace Shakti

open Effects

/-! ### `/etc/passwd` -/

def identityBufMax : Nat := 65536

def passwdPath : CStr := cstr "/etc/passwd"

/-- The loop of `_identity_parse_uint`; `none` is the source's `-1`. -/
def identityParseUintLoop : Bytes → Nat → Option Nat
  | [], v => some v
  | c :: cs, v =>
      if c < 48 ∨ 57 < c then none
      else
        let digit := c.toNat - 48
        if (4294967295 - digit) / 10 < v then none
        else identityParseUintLoop cs (v * 10 + digit)

/-- `_identity_parse_uint`. -/
def identityParseUint (digits : Bytes) : Option Nat := identityParseUintLoop digits 0

/-- Outcomes of a passwd lookup: an I/O error (negative), not found (`0`), or
found (`1`). -/
inductive Lookup (α : Type)
  | ioError
  | notFound
  | found (a : α)
  deriving DecidableEq

/-- What stands before the first colon: a whole field. -/
def field (l : Bytes) : Bytes := l.takeWhile (· != 58)

/-- The line loop of `identity_lookup_uid`. -/
def lookupUidLines (uid : Nat) : List Bytes → Lookup (CStr × Nat)
  | [] => .notFound
  | line :: lines =>
      match Scan.cut 58 line with
      | none => lookupUidLines uid lines
      | some (name, rest1) =>
          match Scan.cut 58 rest1 with
          | none => lookupUidLines uid lines
          | some (_, rest2) =>
              match Scan.cut 58 rest2 with
              | none => lookupUidLines uid lines
              | some (uidField, rest3) =>
                  if identityParseUint uidField = some uid then
                    match identityParseUint (field rest3) with
                    | none => .notFound
                    | some gid =>
                        if name = [] then lookupUidLines uid lines
                        else .found (CStr.read name, gid)
                  else lookupUidLines uid lines

/-- `identity_lookup_uid`. -/
def identityLookupUid (uid : Nat) : Sys (Lookup (CStr × Nat)) := do
  let content ← fileReadAll passwdPath identityBufMax
  match content with
  | none => pure .ioError
  | some buf => pure (lookupUidLines uid (Scan.segments 10 buf))

/-- The line loop of `identity_lookup_user`. -/
def lookupUserLines (name : CStr) : List Bytes → Lookup (Nat × Nat)
  | [] => .notFound
  | line :: lines =>
      if field line = name.bytes then
        match Scan.cut 58 line with
        | none => .notFound
        | some (_, rest1) =>
            match Scan.cut 58 rest1 with
            | none => .notFound
            | some (_, rest2) =>
                match Scan.cut 58 rest2 with
                | none => .notFound
                | some (uidField, rest3) =>
                    match identityParseUint uidField with
                    | none => .notFound
                    | some uid =>
                        match identityParseUint (field rest3) with
                        | none => .notFound
                        | some gid => .found (uid, gid)
      else lookupUserLines name lines

/-- `identity_lookup_user`. -/
def identityLookupUser (name : CStr) : Sys (Lookup (Nat × Nat)) :=
  if name.length = 0 then pure .notFound
  else do
    let content ← fileReadAll passwdPath identityBufMax
    match content with
    | none => pure .ioError
    | some buf => pure (lookupUserLines name (Scan.segments 10 buf))

/-! ### Home and shell -/

/-- What follows the `k`-th colon, wherever in the buffer it is. -/
def afterColons : Nat → Bytes → Bytes
  | 0, s => s
  | k + 1, s =>
      match Scan.cut 58 s with
      | none => []
      | some (_, rest) => afterColons k rest

/-- The buffer from the first line whose first field is `username`. -/
def passwdEntry (username : CStr) : List Bytes → Option Bytes
  | [] => none
  | s :: ss =>
      if (username.bytes ++ [58]).isPrefixOf s then some s else passwdEntry username ss

/-- `_target_home`. -/
def targetHome (username : CStr) : Sys CStr :=
  if username = cstr "root" then pure (cstr "/root")
  else do
    let content ← fileReadAll passwdPath 65536
    match passwdEntry username (Scan.lineSuffixes 10 (content.getD [])) with
    | none => pure (cstr "/home/" ++ username)
    | some s => pure (CStr.read ((afterColons 5 s).takeWhile (fun c => c != 58 && c != 10)))

/-- `_target_shell`. -/
def targetShell (username : CStr) : Sys CStr := do
  let content ← fileReadAll passwdPath 65536
  match passwdEntry username (Scan.lineSuffixes 10 (content.getD [])) with
  | none => pure (cstr "/bin/sh")
  | some s => pure (CStr.read ((afterColons 6 s).takeWhile (· != 10)))

/-! ### The libc group backend -/

/-- The process-wide state of the group backend: whether the policy asked for
NSS, whether the bootstrap was tried and succeeded, and the functions it found. -/
structure NssState where
  enabled : Bool
  ready : Option Bool
  ggl : Nat
  ggr : Nat
  deriving DecidableEq

/-- The state at program start. -/
def nssInitial : NssState := ⟨false, none, 0, 0⟩

/-- `identity_set_nss_groups`. -/
def identitySetNssGroups (nss : NssState) (enabled : Bool) : NssState :=
  { nss with enabled := enabled }

/-- `_identity_nss_init`: bootstrap once, remember the outcome. -/
def identityNssInit (nss : NssState) : Sys (Bool × NssState) :=
  match nss.ready with
  | some ready => pure (ready, nss)
  | none => do
      let failed := (false, { nss with ready := some false })
      let rc : Int ← sys .fdlopenInitTrusted
      if rc ≠ 0 then pure failed
      else do
        let libc : Nat ← sys (.dlopen (cstr "libc.so.6"))
        if libc = 0 then pure failed
        else do
          let ggl : Nat ← sys (.dlsym libc (cstr "getgrouplist"))
          if ggl = 0 then pure failed
          else do
            let ggr : Nat ← sys (.dlsym libc (cstr "getgrgid_r"))
            if ggr = 0 then pure failed
            else pure (true, { nss with ready := some true, ggl := ggl, ggr := ggr })

/-- `identity_nss_status`: `none` is the source's `-1`, not requested. -/
def identityNssStatus (nss : NssState) : Sys (Option Bool × NssState) :=
  if !nss.enabled then pure (none, nss)
  else do
    let (ready, nss) ← identityNssInit nss
    pure (some ready, nss)

/-- Whether group lookups go through NSS. -/
def useNss (nss : NssState) : Sys (Bool × NssState) :=
  if nss.enabled then identityNssInit nss else pure (false, nss)

/-- `_identity_widen_gids`: the first `count` gids of `src`, `count` clamped into
`0 .. max` first. -/
def identityWidenGids (src : List Nat) (count : Int) (max : Nat) : List Nat :=
  (List.range (min count max).toNat).map (fun i => src.getD i 0 &&& 4294967295)

/-- `_identity_nss_getgrouplist`: the return code and what is left in the gid
buffer. -/
def identityNssGetgrouplist (nss : NssState) (user : CStr) (primaryGid : Int) (max : Nat) :
    Sys ((Int × List Nat) × NssState) := do
  let (ready, nss) ← identityNssInit nss
  if !ready then pure ((-3, []), nss)
  else do
    let gid := (primaryGid % 4294967296).toNat
    let (rc, buf) ← (sys (.getgrouplist nss.ggl user gid max) : Sys (Int × List Nat))
    if rc < 0 then pure ((-2, identityWidenGids buf max max), nss)
    else
      let gids := identityWidenGids buf rc max
      pure (((gids.length : Int), gids), nss)

/-- `_identity_nss_getgrgid_name`. -/
def identityNssGetgrgidName (nss : NssState) (gid : Nat) : Sys (Option CStr) :=
  if nss.ready ≠ some true then pure none
  else do
    let (rc, name) ← (sys (.getgrgidR nss.ggr (gid &&& 4294967295)) : Sys (Int × Option CStr))
    match name with
    | none => pure none
    | some name => if rc ≠ 0 ∨ name.length = 0 then pure none else pure (some name)

/-- The gid list of `user` from the selected backend: the return code, the buffer,
and whether NSS was used in the end. -/
def getgrouplist (useNss : Bool) (nss : NssState) (user : CStr) (primaryGid : Int) (max : Nat) :
    Sys ((Int × List Nat) × Bool × NssState) :=
  if useNss then do
    let ((n, gids), nss) ← identityNssGetgrouplist nss user primaryGid max
    -- NSS went unready between the probe and here.
    if n = -3 then do
      let r : Int × List Nat ← sys (.grpGetgrouplist user primaryGid max)
      pure (r, false, nss)
    else pure ((n, gids), true, nss)
  else do
    let r : Int × List Nat ← sys (.grpGetgrouplist user primaryGid max)
    pure (r, false, nss)

/-- How many entries of the gid buffer a return code announces; `none` for a
failure. -/
def gidsWritten (n : Int) (max : Nat) : Option Nat :=
  if n = -2 then some max else if n < 0 then none else some n.toNat

/-! ### Group names -/

/-- The name of one gid under the selected backend. -/
def groupName (useNss : Bool) (nss : NssState) (gid : Nat) : Sys (Option CStr) :=
  if useNss then identityNssGetgrgidName nss gid
  else do
    let name : Option CStr ← sys (.grpGetgrgid gid)
    match name with
    | none => pure none
    | some name => if name.length = 0 then pure none else pure (some name)

/-- The naming loop of `identity_lookup_groups`. -/
def groupNames (useNss : Bool) (nss : NssState) : List Nat → Sys (List CStr)
  | [] => pure []
  | gid :: gids => do
      let name ← groupName useNss nss gid
      let names ← groupNames useNss nss gids
      pure (name.toList ++ names)

/-- `identity_lookup_groups`. -/
def identityLookupGroups (nss : NssState) (username : CStr) : Sys (List CStr × NssState) :=
  if username.length = 0 then pure ([], nss)
  else do
    let (viaNss, nss) ← useNss nss
    let user ← identityLookupUser username
    let primary : Option Nat := match user with
      | .found (_, gid) => some gid
      | _ => none
    let primaryGid : Int := match primary with
      | some gid => gid
      | none => -1
    let ((n, gids), viaNss, nss) ← getgrouplist viaNss nss username primaryGid 256
    match gidsWritten n 256 with
    | none => pure ([], nss)
    | some written => do
        -- Without a primary gid slot 0 is the synthetic one.
        let start := if primary.isSome then 0 else 1
        let slots := ((List.range written).drop start).map (fun i => gids.getD i 0)
        let names ← groupNames viaNss nss slots
        pure (names, nss)

/-! ### Supplementary gids -/

/-- `identity_lookup_gids`: the `u32` slots written to the caller's buffer. -/
def identityLookupGids (nss : NssState) (username : CStr) (primaryGid maxCount : Nat) :
    Sys (List Nat × NssState) :=
  if maxCount = 0 then pure ([], nss)
  else
    let primary := primaryGid &&& 4294967295
    if username.length = 0 then pure ([primary], nss)
    else do
      let (viaNss, nss) ← useNss nss
      let ((n, gids), _, nss) ← getgrouplist viaNss nss username primaryGid maxCount
      match gidsWritten n maxCount with
      | none => pure ([primary], nss)
      | some written =>
          let slots := ((List.range written).drop 1).map (fun i => gids.getD i 0 &&& 4294967295)
          pure (primary :: slots, nss)

end Shakti
