import Shakti.Sys
import Shakti.Lib.Scan

/-!
# Shakti.Env

Environment sanitization (`env.cyr`): the blocked and the safe names, reading the
caller's block, and building the environment of the target.

The stdlib hash maps hold fixed sets of names; membership in the list of those
names stands for `map_has`. Memory for the entries, their keys and the pairs is taken
to be granted; what becomes of the block when it is not is in `Shakti.EnvironBlock`.
-/

namespace Shakti

open Effects

/-! ### Unsafe and safe names -/

/-- `_shk_build_unsafe_map`: names blocked whatever the policy keeps. -/
def shkUnsafeEnvVars : List CStr :=
  [ -- dynamic linker
    "LD_PRELOAD", "LD_LIBRARY_PATH", "LD_AUDIT", "LD_DYNAMIC_WEAK", "LD_BIND_NOW",
    "LD_AOUT_LIBRARY_PATH", "LD_AOUT_PRELOAD", "LD_ORIGIN_PATH", "LD_DEBUG",
    "LD_DEBUG_OUTPUT", "LD_PROFILE", "LD_PROFILE_OUTPUT", "LD_SHOW_AUXV",
    "LD_USE_LOAD_BIAS", "LD_HWCAP_MASK", "LD_TRACE_LOADED_OBJECTS", "LD_WARN",
    "LD_VERBOSE", "LD_TRACE_PRELINKING",
    -- DNS and locale
    "LOCALDOMAIN", "RES_OPTIONS", "HOSTALIASES", "NLSPATH", "PATH_LOCALE", "GCONV_PATH",
    -- shells
    "IFS", "ENV", "BASH_ENV", "CDPATH", "GLOBIGNORE", "SHELLOPTS", "BASHOPTS", "PS4",
    "PROMPT_COMMAND", "INPUTRC",
    -- interpreters
    "PYTHONPATH", "PYTHONSTARTUP", "PYTHONHOME", "PERL5LIB", "PERL5OPT", "PERLLIB",
    "PERL_MM_OPT", "RUBYLIB", "RUBYOPT", "GEM_HOME", "GEM_PATH", "BUNDLE_GEMFILE",
    "NODE_PATH", "NODE_OPTIONS", "CLASSPATH", "JAVA_TOOL_OPTIONS", "LUA_PATH",
    "LUA_CPATH", "PHPRC"].map cstr

/-- `_shk_build_safe_map`: names passed through by default. -/
def shkSafeEnvVars : List CStr :=
  ["TERM", "COLORTERM", "LANG", "LANGUAGE", "LC_ALL", "LC_CTYPE", "TZ", "DISPLAY",
    "XAUTHORITY"].map cstr

/-- `_has_prefix`. -/
def hasPrefix (name pre : CStr) : Bool := pre.bytes.isPrefixOf name.bytes

/-- `is_unsafe_env`. -/
def isUnsafeEnv (name : CStr) : Bool :=
  hasPrefix name (cstr "LD_") || hasPrefix name (cstr "BASH_FUNC_")
    || shkUnsafeEnvVars.contains name

/-- `is_safe_env`. -/
def isSafeEnv (name : CStr) : Bool := shkSafeEnvVars.contains name

/-- `_in_keep`. -/
def inKeep (name : CStr) (envKeep : List CStr) : Bool := envKeep.contains name

/-! ### Reading the block -/

/-- The read loop of `_shk_read_environ`: `buf` holds what was read so far into a
buffer of `cap` bytes. `fuel` bounds the reads the kernel answers; past it the next
read never returns. -/
def shkReadEnvironLoop (fd : Int) : Nat → Nat → Bytes → Sys Bytes
  | 0, _, _ => sysBlocked
  | fuel + 1, cap, buf => do
      let got ← fileRead fd (cap - buf.length)
      if got = [] then pure buf
      else if cap ≤ (buf ++ got).length then do
        let grown : Bool ← sys (.alloc (cap * 2))
        if !grown then pure (buf ++ got)
        else shkReadEnvironLoop fd fuel (cap * 2) (buf ++ got)
      else shkReadEnvironLoop fd fuel cap (buf ++ got)

/-- Any class that holds of none of the loop's calls is avoided by it. -/
theorem avoids_shkReadEnvironLoop {P : SysCall → Prop} {fd : Int} (hblocked : ¬ P .blocked)
    (halloc : ∀ size, ¬ P (.alloc size)) (hread : ∀ count, ¬ P (.read fd count))
    (fuel cap : Nat) (buf : Bytes) : Prog.Avoids P (shkReadEnvironLoop fd fuel cap buf) := by
  induction fuel generalizing cap buf with
  | zero => exact avoids_sysBlocked hblocked
  | succ fuel ih =>
      refine .bind (avoids_fileRead (hread _)) fun got => Prog.avoids_ite.mpr ⟨by simp, fun _ => ?_⟩
      refine Prog.avoids_ite.mpr ⟨fun _ => ?_, fun _ => ih _ _⟩
      refine .bind ((Prog.avoids_ask _).mpr (halloc _)) fun grown => ?_
      exact Prog.avoids_ite.mpr ⟨by simp, fun _ => ih _ _⟩

/-- `_shk_read_environ`: the caller's environment block, empty if it cannot be
read. -/
def shkReadEnviron (fuel : Nat) : Sys Bytes := do
  let fd : Int ← sys (.open (cstr "/proc/self/environ") 0 0)
  if fd < 0 then pure []
  else do
    let buf : Bool ← sys (.alloc 16384)
    if !buf then do
      let _ ← sys (.close fd)
      pure []
    else do
      let block ← shkReadEnvironLoop fd fuel 16384 []
      let _ ← sys (.close fd)
      pure block

/-- The entries of a block: its non-empty NUL-separated segments, in order. -/
def environEntries (block : Bytes) : List CStr :=
  ((Scan.segments 0 block).filter (· ≠ [])).map CStr.read

/-- `shk_read_environment`. -/
def shkReadEnvironment (fuel : Nat) : Sys (List CStr) := do
  let block ← shkReadEnviron fuel
  pure (environEntries block)

/-! ### Building the target's environment -/

/-- `_mk_env_pair`. -/
def mkEnvPair (key val : CStr) : CStr := key ++ cstr "=" ++ val

/-- The decimal digits of `n`, most significant first, before `acc`. -/
def decimalLoop : Nat → Nat → Bytes → Bytes
  | 0, _, acc => acc
  | fuel + 1, n, acc =>
      let acc := (48 + (n % 10).toUInt8) :: acc
      if n / 10 = 0 then acc else decimalLoop fuel (n / 10) acc

/-- `fmt_int_buf` on a non-negative number. -/
def decimal (n : Nat) : CStr := CStr.read (decimalLoop (n + 1) n [])

/-- `_mk_env_pair_int`. -/
def mkEnvPairInt (key : CStr) (val : Nat) : CStr := mkEnvPair key (decimal val)

/-- `_env_key`: what stands before the first `=`, if there is one. -/
def envKey (entry : CStr) : Option CStr :=
  if entry.bytes.contains 61 then some (CStr.read (entry.bytes.takeWhile (· != 61))) else none

/-- Who invokes the program, and as whom the target runs. -/
structure Identities where
  callerUser : CStr
  callerUid : Nat
  callerGid : Nat
  targetUser : CStr
  targetHome : CStr
  targetShell : CStr

/-- The eight variables `sanitize_environment` always sets. -/
def fixedEnv (ids : Identities) : List CStr :=
  [mkEnvPair (cstr "USER") ids.targetUser,
    mkEnvPair (cstr "LOGNAME") ids.targetUser,
    mkEnvPair (cstr "HOME") ids.targetHome,
    mkEnvPair (cstr "SHELL") ids.targetShell,
    mkEnvPair (cstr "PATH") (cstr "/usr/local/sbin:/usr/local/bin:/usr/sbin:/usr/bin:/sbin:/bin"),
    mkEnvPair (cstr "SUDO_USER") ids.callerUser,
    mkEnvPairInt (cstr "SUDO_UID") ids.callerUid,
    mkEnvPairInt (cstr "SUDO_GID") ids.callerGid]

/-- The pass-through loop of `sanitize_environment`: entries are pushed onto
`out` in the order of the block. -/
def passThrough (envKeep : List CStr) : List CStr → List CStr → List CStr
  | [], out => out
  | entry :: entries, out =>
      match envKey entry with
      | none => passThrough envKeep entries out
      | some key =>
          if !isUnsafeEnv key && (isSafeEnv key || inKeep key envKeep) then
            passThrough envKeep entries (out ++ [entry])
          else passThrough envKeep entries out

/-- `sanitize_environment`. -/
def sanitizeEnvironment (fuel : Nat) (envKeep : List CStr) (ids : Identities) :
    Sys (List CStr) := do
  let cur ← shkReadEnvironment fuel
  pure (passThrough envKeep cur (fixedEnv ids))

end Shakti
