import Shakti.Env

/-!
# Shakti.EnvFilter

What `sanitize_environment` makes of the caller's block: the eight fixed variables,
followed by the entries that pass (`Passes`), in the order of the block.

Both results are read off that one equation (`returns_sanitizeEnvironment`): the
environment depends on the passing entries only, and a variable is bound twice
exactly when passing entries collide with each other or with a fixed name.
-/

namespace Shakti

open Effects Effects.Prog

/-! ### Keys -/

/-- The key of an entry is what stands before its first `=`. -/
theorem envKey_eq_some_iff {entry key : CStr} :
    envKey entry = some key ↔
      ∃ rest, entry.bytes = key.bytes ++ 61 :: rest ∧ (61 : UInt8) ∉ key.bytes := by
  by_cases h : (61 : UInt8) ∈ entry.bytes
  · obtain ⟨pre, rest, heq, hno⟩ := List.eq_append_cons_of_mem h
    have hpre : (CStr.read pre).bytes = pre := CStr.read_of_subset (s := entry) (by simp [heq])
    have hkey : envKey entry = some (CStr.read pre) := by
      unfold envKey
      rw [if_pos (by simpa using h), heq, Scan.takeWhile_ne_append hno]
    rw [hkey]
    constructor
    · rintro h'
      obtain rfl := Option.some.inj h'
      exact ⟨rest, by rw [hpre, heq], by rwa [hpre]⟩
    · rintro ⟨rest', heq', hno'⟩
      have hpk : pre = key.bytes := by
        rw [← Scan.takeWhile_ne_append hno rest, ← heq, heq', Scan.takeWhile_ne_append hno']
      rw [hpk, CStr.read_bytes_self]
  · have hkey : envKey entry = none := if_neg (by simpa using h)
    rw [hkey]
    constructor
    · intro h'
      simp at h'
    · rintro ⟨rest, heq, -⟩
      exact absurd (by simp [heq]) h

/-- The key of a pair is the name it was built from. -/
theorem envKey_mkEnvPair {key : CStr} (h : (61 : UInt8) ∉ key.bytes) (val : CStr) :
    envKey (mkEnvPair key val) = some key :=
  envKey_eq_some_iff.mpr ⟨val.bytes, by simp [mkEnvPair, show (cstr "=").bytes = [61] by decide], h⟩

/-! ### Entries that pass -/

/-- The entry's key (what stands before its first `=`) is safe or kept, does not begin
with a blocked prefix, and is not blocked itself. -/
def Passes (envKeep : List CStr) (entry : CStr) : Prop :=
  ∃ (key : CStr) (rest : Bytes), entry.bytes = key.bytes ++ 61 :: rest ∧ (61 : UInt8) ∉ key.bytes ∧
    (key ∈ shkSafeEnvVars ∨ key ∈ envKeep) ∧
    ¬ utf8 "LD_" <+: key.bytes ∧ ¬ utf8 "BASH_FUNC_" <+: key.bytes ∧ key ∉ shkUnsafeEnvVars

/-- The test the pass-through loop makes. -/
def passes (envKeep : List CStr) (entry : CStr) : Bool :=
  match envKey entry with
  | none => false
  | some key => !isUnsafeEnv key && (isSafeEnv key || inKeep key envKeep)

theorem isUnsafeEnv_iff {key : CStr} :
    isUnsafeEnv key = true ↔
      utf8 "LD_" <+: key.bytes ∨ utf8 "BASH_FUNC_" <+: key.bytes ∨ key ∈ shkUnsafeEnvVars := by
  have hld : (cstr "LD_").bytes = utf8 "LD_" := by decide
  have hbash : (cstr "BASH_FUNC_").bytes = utf8 "BASH_FUNC_" := by decide
  simp [isUnsafeEnv, hasPrefix, hld, hbash, or_assoc]

theorem passes_iff {envKeep : List CStr} {entry : CStr} :
    passes envKeep entry = true ↔ Passes envKeep entry := by
  have hkey : passes envKeep entry = true ↔
      ∃ key, envKey entry = some key ∧ ¬ isUnsafeEnv key = true ∧
        (key ∈ shkSafeEnvVars ∨ key ∈ envKeep) := by
    unfold passes isSafeEnv inKeep
    cases envKey entry <;> simp
  rw [hkey]
  simp only [envKey_eq_some_iff, isUnsafeEnv_iff, not_or, Passes]
  constructor
  · rintro ⟨key, ⟨rest, heq, hno⟩, ⟨hld, hbash, hun⟩, hs⟩
    exact ⟨key, rest, heq, hno, hs, hld, hbash, hun⟩
  · rintro ⟨key, rest, heq, hno, hs, hld, hbash, hun⟩
    exact ⟨key, ⟨rest, heq, hno⟩, ⟨hld, hbash, hun⟩, hs⟩

instance (envKeep : List CStr) (entry : CStr) : Decidable (Passes envKeep entry) :=
  decidable_of_iff _ passes_iff

/-! ### The environment of the target -/

theorem passThrough_eq (envKeep entries out : List CStr) :
    passThrough envKeep entries out
      = out ++ entries.filter (fun entry => Passes envKeep entry) := by
  induction entries generalizing out with
  | nil => simp [passThrough]
  | cons entry entries ih =>
      have hp : decide (Passes envKeep entry) = passes envKeep entry := by
        rw [Bool.eq_iff_iff, decide_eq_true_iff, passes_iff]
      rw [List.filter_cons, hp, passThrough, passes]
      cases envKey entry with
      | none => simpa using ih out
      | some key =>
          dsimp only
          split
          · simpa using ih (out ++ [entry])
          · exact ih out

/-- A run of `sanitize_environment` reads the caller's block and answers with the fixed
variables and the entries that pass. -/
theorem returns_sanitizeEnvironment {fuel : Nat} {envKeep : List CStr} {ids : Identities}
    {tr : Trace} {block : Bytes} (hread : Returns (shkReadEnviron fuel) tr block)
    {out : List CStr} :
    Returns (sanitizeEnvironment fuel envKeep ids) tr out ↔
      out = fixedEnv ids ++ (environEntries block).filter (fun entry => Passes envKeep entry) := by
  have hmap : Returns (sanitizeEnvironment fuel envKeep ids) tr out ↔
      ∃ cur, Returns (shkReadEnvironment fuel) tr cur ∧
        out = passThrough envKeep cur (fixedEnv ids) := returns_map_iff
  have hentries : ∀ cur, Returns (shkReadEnvironment fuel) tr cur ↔ cur = environEntries block := by
    intro cur
    have hmap' : Returns (shkReadEnvironment fuel) tr cur ↔
        ∃ b, Returns (shkReadEnviron fuel) tr b ∧ cur = environEntries b := returns_map_iff
    rw [hmap']
    constructor
    · rintro ⟨b, hb, rfl⟩
      rw [hb.unique hread]
    · rintro rfl
      exact ⟨block, hread, rfl⟩
  simp only [hmap, hentries, exists_eq_left, passThrough_eq]

/-- **The environment depends on the passing entries only.** Behind the eight fixed
variables stand exactly the entries of the block that pass, in the order of the block;
none of them has an unsafe name, whatever is kept; and a caller environment with the
same passing entries gives the same result. -/
theorem sanitizeEnvironment_filter {fuel : Nat} {envKeep : List CStr} {ids : Identities}
    {tr : Trace} {block : Bytes} {out : List CStr}
    (hread : Returns (shkReadEnviron fuel) tr block)
    (h : Returns (sanitizeEnvironment fuel envKeep ids) tr out) :
    out.take 8 = fixedEnv ids ∧
    out.drop 8 = (environEntries block).filter (fun entry => Passes envKeep entry) ∧
    (∀ entry ∈ out.drop 8, ∀ key, envKey entry = some key → isUnsafeEnv key = false) ∧
    (∀ (fuel' : Nat) (tr' : Trace) (block' : Bytes) (out' : List CStr),
      Returns (shkReadEnviron fuel') tr' block' →
      Returns (sanitizeEnvironment fuel' envKeep ids) tr' out' →
      (environEntries block').filter (fun entry => Passes envKeep entry)
        = (environEntries block).filter (fun entry => Passes envKeep entry) →
      out' = out) := by
  have hout := (returns_sanitizeEnvironment hread).mp h
  have hlen : (fixedEnv ids).length = 8 := rfl
  have hdrop : out.drop 8
      = (environEntries block).filter (fun entry => Passes envKeep entry) := by
    rw [hout, List.drop_append_of_le_length (by simp [hlen]),
      List.drop_of_length_le (by simp [hlen]), List.nil_append]
  refine ⟨?_, hdrop, ?_, ?_⟩
  · rw [hout, List.take_append_of_le_length (by simp [hlen]),
      List.take_of_length_le (by simp [hlen])]
  · intro entry hentry key hkey
    rw [hdrop, List.mem_filter, decide_eq_true_iff, ← passes_iff, passes, hkey] at hentry
    simpa using (Bool.and_eq_true_iff.mp hentry.2).1
  · intro fuel' tr' block' out' hread' h' hsame
    rw [(returns_sanitizeEnvironment hread').mp h', hsame, hout]

/-- Answers for a read of the environment block: `block` is what is left of it. -/
def environMachine : Bytes → (c : SysCall) → Option (c.Answer × Bytes)
  | block, .open _ _ _ => some (3, block)
  | block, .alloc _ => some (true, block)
  | block, .read _ count => some (some (block.take count), block.drop count)
  | block, .close _ => some (0, block)
  | _, _ => none

/-- Root's environment for `al`. -/
def rootForAl : Identities where
  callerUser := cstr "al"
  callerUid := 1000
  callerGid := 1000
  targetUser := cstr "root"
  targetHome := cstr "/root"
  targetShell := cstr "/bin/sh"

/-- A caller's block with a safe, a blocked, a kept and an unlisted entry. -/
def mixedBlock : Bytes := utf8 "TERM=vt\x00LD_PRELOAD=x\x00EDITOR=vi\x00FOO=1\x00"

theorem sanitizeEnvironment_filter_mixed :
    (fixedEnv rootForAl ++ [cstr "TERM=vt", cstr "EDITOR=vi"]).drop 8
      = (environEntries mixedBlock).filter (fun entry => Passes [cstr "EDITOR"] entry) :=
  (sanitizeEnvironment_filter
    (play_returns (o := environMachine) (s := mixedBlock) (p := shkReadEnviron 2)
      (a := mixedBlock) (by decide))
    (play_returns (o := environMachine) (s := mixedBlock)
      (p := sanitizeEnvironment 2 [cstr "EDITOR"] rootForAl)
      (a := fixedEnv rootForAl ++ [cstr "TERM=vt", cstr "EDITOR=vi"])
      (by decide))).2.1

/-! ### Shadowing -/

/-- The names of the eight fixed variables. -/
def fixedNames : List CStr :=
  ["USER", "LOGNAME", "HOME", "SHELL", "PATH", "SUDO_USER", "SUDO_UID", "SUDO_GID"].map cstr

/-- Every name is bound once, and the fixed names are bound to the computed values. -/
def NoShadowing (ids : Identities) (out : List CStr) : Prop :=
  (out.filterMap envKey).Nodup ∧
    ∀ entry ∈ out, ∀ name ∈ fixedNames, envKey entry = some name → entry ∈ fixedEnv ids

theorem fixedEnv_keys (ids : Identities) : (fixedEnv ids).filterMap envKey = fixedNames := by
  have hno : ∀ name ∈ fixedNames, (61 : UInt8) ∉ name.bytes := by decide
  have hkey : ∀ name ∈ fixedNames, ∀ val, envKey (mkEnvPair name val) = some name :=
    fun name hname => envKey_mkEnvPair (hno name hname)
  simp only [fixedEnv, mkEnvPairInt, List.filterMap_cons, List.filterMap_nil]
  rw [hkey _ (by decide), hkey _ (by decide), hkey _ (by decide), hkey _ (by decide),
    hkey _ (by decide), hkey _ (by decide), hkey _ (by decide), hkey _ (by decide)]
  rfl

/-- **When nothing is shadowed.** Exactly when the entries of the block that pass have
pairwise different names, none of them the name of a fixed variable. -/
theorem sanitizeEnvironment_noShadowing_iff {fuel : Nat} {envKeep : List CStr}
    {ids : Identities} {tr : Trace} {block : Bytes} {out : List CStr}
    (hread : Returns (shkReadEnviron fuel) tr block)
    (h : Returns (sanitizeEnvironment fuel envKeep ids) tr out) :
    NoShadowing ids out ↔
      (((environEntries block).filter (fun entry => Passes envKeep entry)).filterMap
        envKey).Nodup ∧
      ∀ entry ∈ (environEntries block).filter (fun entry => Passes envKeep entry),
        ∀ name ∈ fixedNames, envKey entry ≠ some name := by
  have hout := (returns_sanitizeEnvironment hread).mp h
  generalize (environEntries block).filter (fun entry => Passes envKeep entry) = kept at hout
  subst hout
  have hkeys : (fixedEnv ids ++ kept).filterMap envKey = fixedNames ++ kept.filterMap envKey := by
    rw [List.filterMap_append, fixedEnv_keys]
  have hdisjoint : (∀ name ∈ fixedNames, ∀ key ∈ kept.filterMap envKey, name ≠ key) ↔
      ∀ entry ∈ kept, ∀ name ∈ fixedNames, envKey entry ≠ some name := by
    constructor
    · intro hd entry hentry name hname hkey
      exact hd name hname name (List.mem_filterMap.mpr ⟨entry, hentry, hkey⟩) rfl
    · rintro hne name hname key hmem rfl
      obtain ⟨entry, hentry, hkey⟩ := List.mem_filterMap.mp hmem
      exact hne entry hentry name hname hkey
  constructor
  · rintro ⟨hnodup, -⟩
    rw [hkeys, List.nodup_append] at hnodup
    exact ⟨hnodup.2.1, hdisjoint.mp hnodup.2.2⟩
  · rintro ⟨hnodup, hne⟩
    refine ⟨?_, fun entry hentry name hname hkey => ?_⟩
    · rw [hkeys, List.nodup_append]
      exact ⟨by decide, hnodup, hdisjoint.mpr hne⟩
    · rcases List.mem_append.mp hentry with hfixed | hkept
      · exact hfixed
      · exact absurd hkey (hne entry hkept name hname)

/-- Without a kept name the mixed block shadows nothing. -/
theorem sanitizeEnvironment_noShadowing_mixed :
    NoShadowing rootForAl (fixedEnv rootForAl ++ [cstr "TERM=vt"]) :=
  (sanitizeEnvironment_noShadowing_iff
    (play_returns (o := environMachine) (s := mixedBlock) (p := shkReadEnviron 2)
      (a := mixedBlock) (by decide))
    (play_returns (o := environMachine) (s := mixedBlock)
      (p := sanitizeEnvironment 2 [] rootForAl)
      (a := fixedEnv rootForAl ++ [cstr "TERM=vt"]) (by decide))).mpr
    (by decide)

/-- A kept `PATH` is bound twice, the second time to the caller's value. -/
theorem sanitizeEnvironment_shadows_path :
    Returns (sanitizeEnvironment 2 [cstr "PATH"] rootForAl)
        (play environMachine (utf8 "PATH=/tmp\x00")
          (sanitizeEnvironment 2 [cstr "PATH"] rootForAl)).1
        (fixedEnv rootForAl ++ [cstr "PATH=/tmp"]) ∧
      ¬ NoShadowing rootForAl (fixedEnv rootForAl ++ [cstr "PATH=/tmp"]) := by
  refine ⟨play_returns (by decide), fun h => ?_⟩
  have hmem := h.2 (cstr "PATH=/tmp") (by simp) (cstr "PATH") (by decide) (by decide)
  exact absurd hmem (by decide)

end Shakti
