import Shakti.TimestampOnly

/-!
# Shakti.Evaluation

What an evaluation says, field by field.

`evaluate_with_policy` leaves at one of six points. `Exit` has one constructor for each, with
the evaluation that is returned there; `evaluateWithPolicy_exit` is the only place where the
function is taken apart.

* `CommandResolved` — the request is well formed, and its command was resolved.
* `FirstFailed` — the code of the first check that failed.
* `Consistent` — what each field of the evaluation means. `evaluateWithPolicy_consistent`
  says that all of them mean it, on every run.
-/

namespace Shakti

open Effects Effects.Prog

/-! ### The exits -/

/-- The request is well formed, and the run resolved its command to `path`; `rest` is what the
run does then. -/
structure CommandResolved (policy : Policy) (caller : CStr) (argv : List CStr) (tr : Trace)
    (path : CStr) (rest : Trace) : Prop where
  callerValid : validateUsername caller = .ok
  commandValid : validateCommand argv policy.defaults.maxCommandLen = .ok
  resolved : ∃ n buf,
    Begins (resolveCommand (argv.headD (cstr "")) [] 4096) tr (.ok n, buf) rest ∧
      path = CStr.read buf

/-- The verdict on the vector with its first word rewritten. -/
def verdictOn (config : Config) (policy : Policy) (caller : CStr) (groups : Option (List CStr))
    (argv : List CStr) (path : CStr) : AuthzResult :=
  checkAuthorization policy caller groups config.targetUser (shkJoinCommand (argv.set 0 path))

/-- The evaluation in which the command is resolved, and nothing else yet. -/
def evalResolved (path : CStr) : Evaluation := { evalNew with resolvedCommand := some path }

section Exits

variable (config : Config) (policy : Policy) (caller : CStr) (groups : Option (List CStr))
  (argv : List CStr) (tr : Trace)

/-- Where a run leaves, with its evaluation and the vector. -/
inductive Exit : Evaluation → List CStr → Prop
  | caller : validateUsername caller ≠ .ok →
      Exit (evalFail evalNew (validateUsername caller) (shkErrMsg (validateUsername caller))) argv
  | command : validateUsername caller = .ok →
      validateCommand argv policy.defaults.maxCommandLen ≠ .ok →
      Exit (evalFail evalNew (validateCommand argv policy.defaults.maxCommandLen)
        (shkErrMsg (validateCommand argv policy.defaults.maxCommandLen))) argv
  | unresolved {code : ShkErr} {buf : Bytes} {rest : Trace} : validateUsername caller = .ok →
      validateCommand argv policy.defaults.maxCommandLen = .ok →
      Begins (resolveCommand (argv.headD (cstr "")) [] 4096) tr (.error code, buf) rest →
      Exit (evalFail evalNew code (shkErrMsg code)) argv
  | denied {path : CStr} {rest : Trace} : CommandResolved policy caller argv tr path rest →
      (verdictOn config policy caller groups argv path).allowed = false →
      Exit (evalFail (evalResolved path) .denied
        (verdictOn config policy caller groups argv path).reason) (argv.set 0 path)
  | expired {path : CStr} {rest : Trace} {valid : Bool} :
      CommandResolved policy caller argv tr path rest →
      (verdictOn config policy caller groups argv path).allowed = true →
      TimestampMissing config policy caller (verdictOn config policy caller groups argv path)
        rest →
      valid = false →
      Exit (evalFail (evalAllowed (verdictOn config policy caller groups argv path) valid
        (evalResolved path)) .timestampExpired
          (cstr "timestamp expired — non-interactive mode cannot re-auth")) (argv.set 0 path)
  | ready {path : CStr} {rest : Trace} {valid : Bool} {env : List CStr} :
      CommandResolved policy caller argv tr path rest →
      (verdictOn config policy caller groups argv path).allowed = true →
      ¬ TimestampMissing config policy caller (verdictOn config policy caller groups argv path)
        rest →
      (valid = true →
        effectiveRa config.authMode (verdictOn config policy caller groups argv path) = true ∧
          Starts (checkTimestamp caller policy.defaults.timestampTtl) (fun b _ => b = true)
            rest) →
      Exit { evalAllowed (verdictOn config policy caller groups argv path) valid
        (evalResolved path) with environment := some env } (argv.set 0 path)

end Exits

section Evaluate

variable {fuel : Nat} {config : Config} {policy : Policy} {caller : CStr}
  {callerUid callerGid : Nat} {groups : Option (List CStr)} {argv argv' : List CStr}
  {e : Evaluation} {tr rest : Trace} {path : CStr}

/-- Behind an allowed verdict there are two exits. -/
theorem evaluateAllowed_exit (hresolved : CommandResolved policy caller argv tr path rest)
    (hallowed : (verdictOn config policy caller groups argv path).allowed = true)
    (h : Returns (evaluateAllowed fuel config policy.defaults caller callerUid callerGid
      (verdictOn config policy caller groups argv path) (evalResolved path)) rest e) :
    Exit config policy caller groups argv tr e (argv.set 0 path) := by
  obtain ⟨valid, hchecked, hunchecked, hcases⟩ := returns_evaluateAllowed_cases h
  rcases hcases with ⟨hm, rfl⟩ | ⟨hno, env, rfl⟩
  · obtain ⟨b, rest', hb, rfl⟩ := hm.check
    exact .expired hresolved hallowed hm (hb.starts_iff.mp (hchecked hm.effectiveRa)).symm
  · refine .ready hresolved hallowed hno ?_
    rintro rfl
    have hra : effectiveRa config.authMode (verdictOn config policy caller groups argv path)
        = true := by
      by_contra hra
      exact absurd (hunchecked (by simpa using hra)) (by decide)
    exact ⟨hra, hchecked hra⟩

/-- Every run leaves at one of the exits. -/
theorem evaluateWithPolicy_exit
    (h : Returns (evaluateWithPolicy fuel config policy caller callerUid callerGid groups argv) tr
      (e, argv')) : Exit config policy caller groups argv tr e argv' := by
  unfold evaluateWithPolicy at h
  split at h
  case h_2 hcaller =>
    obtain ⟨-, heq⟩ := returns_pure_iff.mp h
    cases heq
    exact .caller hcaller
  case h_1 hcaller =>
    split at h
    case h_2 hcmd =>
      obtain ⟨-, heq⟩ := returns_pure_iff.mp h
      cases heq
      exact .command hcaller hcmd
    case h_1 hcmd =>
      obtain ⟨t₁, tr₁, ⟨rl, buf⟩, rfl, hres, h⟩ := returns_bind_iff.mp h
      have hbegins : Begins (resolveCommand (argv.headD (cstr "")) [] 4096) (t₁ ++ tr₁) (rl, buf)
        tr₁ := ⟨t₁, rfl, hres⟩
      cases rl with
      | error code =>
          obtain ⟨-, heq⟩ := returns_pure_iff.mp h
          cases heq
          exact .unresolved hcaller hcmd hbegins
      | ok n =>
          have hresolved : CommandResolved policy caller argv (t₁ ++ tr₁) (CStr.read buf) tr₁ :=
            ⟨hcaller, hcmd, n, buf, hbegins, rfl⟩
          dsimp only at h
          split at h
          case isTrue hdenied =>
            obtain ⟨-, heq⟩ := returns_pure_iff.mp h
            cases heq
            exact .denied hresolved (by simpa [verdictOn] using hdenied)
          case isFalse hallowed =>
            obtain ⟨t₂, tr₂, e₂, rfl, he, h⟩ := returns_bind_iff.mp h
            obtain ⟨rfl, heq⟩ := returns_pure_iff.mp h
            cases heq
            rw [List.append_nil] at hresolved ⊢
            exact evaluateAllowed_exit hresolved (by simpa [verdictOn] using hallowed) he

/-! ### The first check that failed -/

/-- A run resolves its command to one path. -/
theorem CommandResolved.unique {path' : CStr} {rest' : Trace}
    (h : CommandResolved policy caller argv tr path rest)
    (h' : CommandResolved policy caller argv tr path' rest') : path = path' ∧ rest = rest' := by
  obtain ⟨n, buf, hb, rfl⟩ := h.resolved
  obtain ⟨n', buf', hb', rfl⟩ := h'.resolved
  obtain ⟨heq, hrest⟩ := hb.unique hb'
  cases heq
  exact ⟨rfl, hrest⟩

/-- The search through the directories does not fail with `SHK_OK`. -/
theorem resolveInPath_error {cmd : CStr} {segs : List Bytes} {cap : Nat} {out buf : Bytes}
    {code : ShkErr} (h : Returns (resolveInPath cmd cap segs out) tr (.error code, buf)) :
    code ≠ .ok := by
  induction segs generalizing out tr with
  | nil =>
      cases (returns_pure_iff.mp h).2
      decide
  | cons seg segs ih =>
      rw [resolveInPath] at h
      split at h
      · exact ih h
      · split at h
        · cases (returns_pure_iff.mp h).2
          decide
        · obtain ⟨t₁, tr₁, exe, rfl, -, h⟩ := returns_bind_iff.mp h
          split at h
          · cases (returns_pure_iff.mp h).2
          · exact ih h

/-- Neither does `resolve_command`. -/
theorem resolveCommand_error {cmd : CStr} {cap : Nat} {out buf : Bytes} {code : ShkErr}
    (h : Returns (resolveCommand cmd out cap) tr (.error code, buf)) : code ≠ .ok := by
  rw [resolveCommand] at h
  split at h
  · cases (returns_pure_iff.mp h).2
    decide
  split at h
  · obtain ⟨t₁, tr₁, exe, rfl, -, h⟩ := returns_bind_iff.mp h
    split at h
    · cases (returns_pure_iff.mp h).2
      decide
    split at h
    · cases (returns_pure_iff.mp h).2
      decide
    · cases (returns_pure_iff.mp h).2
  split at h
  · cases (returns_pure_iff.mp h).2
    decide
  · exact resolveInPath_error h

variable (config policy caller groups argv tr) in
/-- `code` is that of the first check that failed. -/
def FirstFailed (code : ShkErr) : Prop :=
  if validateUsername caller ≠ .ok then code = validateUsername caller
  else if validateCommand argv policy.defaults.maxCommandLen ≠ .ok then
    code = validateCommand argv policy.defaults.maxCommandLen
  else
    (∃ buf rest, Begins (resolveCommand (argv.headD (cstr "")) [] 4096) tr (.error code, buf)
      rest) ∨
    ∃ path rest, CommandResolved policy caller argv tr path rest ∧
      ((verdictOn config policy caller groups argv path).allowed = false ∧ code = .denied ∨
        (verdictOn config policy caller groups argv path).allowed = true ∧
          TimestampMissing config policy caller
            (verdictOn config policy caller groups argv path) rest ∧
          code = .timestampExpired)

/-- Behind a resolved command, what can fail is the authorization, then the timestamp. -/
theorem CommandResolved.firstFailed_iff (h : CommandResolved policy caller argv tr path rest)
    {code : ShkErr} :
    FirstFailed config policy caller groups argv tr code ↔
      (verdictOn config policy caller groups argv path).allowed = false ∧ code = .denied ∨
        (verdictOn config policy caller groups argv path).allowed = true ∧
          TimestampMissing config policy caller
            (verdictOn config policy caller groups argv path) rest ∧
          code = .timestampExpired := by
  rw [FirstFailed, if_neg (by simp [h.callerValid]), if_neg (by simp [h.commandValid])]
  constructor
  · intro hfailed
    rcases hfailed with ⟨buf, rest', hb⟩ | ⟨path', rest', h', hcases⟩
    · obtain ⟨n, buf', hb', -⟩ := h.resolved
      cases (hb.unique hb').1
    · obtain ⟨rfl, rfl⟩ := h.unique h'
      exact hcases
  · exact fun hcases => Or.inr ⟨path, rest, h, hcases⟩

/-! ### The fields -/

/-- The evaluation has the fields of the verdict. -/
structure CarriesVerdict (e : Evaluation) (authz : AuthzResult) : Prop where
  requireAuth : e.requireAuth = authz.requireAuth
  capabilities : e.capabilities = authz.capabilities
  logSession : e.logSession = authz.logSession
  logInput : e.logInput = authz.logInput
  selinuxContext : e.selinuxContext = authz.selinux
  apparmorProfile : e.apparmorProfile = authz.apparmor

/-- It has them as `eval_new` sets them. -/
structure CarriesNothing (e : Evaluation) : Prop where
  requireAuth : e.requireAuth = evalNew.requireAuth
  capabilities : e.capabilities = evalNew.capabilities
  logSession : e.logSession = evalNew.logSession
  logInput : e.logInput = evalNew.logInput
  selinuxContext : e.selinuxContext = evalNew.selinuxContext
  apparmorProfile : e.apparmorProfile = evalNew.apparmorProfile

variable (config policy caller groups argv tr) in
/-- What the fields of an evaluation mean. -/
structure Consistent (e : Evaluation) : Prop where
  /-- The resolved command is what `resolve_command` found for a well-formed request. -/
  resolvedCommand : ∀ path, e.resolvedCommand = some path ↔
    ∃ rest, CommandResolved policy caller argv tr path rest
  /-- The request is authorized when, in addition, the policy allows the rewritten vector. -/
  authorized : e.authorized = true ↔ ∃ path rest,
    CommandResolved policy caller argv tr path rest ∧
      (verdictOn config policy caller groups argv path).allowed = true
  carriesNothing : e.authorized = false → CarriesNothing e
  carriesVerdict : e.authorized = true → ∀ path rest,
    CommandResolved policy caller argv tr path rest →
      CarriesVerdict e (verdictOn config policy caller groups argv path)
  /-- A valid timestamp was asked for, not waived, and found by `check_timestamp`. -/
  timestampValid : e.timestampValid = true → e.requireAuth = true ∧ config.authMode ≠ .skip ∧
    ∃ path rest, CommandResolved policy caller argv tr path rest ∧
      Starts (checkTimestamp caller policy.defaults.timestampTtl) (fun valid _ => valid = true)
        rest
  environment : e.environment ≠ none ↔ e.authorized = true ∧ e.errorCode = .ok
  /-- A refusal has an error code, and an error code is that of the first check that failed. -/
  refused : e.authorized = false → e.errorCode ≠ .ok
  errorCode : ∀ code, FirstFailed config policy caller groups argv tr code ↔
    code ≠ .ok ∧ e.errorCode = code

/-- A refusal in front of a resolved command. -/
theorem consistent_unresolved {code : ShkErr} {msg : CStr}
    (hno : ∀ path rest, ¬ CommandResolved policy caller argv tr path rest) (hcode : code ≠ .ok)
    (hfirst : ∀ code', FirstFailed config policy caller groups argv tr code' ↔ code' = code) :
    Consistent config policy caller groups argv tr (evalFail evalNew code msg) where
  resolvedCommand path := iff_of_false (by simp [evalFail, evalNew]) (fun ⟨rest, h⟩ => hno _ _ h)
  authorized := iff_of_false (by simp [evalFail, evalNew]) (fun ⟨_, _, h, _⟩ => hno _ _ h)
  carriesNothing _ := ⟨rfl, rfl, rfl, rfl, rfl, rfl⟩
  carriesVerdict _ path rest h := absurd h (hno path rest)
  timestampValid h := by simp [evalFail, evalNew] at h
  environment := by simp [evalFail, evalNew]
  refused _ := hcode
  errorCode code' := by
    rw [hfirst]
    constructor
    · rintro rfl
      exact ⟨hcode, rfl⟩
    · exact fun h => h.2.symm

/-- The refusal by the policy. -/
theorem consistent_denied (h : CommandResolved policy caller argv tr path rest)
    (hdenied : (verdictOn config policy caller groups argv path).allowed = false) {msg : CStr} :
    Consistent config policy caller groups argv tr (evalFail (evalResolved path) .denied msg) where
  resolvedCommand path' := by
    constructor
    · intro heq
      cases heq
      exact ⟨rest, h⟩
    · intro hthere
      obtain ⟨rest', h'⟩ := hthere
      rw [(h'.unique h).1]
      rfl
  authorized := by
    refine iff_of_false (by simp [evalFail, evalResolved, evalNew]) ?_
    intro hauthorized
    obtain ⟨path', rest', h', hallowed⟩ := hauthorized
    rw [(h'.unique h).1, hdenied] at hallowed
    contradiction
  carriesNothing _ := ⟨rfl, rfl, rfl, rfl, rfl, rfl⟩
  carriesVerdict hauth := by simp [evalFail, evalResolved, evalNew] at hauth
  timestampValid hvalid := by simp [evalFail, evalResolved, evalNew] at hvalid
  environment := by simp [evalFail, evalResolved, evalNew]
  refused _ := by simp [evalFail]
  errorCode code := by
    rw [h.firstFailed_iff]
    simp only [hdenied, evalFail, Bool.false_eq_true, false_and, or_false, true_and]
    constructor
    · rintro rfl
      exact ⟨by decide, rfl⟩
    · exact fun h => h.2.symm

/-- The evaluations of an allowed request. -/
theorem consistent_allowed (h : CommandResolved policy caller argv tr path rest)
    (hallowed : (verdictOn config policy caller groups argv path).allowed = true)
    {valid : Bool} (hvalid : valid = true →
      effectiveRa config.authMode (verdictOn config policy caller groups argv path) = true ∧
        Starts (checkTimestamp caller policy.defaults.timestampTtl) (fun b _ => b = true) rest)
    {env : Option (List CStr)} {code : ShkErr} {msg : CStr} (henv : env ≠ none ↔ code = .ok)
    (hcode : TimestampMissing config policy caller
          (verdictOn config policy caller groups argv path) rest ∧ code = .timestampExpired ∨
        ¬ TimestampMissing config policy caller
          (verdictOn config policy caller groups argv path) rest ∧ code = .ok) :
    Consistent config policy caller groups argv tr
      { evalAllowed (verdictOn config policy caller groups argv path) valid (evalResolved path)
        with environment := env, errorCode := code, errorMsg := msg } where
  -- What the run resolved is determined by its trace, so the two paths are one.
  resolvedCommand path' := by
    constructor
    · intro heq
      cases heq
      exact ⟨rest, h⟩
    · intro ⟨rest', h'⟩
      rw [(h'.unique h).1]
      rfl
  authorized := iff_of_true rfl ⟨path, rest, h, hallowed⟩
  carriesNothing hauth := by simp [evalAllowed] at hauth
  carriesVerdict _ path' rest' h' := by
    rw [(h'.unique h).1]
    exact ⟨rfl, rfl, rfl, rfl, rfl, rfl⟩
  timestampValid hv := by
    obtain ⟨hra, hstarts⟩ := hvalid hv
    have hmode : config.authMode ≠ .skip := by
      intro hskip
      simp [effectiveRa, hskip] at hra
    refine ⟨?_, hmode, path, rest, h, hstarts⟩
    rwa [effectiveRa, if_neg hmode] at hra
  environment := henv.trans (by simp [evalAllowed])
  refused hauth := by simp [evalAllowed] at hauth
  errorCode code' := by
    rw [h.firstFailed_iff]
    simp only [hallowed, Bool.true_eq_false, false_and, false_or, true_and]
    rcases hcode with ⟨hm, rfl⟩ | ⟨hm, rfl⟩
    · constructor
      · intro hexpired
        obtain ⟨-, rfl⟩ := hexpired
        exact ⟨by decide, rfl⟩
      · exact fun h => ⟨hm, h.2.symm⟩
    · exact iff_of_false (fun h => hm h.1) (fun h => h.1 h.2.symm)

/-- **Evaluations are consistent.** Whatever the request, the policy and the machine, each field
of the evaluation means what it says. -/
theorem evaluateWithPolicy_consistent
    (h : Returns (evaluateWithPolicy fuel config policy caller callerUid callerGid groups argv) tr
      (e, argv')) : Consistent config policy caller groups argv tr e := by
  cases evaluateWithPolicy_exit h with
  | caller hcaller =>
      refine consistent_unresolved (fun path rest h => hcaller h.callerValid) hcaller ?_
      intro code
      rw [FirstFailed, if_pos hcaller]
  | command hcaller hcommand =>
      refine consistent_unresolved (fun path rest h => hcommand h.commandValid) hcommand ?_
      intro code
      rw [FirstFailed, if_neg (by simp [hcaller]), if_pos hcommand]
  | unresolved hcaller hcommand hb =>
      -- The search is deterministic on its trace: it failed, so no other reading of it resolves.
      have hno : ∀ path rest, ¬ CommandResolved policy caller argv tr path rest := by
        intro path rest h
        obtain ⟨n, buf, hb', -⟩ := h.resolved
        cases (hb.unique hb').1
      obtain ⟨t, rfl, hres⟩ := hb
      refine consistent_unresolved hno (resolveCommand_error hres) ?_
      intro code
      rw [FirstFailed, if_neg (by simp [hcaller]), if_neg (by simp [hcommand])]
      constructor
      · intro hfailed
        rcases hfailed with ⟨buf', rest', hb'⟩ | ⟨path, rest', h', -⟩
        · cases (hb'.unique ⟨t, rfl, hres⟩).1
          rfl
        · exact absurd h' (hno path rest')
      · rintro rfl
        exact Or.inl ⟨_, _, t, rfl, hres⟩
  | denied hresolved hdenied => exact consistent_denied hresolved hdenied
  | expired hresolved hallowed hm hvalid =>
      refine consistent_allowed hresolved hallowed (fun hv => ?_)
        (by simp [evalAllowed, evalResolved, evalNew]) (Or.inl ⟨hm, rfl⟩)
      rw [hvalid] at hv
      contradiction
  | ready hresolved hallowed hno hvalid =>
      exact consistent_allowed hresolved hallowed hvalid
        (by simp [evalAllowed, evalResolved, evalNew]) (Or.inr ⟨hno, rfl⟩)

end Evaluate

/-- The evaluation of an allowed request without a timestamp, for a consumer that cannot prompt:
authorized, with an error and without an environment. -/
theorem evaluateWithPolicy_consistent_expired :
    ∃ tr e argv, e.authorized = true ∧ e.environment = none ∧
      Returns (evaluateList .timestampOnly) tr (e, argv) ∧
      Consistent ⟨defaultPolicyPath, cstr "root", .timestampOnly⟩ listPolicy (cstr "al") none
        [cstr "/bin/ls"] tr e := by
  have hplay : (play noTimestampMachine () (evaluateList .timestampOnly)).2.value.map
      (fun out => (out.1.authorized, out.1.environment)) = some (true, none) := by
    decide
  obtain ⟨⟨e, argv⟩, hvalue, hout⟩ := Option.map_eq_some_iff.mp hplay
  obtain ⟨hauth, henv⟩ : e.authorized = true ∧ e.environment = none := by simpa using hout
  have hrun := play_returns hvalue
  exact ⟨_, e, argv, hauth, henv, hrun, evaluateWithPolicy_consistent hrun⟩

end Shakti
