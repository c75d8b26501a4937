import Shakti.Api
import Shakti.Machine

/-!
# Shakti.TimestampOnly

What an evaluation promises a consumer that cannot prompt.

A consumer of the interface evaluates with `AUTH_TIMESTAMP_ONLY` and goes on when
`eval_authorized` is set (`handle_request` of the integration guide).

* `RequestAllowed` — the run found the request well formed, resolved its command, and the
  policy allowed it.
* `TimestampMissing` — authentication is asked for, and the run finds no valid timestamp to
  stand in for it.
* `FailsClosed` — an evaluation that is authorized carries no error, and with
  `AUTH_TIMESTAMP_ONLY` it needs no authentication or found a valid timestamp.

`evaluate_with_policy` sets `authorized` before it looks at the timestamp and leaves it set
when the check fails: that is the one case in which it does not fail closed
(`evaluate_failsClosed_iff`).
-/

namespace Shakti

open Effects Effects.Prog

/-! ### Requests the policy allows -/

/-- The run `tr` found the request well formed and resolved its command; the policy allows
it with the verdict `authz`, and `rest` is what the run does then. -/
structure RequestAllowed (config : Config) (policy : Policy) (caller : CStr)
    (groups : Option (List CStr)) (argv : List CStr) (tr : Trace) (authz : AuthzResult)
    (rest : Trace) : Prop where
  callerValid : validateUsername caller = .ok
  commandValid : validateCommand argv policy.defaults.maxCommandLen = .ok
  resolved : ∃ n buf,
    Begins (resolveCommand (argv.headD (cstr "")) [] 4096) tr (.ok n, buf) rest ∧
      authz = checkAuthorization policy caller groups config.targetUser
        (shkJoinCommand (argv.set 0 (CStr.read buf)))
  allowed : authz.allowed = true

/-- A run allows a request with one verdict. -/
theorem RequestAllowed.unique {config : Config} {policy : Policy} {caller : CStr}
    {groups : Option (List CStr)} {argv : List CStr} {tr rest rest' : Trace}
    {authz authz' : AuthzResult}
    (h : RequestAllowed config policy caller groups argv tr authz rest)
    (h' : RequestAllowed config policy caller groups argv tr authz' rest') :
    authz = authz' ∧ rest = rest' := by
  obtain ⟨n, buf, hb, rfl⟩ := h.resolved
  obtain ⟨n', buf', hb', rfl⟩ := h'.resolved
  obtain ⟨heq, hrest⟩ := hb.unique hb'
  cases heq
  exact ⟨rfl, hrest⟩

/-- The request needs authentication, the consumer cannot prompt for it, and the run goes on
with a timestamp check that fails. -/
structure TimestampMissing (config : Config) (policy : Policy) (caller : CStr)
    (authz : AuthzResult) (tr : Trace) : Prop where
  mode : config.authMode = .timestampOnly
  requireAuth : authz.requireAuth = true
  check : Starts (checkTimestamp caller policy.defaults.timestampTtl)
    (fun valid _ => valid = false) tr

theorem TimestampMissing.effectiveRa {config : Config} {policy : Policy} {caller : CStr}
    {authz : AuthzResult} {tr : Trace} (h : TimestampMissing config policy caller authz tr) :
    effectiveRa config.authMode authz = true := by
  simp [Shakti.effectiveRa, h.mode, h.requireAuth]

/-- A request whose timestamp is missing needs authentication, and the check did not
succeed. -/
theorem TimestampMissing.not_valid {config : Config} {policy : Policy} {caller : CStr}
    {authz : AuthzResult} {tr : Trace} (h : TimestampMissing config policy caller authz tr) :
    ¬ (authz.requireAuth = false ∨ Starts (checkTimestamp caller policy.defaults.timestampTtl)
      (fun valid _ => valid = true) tr) := by
  intro hor
  rcases hor with hra | ⟨valid, rest, hb, hvalid⟩
  · simp [h.requireAuth] at hra
  · have hfalse := hb.starts_iff.mp h.check
    simp [hvalid] at hfalse

/-- What the guide tells the consumer of an evaluation. -/
structure FailsClosed (config : Config) (policy : Policy) (caller : CStr)
    (groups : Option (List CStr)) (argv : List CStr) (tr : Trace) (e : Evaluation) : Prop where
  /-- A consumer that cannot prompt goes on with an allowed request only, which needs no
  authentication or has a valid timestamp. -/
  proceeds : config.authMode = .timestampOnly → e.authorized = true →
    ∃ authz rest, RequestAllowed config policy caller groups argv tr authz rest ∧
      (authz.requireAuth = false ∨ Starts (checkTimestamp caller policy.defaults.timestampTtl)
        (fun valid _ => valid = true) rest)
  noError : e.authorized = true → e.errorCode = .ok

/-! ### The evaluation -/

section Evaluate

variable {fuel : Nat} {config : Config} {policy : Policy} {caller : CStr}
  {callerUid callerGid : Nat} {groups : Option (List CStr)} {argv argv' : List CStr}
  {authz : AuthzResult} {e e' : Evaluation} {tr : Trace}

/-- The timestamp is looked at when authentication is asked for, and the mode does not waive
it. -/
theorem checked_timestamp (rest : Trace) {valid : Bool}
    (h : Returns (if effectiveRa config.authMode authz then
      checkTimestamp caller policy.defaults.timestampTtl else Pure.pure false) tr valid) :
    (effectiveRa config.authMode authz = true →
        Begins (checkTimestamp caller policy.defaults.timestampTtl) (tr ++ rest) valid rest) ∧
      (effectiveRa config.authMode authz = false → valid = false) := by
  constructor
  · intro hra
    rw [if_pos hra] at h
    exact ⟨tr, rfl, h⟩
  · intro hra
    rw [if_neg (by simp [hra])] at h
    exact (returns_pure_iff.mp h).2

/-- What the evaluation of an allowed request comes to: the timestamp is missing, or the
environment is built. -/
theorem returns_evaluateAllowed_cases
    (h : Returns (evaluateAllowed fuel config policy.defaults caller callerUid callerGid authz e)
      tr e') :
    ∃ valid, (effectiveRa config.authMode authz = true →
        Starts (checkTimestamp caller policy.defaults.timestampTtl) (fun b _ => b = valid) tr) ∧
      (effectiveRa config.authMode authz = false → valid = false) ∧
      (TimestampMissing config policy caller authz tr ∧
          e' = evalFail (evalAllowed authz valid e) .timestampExpired
            (cstr "timestamp expired — non-interactive mode cannot re-auth") ∨
        ¬ TimestampMissing config policy caller authz tr ∧
          ∃ env, e' = { evalAllowed authz valid e with environment := some env }) := by
  obtain ⟨t₁, tr₁, valid, rfl, hcheck, h⟩ := returns_bind_iff.mp h
  obtain ⟨hbegins, hunchecked⟩ := checked_timestamp tr₁ hcheck
  have hmissing : TimestampMissing config policy caller authz (t₁ ++ tr₁) ↔
      config.authMode = .timestampOnly ∧ effectiveRa config.authMode authz = true ∧
        (!valid) = true := by
    constructor
    · intro hm
      have hra := hm.effectiveRa
      have hvalid := (hbegins hra).starts_iff.mp hm.check
      exact ⟨hm.mode, hra, by simp [hvalid]⟩
    · intro hm
      obtain ⟨hmode, hra, hvalid⟩ := hm
      exact ⟨hmode, by simpa [effectiveRa, hmode] using hra,
        (hbegins hra).starts_iff.mpr (by simpa using hvalid)⟩
  refine ⟨valid, fun hra => (hbegins hra).starts_iff.mpr rfl, hunchecked, ?_⟩
  split at h
  case isTrue hexpired =>
    exact Or.inl ⟨hmissing.mpr hexpired, (returns_pure_iff.mp h).2⟩
  case isFalse hgoes =>
    obtain ⟨t₂, tr₂, home, rfl, -, h⟩ := returns_bind_iff.mp h
    obtain ⟨t₃, tr₃, shell, rfl, -, h⟩ := returns_bind_iff.mp h
    obtain ⟨t₄, tr₄, env, rfl, -, h⟩ := returns_bind_iff.mp h
    exact Or.inr ⟨fun hm => hgoes (hmissing.mp hm), env, (returns_pure_iff.mp h).2⟩

/-- The evaluation of an allowed request is authorized. It carries an error exactly when a
timestamp is missing, and its timestamp is valid when one was checked and is not missing. -/
theorem returns_evaluateAllowed_authorized (he : e.errorCode = .ok)
    (h : Returns (evaluateAllowed fuel config policy.defaults caller callerUid callerGid authz e)
      tr e') :
    e'.authorized = true ∧
      (e'.errorCode = .ok ↔ ¬ TimestampMissing config policy caller authz tr) ∧
      (config.authMode = .timestampOnly → ¬ TimestampMissing config policy caller authz tr →
        authz.requireAuth = false ∨ Starts (checkTimestamp caller policy.defaults.timestampTtl)
          (fun valid _ => valid = true) tr) := by
  obtain ⟨valid, hchecked, -, hcases⟩ := returns_evaluateAllowed_cases h
  have hvalid : config.authMode = .timestampOnly →
      ¬ TimestampMissing config policy caller authz tr →
      authz.requireAuth = false ∨ Starts (checkTimestamp caller policy.defaults.timestampTtl)
        (fun valid _ => valid = true) tr := by
    intro hmode hno
    cases hra : authz.requireAuth with
    | false => exact Or.inl rfl
    | true =>
        have hstarts := hchecked (by simp [effectiveRa, hmode, hra])
        cases valid with
        | true => exact Or.inr hstarts
        | false => exact absurd ⟨hmode, hra, hstarts⟩ hno
  rcases hcases with ⟨hm, rfl⟩ | ⟨hno, env, rfl⟩
  · exact ⟨rfl, by simpa [evalFail] using hm, hvalid⟩
  · exact ⟨rfl, iff_of_true he hno, hvalid⟩

/-- An evaluation grants nothing, or it is that of an allowed request. -/
theorem returns_evaluateWithPolicy_cases
    (h : Returns (evaluateWithPolicy fuel config policy caller callerUid callerGid groups argv) tr
      (e, argv')) :
    (e.authorized = false ∧
        ∀ authz rest, ¬ RequestAllowed config policy caller groups argv tr authz rest) ∨
      ∃ authz rest resolved, RequestAllowed config policy caller groups argv tr authz rest ∧
        Returns (evaluateAllowed fuel config policy.defaults caller callerUid callerGid authz
          { evalNew with resolvedCommand := some resolved }) rest e := by
  unfold evaluateWithPolicy at h
  -- Every early exit contradicts the field of `RequestAllowed` that its test is about.
  split at h
  case h_2 hcaller =>
    obtain ⟨-, heq⟩ := returns_pure_iff.mp h
    cases heq
    exact Or.inl ⟨rfl, fun authz rest ha => hcaller ha.callerValid⟩
  case h_1 hcaller =>
    split at h
    case h_2 hcmd =>
      obtain ⟨-, heq⟩ := returns_pure_iff.mp h
      cases heq
      exact Or.inl ⟨rfl, fun authz rest ha => hcmd ha.commandValid⟩
    case h_1 hcmd =>
      obtain ⟨t₁, tr₁, ⟨rl, buf⟩, rfl, hres, h⟩ := returns_bind_iff.mp h
      -- A trace begins with one run of the resolution only, so its result is the one evaluated.
      have hbegins : Begins (resolveCommand (argv.headD (cstr "")) [] 4096) (t₁ ++ tr₁) (rl, buf)
        tr₁ := ⟨t₁, rfl, hres⟩
      cases rl with
      | error code =>
          obtain ⟨-, heq⟩ := returns_pure_iff.mp h
          cases heq
          refine Or.inl ⟨rfl, fun authz rest ha => ?_⟩
          obtain ⟨n, buf', hb, -⟩ := ha.resolved
          cases (hbegins.unique hb).1
      | ok n =>
          dsimp only at h
          split at h
          case isTrue hdenied =>
            obtain ⟨-, heq⟩ := returns_pure_iff.mp h
            cases heq
            refine Or.inl ⟨rfl, fun authz rest ha => ?_⟩
            obtain ⟨n', buf', hb, rfl⟩ := ha.resolved
            cases (hbegins.unique hb).1
            simp [ha.allowed] at hdenied
          case isFalse hallowed =>
            obtain ⟨t₂, tr₂, e₂, rfl, he, h⟩ := returns_bind_iff.mp h
            obtain ⟨rfl, heq⟩ := returns_pure_iff.mp h
            cases heq
            rw [List.append_nil] at hbegins ⊢
            exact Or.inr ⟨_, t₂, _,
              ⟨hcaller, hcmd, ⟨n, buf, hbegins, rfl⟩, by simpa using hallowed⟩, he⟩

/-- **Evaluations that fail closed.** An evaluation fails closed unless it is made with
`AUTH_TIMESTAMP_ONLY`, the policy allows the request and asks for authentication, and the
timestamp check fails. -/
theorem evaluate_failsClosed_iff
    (h : Returns (evaluateWithPolicy fuel config policy caller callerUid callerGid groups argv) tr
      (e, argv')) :
    FailsClosed config policy caller groups argv tr e ↔
      ¬ ∃ authz rest, RequestAllowed config policy caller groups argv tr authz rest ∧
        TimestampMissing config policy caller authz rest := by
  rcases returns_evaluateWithPolicy_cases h with ⟨hno, hnone⟩ | ⟨authz, rest, resolved, ha, he⟩
  · refine iff_of_true ⟨fun _ hauth => ?_, fun hauth => ?_⟩ ?_
    · simp [hno] at hauth
    · simp [hno] at hauth
    · intro ⟨authz, rest, ha, _⟩
      exact hnone authz rest ha
  · obtain ⟨hauth, hcode, hvalid⟩ := returns_evaluateAllowed_authorized rfl he
    have hone : (∃ authz rest, RequestAllowed config policy caller groups argv tr authz rest ∧
        TimestampMissing config policy caller authz rest) ↔
        TimestampMissing config policy caller authz rest := by
      constructor
      · intro ⟨authz', rest', ha', hm⟩
        obtain ⟨rfl, rfl⟩ := ha.unique ha'
        exact hm
      · exact fun hm => ⟨authz, rest, ha, hm⟩
    rw [hone]
    constructor
    · exact fun hclosed => hcode.mp (hclosed.noError hauth)
    · intro hm
      exact ⟨fun hmode _ => ⟨authz, rest, ha, hvalid hmode hm⟩, fun _ => hcode.mpr hm⟩

end Evaluate

/-! ### A consumer without a terminal -/

/-- `al` lists a directory as root; the one rule asks for authentication. -/
def listPolicy : Policy :=
  ⟨defaultsNew, [{ ruleNew with user := some (cstr "al"), commands := [cstr "/bin/ls"] }]⟩

/-- A machine with every tool and no timestamp. -/
def noTimestampMachine : Unit → (c : SysCall) → Option (c.Answer × Unit)
  | s, .stat _ => some (some (rootFile 493), s)
  | s, .lstat _ => some (none, s)
  | s, .readlink _ => some (none, s)
  | s, .readFile _ => some (none, s)
  | s, .open _ _ _ => some (-2, s)
  | _, _ => none

/-- The evaluation of `ls` for `al`, in a mode. -/
def evaluateList (mode : AuthMode) : Sys (Evaluation × List CStr) :=
  evaluateWithPolicy 1 ⟨defaultPolicyPath, cstr "root", mode⟩ listPolicy (cstr "al") 1000 1000 none
    [cstr "/bin/ls"]

/-- For a consumer that can prompt, the evaluation is authorized and fails closed. -/
theorem evaluate_failsClosed_interactive :
    ∃ tr e argv, Returns (evaluateList .interactive) tr (e, argv) ∧ e.authorized = true ∧
      FailsClosed ⟨defaultPolicyPath, cstr "root", .interactive⟩ listPolicy (cstr "al") none
        [cstr "/bin/ls"] tr e := by
  have hplay : (play noTimestampMachine () (evaluateList .interactive)).2.value.map
      (fun out => out.1.authorized) = some true := by decide
  obtain ⟨⟨e, argv⟩, hvalue, hauth⟩ := Option.map_eq_some_iff.mp hplay
  have hrun := play_returns hvalue
  refine ⟨_, e, argv, hrun, hauth, (evaluate_failsClosed_iff hrun).mpr ?_⟩
  intro ⟨authz, rest, _, hmissing⟩
  exact absurd hmissing.mode (by decide)

/-- Without a timestamp, the evaluation of a request that needs authentication is authorized
for a consumer that cannot prompt: it goes on, although no authentication was waived and no
timestamp was valid, and the evaluation carries an error. -/
theorem evaluate_authorized_unauthenticated :
    ∃ tr e argv, Returns (evaluateList .timestampOnly) tr (e, argv) ∧ e.authorized = true ∧
      e.errorCode = .timestampExpired ∧
      ¬ ∃ authz rest, RequestAllowed ⟨defaultPolicyPath, cstr "root", .timestampOnly⟩ listPolicy
          (cstr "al") none [cstr "/bin/ls"] tr authz rest ∧
        (authz.requireAuth = false ∨
          Starts (checkTimestamp (cstr "al") listPolicy.defaults.timestampTtl)
            (fun valid _ => valid = true) rest) := by
  have hplay : (play noTimestampMachine () (evaluateList .timestampOnly)).2.value.map
      (fun out => (out.1.authorized, out.1.errorCode)) = some (true, .timestampExpired) := by
    decide
  obtain ⟨⟨e, argv⟩, hvalue, hout⟩ := Option.map_eq_some_iff.mp hplay
  obtain ⟨hauth, hcode⟩ : e.authorized = true ∧ e.errorCode = .timestampExpired := by
    simpa using hout
  have hrun := play_returns hvalue
  refine ⟨_, e, argv, hrun, hauth, hcode, ?_⟩
  rcases returns_evaluateWithPolicy_cases hrun with ⟨hno, -⟩ | ⟨authz, rest, resolved, ha, he⟩
  · simp [hauth] at hno
  · intro ⟨authz', rest', ha', hvalid⟩
    obtain ⟨rfl, rfl⟩ := ha.unique ha'
    have hmissing : TimestampMissing ⟨defaultPolicyPath, cstr "root", .timestampOnly⟩ listPolicy
        (cstr "al") authz rest := by
      by_contra hno
      simpa [hcode] using (returns_evaluateAllowed_authorized rfl he).2.1.mpr hno
    exact hmissing.not_valid hvalid

end Shakti
