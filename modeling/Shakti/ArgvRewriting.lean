import Shakti.Evaluation
import Shakti.Lib.FirstMatch
import Shakti.Resolution

/-!
# Shakti.ArgvRewriting

The vector that an evaluation rewrites.

`evaluate_with_policy` bounds the vector it is given and then writes the resolved path over its
first word, in the caller's memory: what is executed is the rewritten vector, and a refusal
behind the resolution leaves it rewritten.

* `Host` — a machine with a state, which looks at files leave as it is.
* `Evaluates` — the evaluation of a vector in a state of the machine.
* `ArgvKept` — what the caller may expect of the vector. `evaluate_argvKept_iff` says when it
  can.
-/

namespace Shakti

open Effects Effects.Prog FirstMatch

/-! ### A machine -/

/-- A machine that answers calls from a state. Looks at files are answered from the files of the
state, and leave the state as it is. -/
structure Host (σ : Type) where
  answer : σ → (c : SysCall) → Option (c.Answer × σ)
  files : σ → FileView
  looks : ∀ s c, ¬ BeyondFiles c → ∃ r, answer s c = some (r, s) ∧ (files s).Answers ⟨c, r⟩

/-- A program that looks at files first returns what the files say, and what follows starts in
the same state. -/
theorem Host.play_bind {σ α β : Type} (m : Host σ) (s : σ) {p : Sys α} (hp : FileOnly p) :
    ∃ tr a, (∀ e ∈ tr, (m.files s).Answers e) ∧ Returns p tr a ∧
      ∀ f : α → Sys β, (play m.answer s (p >>= f)).2 = (play m.answer s (f a)).2 := by
  induction p with
  | pure a => exact ⟨[], a, by simp, Steps.nil _, fun f => rfl⟩
  | call c k ih =>
      obtain ⟨hc, hk⟩ := hp
      obtain ⟨r, hanswer, hr⟩ := m.looks s c hc
      obtain ⟨tr, a, htr, hreturns, hplay⟩ := ih r (hk r)
      refine ⟨⟨c, r⟩ :: tr, a, ?_, Steps.cons hreturns, ?_⟩
      · intro e he
        rcases List.mem_cons.mp he with rfl | he
        · exact hr
        · exact htr e he
      · intro f
        rw [call_bind, play, hanswer]
        exact hplay f

theorem fileOnly_resolveInPath (cmd : CStr) (cap : Nat) (segs : List Bytes) (out : Bytes) :
    FileOnly (resolveInPath cmd cap segs out) := by
  induction segs generalizing out with
  | nil => exact trivial
  | cons seg segs ih =>
      rw [resolveInPath]
      split
      · exact ih _
      split
      · exact trivial
      · refine Avoids.bind (fileOnly_isExecutable _) (fun exe => ?_)
        split
        · exact trivial
        · exact ih _

theorem fileOnly_resolveCommand (cmd : CStr) (cap : Nat) (out : Bytes) :
    FileOnly (resolveCommand cmd out cap) := by
  rw [resolveCommand]
  split
  · exact trivial
  split
  · refine Avoids.bind (fileOnly_isExecutable _) (fun exe => ?_)
    split
    · exact trivial
    split
    · exact trivial
    · exact trivial
  split
  · exact trivial
  · exact fileOnly_resolveInPath ..

/-! ### Resolved paths -/

/-- A resolved path resolves to itself. -/
theorem FileView.Resolves.self {v : FileView} {cmd path : CStr} (h : v.Resolves cmd path) :
    v.Resolves path path := by
  obtain ⟨rest, hpath⟩ := h.absolute
  exact FileView.resolves_absolute (by simp [CStr.load8, hpath]) h.cases.1 h.cases.2.1

/-- The files determine what a name resolves to. -/
theorem FileView.Resolves.unique {v : FileView} {cmd path path' : CStr}
    (h : v.Resolves cmd path) (h' : v.Resolves cmd path') : path = path' := by
  obtain ⟨tr, n, buf, hv, hret, rfl⟩ := h
  obtain ⟨tr', n', buf', hv', hret', rfl⟩ := h'
  cases v.returns_unique (fileOnly_resolveCommand cmd 4096 []) hv hv' hret hret'
  rfl

/-- A command name without a metacharacter has none in its path. -/
theorem FileView.Resolves.noShellMeta {v : FileView} {cmd path : CStr} (h : v.Resolves cmd path)
    (hcmd : hasShellMeta cmd = false) : hasShellMeta path = false := by
  rcases h.cases.2.2 with ⟨-, rfl⟩ | ⟨-, seg, hseg, hpath⟩
  · exact hcmd
  · have hsegs : ∀ seg ∈ shkPath.bytes.splitOn 58, seg.any (shellMeta.contains ·) = false := by
      decide
    rw [hasShellMeta] at hcmd ⊢
    rw [hpath, List.any_append, hsegs seg hseg, List.any_cons, hcmd]
    decide

/-! ### The directory of a bare name -/

/-- The search finds the bare name in `dir`: the name fits the buffer behind the longest of the
directories, and `dir` is the first of them in which it is executable. -/
structure FileView.FoundIn (v : FileView) (cmd dir : CStr) : Prop where
  bare : 47 ∉ cmd.bytes
  fits : (pathJoin (cstr "/usr/local/sbin") cmd).length + 1 ≤ 4096
  first : ∃ before, First (fun d => v.isExecutable (pathJoin d cmd) = true) shkDirs before dir

section Search

variable {v : FileView} {cmd dir path : CStr} {tr : Trace}

/-- Where every candidate fits, the search ends at the first that is executable. -/
theorem FileView.returns_search {dirs : List CStr} {out buf : Bytes} {r : Except ShkErr Nat}
    (hdirs : ∀ d ∈ dirs, d.bytes ≠ [] ∧ (pathJoin d cmd).length + 1 ≤ 4096)
    (hv : ∀ e ∈ tr, v.Answers e)
    (h : Returns (resolveInPath cmd 4096 (dirs.map CStr.bytes) out) tr (r, buf)) :
    (∃ n before d, r = .ok n ∧ CStr.read buf = pathJoin d cmd ∧
      First (fun d => v.isExecutable (pathJoin d cmd) = true) dirs before d) ∨
    r = .error .notFound ∧ ∀ d ∈ dirs, ¬ v.isExecutable (pathJoin d cmd) = true := by
  induction dirs generalizing out tr with
  | nil =>
      cases (returns_pure_iff.mp h).2
      exact Or.inr ⟨rfl, by simp⟩
  | cons d dirs ih =>
      obtain ⟨hne, hfits⟩ := hdirs d (List.mem_cons_self ..)
      have hroom : ¬ 4096 < d.bytes.length + 1 + cmd.length + 1 := by
        have hlen := length_pathJoin d cmd
        have hd : d.bytes.length = d.length := rfl
        omega
      rw [List.map_cons, resolveInPath, if_neg hne, if_neg hroom] at h
      obtain ⟨t₁, t₂, exe, rfl, hexe, hrest⟩ := returns_bind_iff.mp h
      have hread : CStr.read (d.bytes ++ [47] ++ cmd.bytes ++ [0]
          ++ out.drop ((d.bytes ++ [47] ++ cmd.bytes).length + 1)) = pathJoin d cmd := by
        rw [List.append_assoc d.bytes, List.singleton_append, read_candidate_front d.noNul,
          read_candidate]
      have hv₁ := fun e he => hv e (List.mem_append_left _ he)
      have hv₂ := fun e he => hv e (List.mem_append_right _ he)
      obtain rfl := returns_isExecutable hv₁ hexe
      rw [hread] at hrest
      split at hrest
      case isTrue hx =>
        cases (returns_pure_iff.mp hrest).2
        exact Or.inl ⟨_, [], d, rfl, hread, ⟨dirs, rfl⟩, hx, by simp⟩
      case isFalse hx =>
        rcases ih (fun d hd => hdirs d (List.mem_cons_of_mem _ hd)) hv₂ hrest with
          ⟨n, before, d', hr, hbuf, hfirst⟩ | ⟨hr, hnone⟩
        · exact Or.inl ⟨n, d :: before, d', hr, hbuf, hfirst.cons hx⟩
        · exact Or.inr ⟨hr, List.forall_mem_cons.mpr ⟨hx, hnone⟩⟩

theorem shkDirs_fit (h : (pathJoin (cstr "/usr/local/sbin") cmd).length + 1 ≤ 4096) :
    ∀ d ∈ shkDirs, d.bytes ≠ [] ∧ (pathJoin d cmd).length + 1 ≤ 4096 := by
  intro d hd
  have hne : ∀ d ∈ shkDirs, d.bytes ≠ [] := by decide
  have hle := length_pathJoin_le cmd d hd
  exact ⟨hne d hd, by omega⟩

/-- A name that is not absolute resolves in a directory it is found in. -/
theorem FileView.Resolves.found (h : v.Resolves cmd path) (hrel : cmd.load8 0 ≠ 47) :
    ∃ dir, v.FoundIn cmd dir ∧ path = pathJoin dir cmd := by
  obtain ⟨tr, n, buf, hv, hret, rfl⟩ := h
  rw [resolveCommand, if_neg hrel] at hret
  split at hret
  · cases (returns_pure_iff.mp hret).2
  split at hret
  · cases (returns_pure_iff.mp hret).2
  case isFalse hslash =>
    rw [splitOn_shkPath] at hret
    by_cases hfits : (pathJoin (cstr "/usr/local/sbin") cmd).length + 1 ≤ 4096
    · rcases returns_search (shkDirs_fit hfits) hv hret with
        ⟨n', before, dir, -, hbuf, hfirst⟩ | ⟨hr, -⟩
      · exact ⟨dir, ⟨by simpa using hslash, hfits, before, hfirst⟩, hbuf⟩
      · cases hr
    · -- The first candidate does not fit, which ends the search.
      have hroom : 4096 < (cstr "/usr/local/sbin").bytes.length + 1 + cmd.length + 1 := by
        have hlen := length_pathJoin (cstr "/usr/local/sbin") cmd
        have hdir : (cstr "/usr/local/sbin").bytes.length = (cstr "/usr/local/sbin").length := rfl
        omega
      rw [shkDirs, List.map_cons, List.map_cons, resolveInPath, if_neg (by decide),
        if_pos hroom] at hret
      cases (returns_pure_iff.mp hret).2

/-- A bare name resolves in the directory it is found in. -/
theorem FileView.FoundIn.resolves (h : v.FoundIn cmd dir) (hne : cmd.length ≠ 0) :
    v.Resolves cmd (pathJoin dir cmd) := by
  obtain ⟨tr, ⟨r, buf⟩, hv, hret⟩ := v.exists_returns (fileOnly_resolveCommand cmd 4096 [])
  have hrun := hret
  have hrel : cmd.load8 0 ≠ 47 := fun habs => h.bare (by
    cases hb : cmd.bytes with
    | nil => exact absurd (congrArg List.length hb) hne
    | cons c cs => simp [← habs, CStr.load8, hb])
  rw [resolveCommand, if_neg hne, if_neg hrel, if_neg (by simpa using h.bare),
    splitOn_shkPath] at hret
  obtain ⟨before, hfirst⟩ := h.first
  rcases returns_search (shkDirs_fit h.fits) hv hret with
    ⟨n, before', d, rfl, hbuf, hfirst'⟩ | ⟨-, hnone⟩
  · obtain ⟨-, rfl⟩ := hfirst.unique hfirst'
    exact ⟨tr, n, buf, hv, hrun, hbuf.symm⟩
  · obtain ⟨⟨behind, hsplit⟩, hx, -⟩ := hfirst
    exact absurd hx (hnone dir (hsplit ▸ by simp))

end Search

/-! ### The two parts of an evaluation -/

/-- A request to `evaluate_with_policy`, but for the vector. -/
structure Request where
  fuel : Nat
  config : Config
  policy : Policy
  caller : CStr
  callerUid : Nat
  callerGid : Nat
  groups : Option (List CStr)

namespace Request

/-- The evaluation of a vector. -/
def evaluate (req : Request) (argv : List CStr) : Sys (Evaluation × List CStr) :=
  evaluateWithPolicy req.fuel req.config req.policy req.caller req.callerUid req.callerGid
    req.groups argv

/-- The policy's verdict on a vector. -/
def verdict (req : Request) (argv : List CStr) : AuthzResult :=
  checkAuthorization req.policy req.caller req.groups req.config.targetUser (shkJoinCommand argv)

/-- The evaluation of a vector whose first word is a resolved path. -/
def evaluateResolved (req : Request) (argv : List CStr) (path : CStr) :
    Sys (Evaluation × List CStr) :=
  if !(req.verdict argv).allowed then
    Pure.pure (evalFail (evalResolved path) .denied (req.verdict argv).reason, argv)
  else do
    let e ← evaluateAllowed req.fuel req.config req.policy.defaults req.caller req.callerUid
      req.callerGid (req.verdict argv) (evalResolved path)
    Pure.pure (e, argv)

/-- The caller's name and the vector are well formed, and the vector's first word resolves to
`path` on the machine. -/
structure Resolved (req : Request) (v : FileView) (argv : List CStr) (path : CStr) : Prop where
  callerValid : validateUsername req.caller = .ok
  commandValid : validateCommand argv req.policy.defaults.maxCommandLen = .ok
  resolves : v.Resolves (argv.headD (cstr "")) path

end Request

section Machine

variable {σ : Type} {m : Host σ} {s : σ} {req : Request} {argv argv' : List CStr} {e : Evaluation}
  {path : CStr}

/-- In the state `s` of the machine, the evaluation of the vector comes to `out`. -/
def Evaluates (m : Host σ) (s : σ) (req : Request) (argv : List CStr)
    (out : Evaluation × List CStr) : Prop :=
  (play m.answer s (req.evaluate argv)).2.value = some out

/-- Behind the resolution, the evaluation goes on with the rewritten vector, in the same
state. -/
theorem evaluates_resolved (h : req.Resolved (m.files s) argv path)
    {out : Evaluation × List CStr} :
    Evaluates m s req argv out ↔
      (play m.answer s (req.evaluateResolved (argv.set 0 path) path)).2.value = some out := by
  obtain ⟨tr, n, buf, hv, hret, rfl⟩ := h.resolves
  obtain ⟨tr', found, hv', hret', hplay⟩ :=
    m.play_bind s (fileOnly_resolveCommand (argv.headD (cstr "")) 4096 [])
  obtain rfl := (m.files s).returns_unique (fileOnly_resolveCommand _ 4096 []) hv' hv hret' hret
  rw [Evaluates, Request.evaluate, evaluateWithPolicy]
  simp only [h.callerValid, h.commandValid]
  rw [hplay]
  rfl

/-- An evaluation that gets no further than the resolution is a refusal, and leaves the
vector. -/
theorem evaluates_unresolved (h : Evaluates m s req argv (e, argv'))
    (hno : ∀ path, ¬ req.Resolved (m.files s) argv path) :
    e.authorized = false ∧ argv' = argv := by
  rw [Evaluates, Request.evaluate, evaluateWithPolicy] at h
  split at h
  case h_2 =>
    cases h
    exact ⟨rfl, rfl⟩
  case h_1 hcaller =>
    split at h
    case h_2 =>
      cases h
      exact ⟨rfl, rfl⟩
    case h_1 hcommand =>
      obtain ⟨tr, ⟨rl, buf⟩, hv, hret, hplay⟩ :=
        m.play_bind s (fileOnly_resolveCommand (argv.headD (cstr "")) 4096 [])
      rw [hplay] at h
      cases rl with
      | error code =>
          cases h
          exact ⟨rfl, rfl⟩
      | ok n => exact absurd ⟨hcaller, hcommand, tr, n, buf, hv, hret, rfl⟩ (hno _)

/-- Behind the resolution, the request is authorized when the policy allows it; the vector is
left rewritten. -/
theorem evaluateResolved_authorized {out : List CStr}
    (h : (play m.answer s (req.evaluateResolved argv path)).2.value = some (e, out)) :
    out = argv ∧ e.authorized = (req.verdict argv).allowed ∧ e.resolvedCommand = some path := by
  have hrun := play_returns h
  rw [Request.evaluateResolved] at hrun
  split at hrun
  case isTrue hdenied =>
    cases (returns_pure_iff.mp hrun).2
    exact ⟨rfl, by simpa [evalFail, evalResolved, evalNew] using hdenied, rfl⟩
  case isFalse hallowed =>
    obtain ⟨tr₁, tr₂, e₁, -, he, hrun⟩ := returns_bind_iff.mp hrun
    cases (returns_pure_iff.mp hrun).2
    have hverdict : (req.verdict argv).allowed = true := by simpa using hallowed
    obtain ⟨valid, -, -, ⟨-, rfl⟩ | ⟨-, env, rfl⟩⟩ := returns_evaluateAllowed_cases he
    · exact ⟨rfl, hverdict.symm, rfl⟩
    · exact ⟨rfl, hverdict.symm, rfl⟩

/-! ### The vector -/

/-- What a caller may expect of its vector, when the evaluation came to `e` and left `argv'`: an
authorized vector is within the bound, and in the same state is evaluated to the same verdict,
error and command; a refusal leaves the vector as it was. -/
structure ArgvKept (m : Host σ) (s : σ) (req : Request) (argv : List CStr) (e : Evaluation)
    (argv' : List CStr) : Prop where
  bounded : e.authorized = true → commandLength argv' ≤ req.policy.defaults.maxCommandLen
  stable : e.authorized = true → ∃ e₂ argv₂, Evaluates m s req argv' (e₂, argv₂) ∧
    e₂.authorized = e.authorized ∧ e₂.errorCode = e.errorCode ∧
      e₂.resolvedCommand = e.resolvedCommand
  unchanged : e.authorized = false → argv' = argv

/-- When the vector is well formed and its first word is a bare name that is found in a directory
of the search: the policy allows the vector with the path in that directory, and the bound leaves
room for the directory and a slash. A first word that is absolute is not rewritten. -/
def RewriteFits (v : FileView) (req : Request) (argv : List CStr) : Prop :=
  ∀ cmd args dir, argv = cmd :: args → validateUsername req.caller = .ok →
    validateCommand argv req.policy.defaults.maxCommandLen = .ok → v.FoundIn cmd dir →
    (req.verdict (pathJoin dir cmd :: args)).allowed = true ∧
      dir.length + 1 ≤ req.policy.defaults.maxCommandLen - commandLength argv

theorem validateCommand_ok_iff {cmd : CStr} {args : List CStr} {maxLen : Nat} :
    validateCommand (cmd :: args) maxLen = .ok ↔
      commandLength (cmd :: args) ≤ maxLen ∧ cmd.length ≠ 0 ∧ hasShellMeta cmd = false := by
  rw [validateCommand]
  split
  case isTrue hlong => exact iff_of_false (by decide) (fun h => absurd hlong (Nat.not_lt.mpr h.1))
  case isFalse hfits =>
    split
    case isTrue hempty => exact iff_of_false (by decide) (fun h => h.2.1 hempty)
    case isFalse hne =>
      split
      case isTrue hmeta => exact iff_of_false (by decide) (fun h => by simp [hmeta] at h)
      case isFalse hplain =>
        exact iff_of_true rfl ⟨Nat.le_of_not_lt hfits, hne, by simpa using hplain⟩

/-- A rewritten vector within the bound is well formed, and resolves to itself. -/
theorem Request.Resolved.again {v : FileView} (h : req.Resolved v argv path)
    (hfits : commandLength (argv.set 0 path) ≤ req.policy.defaults.maxCommandLen) :
    req.Resolved v (argv.set 0 path) path ∧ (argv.set 0 path).set 0 path = argv.set 0 path := by
  obtain ⟨hcaller, hcommand, hresolves⟩ := h
  cases argv with
  | nil => simp [validateCommand] at hcommand
  | cons cmd args =>
      rw [List.set_cons_zero] at hfits ⊢
      obtain ⟨-, -, hplain⟩ := validateCommand_ok_iff.mp hcommand
      obtain ⟨rest, hpath⟩ := hresolves.absolute
      have hne : path.length ≠ 0 := by simp [CStr.length, hpath]
      exact ⟨⟨hcaller, validateCommand_ok_iff.mpr ⟨hfits, hne, hresolves.noShellMeta hplain⟩,
        hresolves.self⟩, rfl⟩

/-- A longer first word makes the vector longer by as much. -/
theorem commandLength_cons (a : CStr) (args : List CStr) :
    commandLength (a :: args) = a.length + commandLength args + 1 := by
  have hloop : ∀ (l : List CStr) (n m : Nat),
      l.foldl (fun total a => total + a.length) (n + m) =
        n + l.foldl (fun total a => total + a.length) m := by
    intro l
    induction l with
    | nil => exact fun n m => rfl
    | cons b l ih =>
        intro n m
        rw [List.foldl_cons, List.foldl_cons, Nat.add_assoc, ih]
  rw [commandLength, commandLength, List.length_cons, List.foldl_cons,
    show args.length + 1 + a.length = (a.length + 1) + args.length by omega, hloop]
  omega

/-- **The rewritten vector** keeps the bound and the verdict, and a refusal leaves the vector,
exactly when no bare name is found, or the one that is found is allowed and leaves room for its
directory. -/
theorem evaluate_argvKept_iff (h : Evaluates m s req argv (e, argv')) :
    ArgvKept m s req argv e argv' ↔ RewriteFits (m.files s) req argv := by
  by_cases hex : ∃ path, req.Resolved (m.files s) argv path
  · obtain ⟨path, hres⟩ := hex
    have hrest := (evaluates_resolved hres).mp h
    obtain ⟨rfl, hauth, -⟩ := evaluateResolved_authorized hrest
    obtain ⟨hcaller, hcommand, hresolves⟩ := id hres
    cases argv with
    | nil => simp [validateCommand] at hcommand
    | cons cmd args =>
        obtain ⟨hbound, hne, -⟩ := validateCommand_ok_iff.mp hcommand
        rw [List.headD_cons] at hresolves
        rw [List.set_cons_zero] at hauth hrest ⊢
        -- Within the bound, the vector is evaluated as before.
        have hkept (hfits : commandLength (path :: args) ≤ req.policy.defaults.maxCommandLen)
            (hsame : e.authorized = false → path = cmd) :
            ArgvKept m s req (cmd :: args) e (path :: args) := by
          obtain ⟨hagain, hset⟩ := hres.again hfits
          refine ⟨fun _ => hfits, fun _ => ⟨e, path :: args, ?_, rfl, rfl, rfl⟩, fun hno => ?_⟩
          · rw [List.set_cons_zero] at hagain
            rw [evaluates_resolved hagain]
            exact hrest
          · rw [hsame hno]
        by_cases habs : cmd.load8 0 = 47
        · -- An absolute word is kept.
          have hpath : path = cmd := by
            rcases hresolves.cases.2.2 with ⟨-, hpath⟩ | ⟨hrel, -⟩
            · exact hpath
            · exact absurd habs hrel
          refine iff_of_true (hkept (hpath ▸ hbound) fun _ => hpath) ?_
          intro cmd' args' dir hargv _ _ hfound
          obtain ⟨rfl, rfl⟩ := List.cons.inj hargv
          have hslash : 47 ∈ cmd.bytes := by
            cases hb : cmd.bytes with
            | nil => exact absurd (congrArg List.length hb) hne
            | cons c cs => simp [← habs, CStr.load8, hb]
          exact absurd hslash hfound.bare
        · obtain ⟨dir, hfound, rfl⟩ := hresolves.found habs
          have hlen := length_pathJoin dir cmd
          have hold := commandLength_cons cmd args
          have hnew := commandLength_cons (pathJoin dir cmd) args
          constructor
          · intro hargv cmd' args' dir' hcons _ _ hfound'
            obtain ⟨rfl, rfl⟩ := List.cons.inj hcons
            obtain ⟨before, hfirst⟩ := hfound.first
            obtain ⟨before', hfirst'⟩ := hfound'.first
            obtain ⟨-, rfl⟩ := hfirst.unique hfirst'
            cases hverdict : (req.verdict (pathJoin dir cmd :: args)).allowed with
            | true =>
                have hbounded := hargv.bounded (hauth.trans hverdict)
                exact ⟨rfl, by omega⟩
            | false =>
                -- A refusal leaves a longer word.
                have hsame := congrArg List.head? (hargv.unchanged (hauth.trans hverdict))
                have hword : pathJoin dir cmd = cmd := by simpa using hsame
                rw [hword] at hlen
                omega
          · intro hroom
            obtain ⟨hallowed, hroom⟩ := hroom cmd args dir rfl hcaller hcommand hfound
            refine hkept (by omega) fun hno => ?_
            rw [hauth, hallowed] at hno
            cases hno
  · push Not at hex
    obtain ⟨hauth, hsame⟩ := evaluates_unresolved h hex
    refine iff_of_true ⟨by simp [hauth], by simp [hauth], fun _ => hsame⟩ ?_
    rintro cmd args dir rfl hcaller hcommand hfound
    obtain ⟨-, hne, -⟩ := validateCommand_ok_iff.mp hcommand
    exact absurd ⟨hcaller, hcommand, hfound.resolves hne⟩ (hex (pathJoin dir cmd))

end Machine

/-! ### A bare command name -/

/-- A machine with files that do not change, and little else. -/
def FileView.host (v : FileView) : Host Unit where
  answer
    | s, .stat path => some (v.stat path, s)
    | s, .readFile path => some (v.content path, s)
    | s, .dirList path => some (v.list path, s)
    | s, .open _ _ _ => some (-2, s)
    | _, _ => none
  files _ := v
  looks s c hc := by
    cases c <;> first | exact ⟨_, rfl, rfl⟩ | exact absurd trivial hc

/-- A machine with one tool. -/
def envHost : Host Unit := (rootFiles [(cstr "/usr/bin/env", 493, [])]).host

/-- `al`, under some rules and a bound of thirteen bytes. -/
def shortRequest (rules : List Rule) : Request where
  fuel := 1
  config := ⟨defaultPolicyPath, cstr "root", .skip⟩
  policy := ⟨{ defaultsNew with maxCommandLen := 13 }, rules⟩
  caller := cstr "al"
  callerUid := 1000
  callerGid := 1000
  groups := none

/-- Everything is allowed to `al`. -/
def allowAl : List Rule := [{ ruleNew with user := some (cstr "al") }]

/-- A path at the bound is kept as it is. -/
theorem evaluate_argvKept_absolute :
    ∃ e, e.authorized = true ∧
      ArgvKept envHost () (shortRequest allowAl) [cstr "/usr/bin/env"] e [cstr "/usr/bin/env"] := by
  have hplay : (play envHost.answer () ((shortRequest allowAl).evaluate
      [cstr "/usr/bin/env"])).2.value.map (fun out => (out.1.authorized, out.2))
      = some (true, [cstr "/usr/bin/env"]) := by decide
  obtain ⟨⟨e, argv⟩, hvalue, hout⟩ := Option.map_eq_some_iff.mp hplay
  obtain ⟨hauth, rfl⟩ : e.authorized = true ∧ argv = [cstr "/usr/bin/env"] := by simpa using hout
  refine ⟨e, hauth, (evaluate_argvKept_iff hvalue).mpr ?_⟩
  intro cmd args dir hargv _ _ hfound
  obtain ⟨rfl, -⟩ := List.cons.inj hargv
  exact absurd hfound.bare (by decide)

/-- **The bound and the vector are not kept.** A bare name within the bound is authorized, and
rewritten to a path beyond it; and where the policy refuses it, it is rewritten too. -/
theorem evaluate_argv_grows :
    (∃ e argv', Evaluates envHost () (shortRequest allowAl) [cstr "env", cstr "-i"] (e, argv') ∧
      e.authorized = true ∧
      ¬ ArgvKept envHost () (shortRequest allowAl) [cstr "env", cstr "-i"] e argv') ∧
    ∃ e argv', Evaluates envHost () (shortRequest []) [cstr "env"] (e, argv') ∧
      e.authorized = false ∧ ¬ ArgvKept envHost () (shortRequest []) [cstr "env"] e argv' := by
  constructor
  · have hplay : (play envHost.answer () ((shortRequest allowAl).evaluate
        [cstr "env", cstr "-i"])).2.value.map (fun out => (out.1.authorized, out.2))
        = some (true, [cstr "/usr/bin/env", cstr "-i"]) := by decide
    obtain ⟨⟨e, argv⟩, hvalue, hout⟩ := Option.map_eq_some_iff.mp hplay
    obtain ⟨hauth, rfl⟩ : e.authorized = true ∧ argv = [cstr "/usr/bin/env", cstr "-i"] := by
      simpa using hout
    refine ⟨e, _, hvalue, hauth, fun hkept => ?_⟩
    have hbounded := hkept.bounded hauth
    exact absurd hbounded (by decide)
  · have hplay : (play envHost.answer () ((shortRequest []).evaluate
        [cstr "env"])).2.value.map (fun out => (out.1.authorized, out.2))
        = some (false, [cstr "/usr/bin/env"]) := by decide
    obtain ⟨⟨e, argv⟩, hvalue, hout⟩ := Option.map_eq_some_iff.mp hplay
    obtain ⟨hauth, rfl⟩ : e.authorized = false ∧ argv = [cstr "/usr/bin/env"] := by
      simpa using hout
    refine ⟨e, _, hvalue, hauth, fun hkept => ?_⟩
    have hsame := hkept.unchanged hauth
    exact absurd hsame (by decide)

end Shakti
