import Shakti.Cli
import Shakti.Policy.Bounds

/-!
# Shakti.CliGrammar

The command lines `_parse_cli_from` accepts.

A command line is options, then possibly `--`, then the words of a command
(`OptionWords`, `CommandWords`). The parser returns what such a reading of the vector says
(`cliOf`), and 0 for a vector without one:

* `parseCliLoop_optionWords` — the loop reads the options of a reading, one after the other.
* `returns_parseCliLoop_some` — what the loop accepts has a reading.
* `Checked.parseCliFrom_eq` — the loop over the indices of the vector, with its mode bit and
  the loop that copies a command, ends, stays within the vector and does the same.
-/

namespace Shakti

open Effects Effects.Prog

/-! ### The grammar -/

/-- The options without a value. -/
inductive CliFlag
  | invalidate
  | list
  | check
  | help
  | version
  deriving DecidableEq

/-- The spellings of a flag. -/
def CliFlag.words : CliFlag → List CStr
  | .invalidate => [cstr "-k", cstr "--invalidate"]
  | .list => [cstr "-l", cstr "--list"]
  | .check => [cstr "-c", cstr "--check"]
  | .help => [cstr "-h", cstr "--help"]
  | .version => [cstr "-V", cstr "--version"]

/-- An option as it occurs, with its value. -/
inductive CliOption
  | flag (f : CliFlag)
  | user (u : CStr)
  | policy (p : CStr)
  deriving DecidableEq

/-- The words that write an option. -/
inductive CliOption.Written : CliOption → List CStr → Prop
  | flag {f : CliFlag} {w : CStr} : w ∈ f.words → Written (.flag f) [w]
  | user {w u : CStr} : w ∈ [cstr "-u", cstr "--user"] → Written (.user u) [w, u]
  | policy {w p : CStr} : w ∈ [cstr "-p", cstr "--policy"] → Written (.policy p) [w, p]

/-- The words of a sequence of options. -/
inductive OptionWords : List CliOption → List CStr → Prop
  | nil : OptionWords [] []
  | cons {o : CliOption} {os : List CliOption} {ws rest : List CStr} :
      o.Written ws → OptionWords os rest → OptionWords (o :: os) (ws ++ rest)

/-- What follows the options: nothing, `--` and a command, or a command whose first word does
not begin with a dash. -/
inductive CommandWords : List CStr → List CStr → Prop
  | none : CommandWords [] []
  | dashes (argv : List CStr) : CommandWords (cstr "--" :: argv) argv
  | plain {a : CStr} (argv : List CStr) : a.load8 0 ≠ 45 → CommandWords (a :: argv) (a :: argv)

/-- The words read as these options and this command. -/
def CliReading (words : List CStr) (opts : List CliOption) (argv : List CStr) : Prop :=
  ∃ before behind, words = before ++ behind ∧ OptionWords opts before ∧ CommandWords behind argv

/-- The users named, in order. -/
def CliOption.user? : CliOption → Option CStr
  | .user u => some u
  | _ => none

/-- The policies named, in order. -/
def CliOption.policy? : CliOption → Option CStr
  | .policy p => some p
  | _ => none

/-- What options and a command ask for: each flag that occurs, and the last user and policy
named. -/
def cliOf (opts : List CliOption) (argv : List CStr) : CliArgs where
  target := ((opts.filterMap CliOption.user?).getLast?).getD (cstr "root")
  policy := ((opts.filterMap CliOption.policy?).getLast?).getD defaultPolicyPath
  invalidate := decide (CliOption.flag .invalidate ∈ opts)
  list := decide (CliOption.flag .list ∈ opts)
  check := decide (CliOption.flag .check ∈ opts)
  help := decide (CliOption.flag .help ∈ opts)
  version := decide (CliOption.flag .version ∈ opts)
  argv := argv

/-! ### The parser reads the grammar -/

/-- What the parser does at an option. -/
def CliOption.set (cli : CliArgs) : CliOption → CliArgs
  | .flag .invalidate => { cli with invalidate := true }
  | .flag .list => { cli with list := true }
  | .flag .check => { cli with check := true }
  | .flag .help => { cli with help := true }
  | .flag .version => { cli with version := true }
  | .user u => { cli with target := u }
  | .policy p => { cli with policy := p }

/-- The last option behind others. -/
theorem cliOf_concat (opts : List CliOption) (o : CliOption) (argv : List CStr) :
    cliOf (opts ++ [o]) argv = o.set (cliOf opts argv) := by
  cases o with
  | flag f => cases f <;> simp [cliOf, CliOption.set, CliOption.user?, CliOption.policy?]
  | user u => simp [cliOf, CliOption.set, CliOption.user?, CliOption.policy?]
  | policy p => simp [cliOf, CliOption.set, CliOption.user?, CliOption.policy?]

theorem foldl_set (opts : List CliOption) : opts.foldl CliOption.set cliNew = cliOf opts [] := by
  induction opts using List.reverseRecOn with
  | nil => rfl
  | append_singleton opts o ih => rw [List.foldl_concat, ih, cliOf_concat]

theorem argv_foldl_set (opts : List CliOption) (cli : CliArgs) :
    (opts.foldl CliOption.set cli).argv = cli.argv := by
  induction opts generalizing cli with
  | nil => rfl
  | cons o opts ih =>
      rw [List.foldl_cons, ih]
      cases o with
      | flag f => cases f <;> rfl
      | user u => rfl
      | policy p => rfl

/-- One option is read. -/
theorem parseCliLoop_option {o : CliOption} {ws : List CStr} (h : o.Written ws) (cli : CliArgs)
    (rest : List CStr) : parseCliLoop cli (ws ++ rest) = parseCliLoop (o.set cli) rest := by
  cases h with
  | @flag f w hw =>
      rw [List.singleton_append]
      cases f <;> rcases List.mem_pair.mp hw with rfl | rfl <;>
        (rw [parseCliLoop.eq_def]; simp +decide only [CliOption.set, if_true, if_false])
  | user hw =>
      rcases List.mem_pair.mp hw with rfl | rfl <;>
        (rw [parseCliLoop.eq_def]; simp +decide [CliOption.set])
  | policy hw =>
      rcases List.mem_pair.mp hw with rfl | rfl <;>
        (rw [parseCliLoop.eq_def]; simp +decide [CliOption.set])

/-- The options of a reading are read one after the other. -/
theorem parseCliLoop_optionWords {opts : List CliOption} {ws : List CStr}
    (h : OptionWords opts ws) (cli : CliArgs) (rest : List CStr) :
    parseCliLoop cli (ws ++ rest) = parseCliLoop (opts.foldl CliOption.set cli) rest := by
  induction h generalizing cli with
  | nil => rfl
  | cons ho _ ih => rw [List.append_assoc, parseCliLoop_option ho, ih, List.foldl_cons]

/-- The command is taken over as it is. -/
theorem parseCliLoop_commandWords {words argv : List CStr} (h : CommandWords words argv)
    (cli : CliArgs) :
    parseCliLoop cli words = Pure.pure (some { cli with argv := cli.argv ++ argv }) := by
  cases h with
  | none => simp [parseCliLoop]
  | dashes argv =>
      rw [parseCliLoop.eq_def]
      simp +decide only [if_true, if_false]
  | @plain a argv ha =>
      -- Every option begins with a dash.
      have hne : ∀ w : CStr, w.load8 0 = 45 → a ≠ w := by
        intro w hw heq
        exact ha (heq ▸ hw)
      rw [parseCliLoop.eq_def]
      simp only [hne (cstr "-u") (by decide), hne (cstr "--user") (by decide),
        hne (cstr "-p") (by decide), hne (cstr "--policy") (by decide),
        hne (cstr "-k") (by decide), hne (cstr "--invalidate") (by decide),
        hne (cstr "-l") (by decide), hne (cstr "--list") (by decide),
        hne (cstr "-c") (by decide), hne (cstr "--check") (by decide),
        hne (cstr "-h") (by decide), hne (cstr "--help") (by decide),
        hne (cstr "-V") (by decide), hne (cstr "--version") (by decide),
        hne (cstr "--") (by decide), ha, or_self, if_false]

theorem CliReading.option {o : CliOption} {ws rest : List CStr} {opts : List CliOption}
    {argv : List CStr} (ho : o.Written ws) (h : CliReading rest opts argv) :
    CliReading (ws ++ rest) (o :: opts) argv := by
  obtain ⟨before, behind, rfl, hopts, hcommand⟩ := h
  exact ⟨ws ++ before, behind, (List.append_assoc ..).symm, OptionWords.cons ho hopts, hcommand⟩

theorem CliReading.command {words argv : List CStr} (h : CommandWords words argv) :
    CliReading words [] argv :=
  ⟨[], words, rfl, OptionWords.nil, h⟩

/-- A reading of what follows an option is a reading with the option. -/
theorem CliReading.extend {o : CliOption} {ws rest : List CStr} {cli cli' : CliArgs}
    (ho : o.Written ws) (h : ∃ opts argv, CliReading rest opts argv ∧
      cli' = { opts.foldl CliOption.set (o.set cli) with argv := (o.set cli).argv ++ argv }) :
    ∃ opts argv, CliReading (ws ++ rest) opts argv ∧
      cli' = { opts.foldl CliOption.set cli with argv := cli.argv ++ argv } := by
  obtain ⟨opts, argv, hreading, rfl⟩ := h
  refine ⟨o :: opts, argv, hreading.option ho, ?_⟩
  have hargv : (o.set cli).argv = cli.argv := argv_foldl_set [o] cli
  rw [List.foldl_cons, hargv]

/-- What the loop accepts has a reading, and is what the reading says. -/
theorem returns_parseCliLoop_some {cli cli' : CliArgs} {words : List CStr} {tr : Trace}
    (h : Returns (parseCliLoop cli words) tr (some cli')) :
    ∃ opts argv, CliReading words opts argv ∧
      cli' = { opts.foldl CliOption.set cli with argv := cli.argv ++ argv } := by
  fun_induction parseCliLoop cli words
  case case1 cli =>
    obtain ⟨-, heq⟩ := returns_pure_iff.mp h
    cases heq
    exact ⟨[], [], CliReading.command CommandWords.none, by simp⟩
  case case2 | case4 =>
    -- An option without its value.
    simpa using (returns_pure_iff.mp h).2
  case case3 hopt u rest ih =>
    exact CliReading.extend (.user (List.mem_pair.mpr hopt)) (ih h)
  case case5 hopt p rest ih =>
    exact CliReading.extend (.policy (List.mem_pair.mpr hopt)) (ih h)
  case case6 hopt ih =>
    exact CliReading.extend (.flag (f := .invalidate) (List.mem_pair.mpr hopt)) (ih h)
  case case7 hopt ih =>
    exact CliReading.extend (.flag (f := .list) (List.mem_pair.mpr hopt)) (ih h)
  case case8 hopt ih =>
    exact CliReading.extend (.flag (f := .check) (List.mem_pair.mpr hopt)) (ih h)
  case case9 hopt ih =>
    exact CliReading.extend (.flag (f := .help) (List.mem_pair.mpr hopt)) (ih h)
  case case10 hopt ih =>
    exact CliReading.extend (.flag (f := .version) (List.mem_pair.mpr hopt)) (ih h)
  case case11 rest _ _ _ _ _ _ _ =>
    obtain ⟨-, heq⟩ := returns_pure_iff.mp h
    cases heq
    exact ⟨[], rest, CliReading.command (CommandWords.dashes rest), rfl⟩
  case case12 =>
    -- An unknown option: the message, and no result.
    obtain ⟨t₁, tr₁, _, rfl, -, h₁⟩ := returns_bind_iff.mp h
    obtain ⟨t₂, tr₂, _, rfl, -, h₂⟩ := returns_bind_iff.mp h₁
    obtain ⟨t₃, tr₃, _, rfl, -, h₃⟩ := returns_bind_iff.mp h₂
    simpa using (returns_pure_iff.mp h₃).2
  case case13 a rest _ _ _ _ _ _ _ _ hdash =>
    obtain ⟨-, heq⟩ := returns_pure_iff.mp h
    cases heq
    exact ⟨[], a :: rest, CliReading.command (CommandWords.plain rest hdash), rfl⟩

/-! ### The loop over the vector -/

namespace Checked

open Memory

/-- Where the parser stands: the record, the index, and whether `--` was seen. -/
structure CliState where
  cli : CliArgs
  i : Nat
  sawDd : Bool

/-- `streq(a, short) == 1 || streq(a, long) == 1`. -/
def isOption (fuel : Nat) (a short long : CStr) : Option Bool := do
  let s ← streq fuel a short
  if s then return true else streq fuel a long

/-- The value of an option, in the word behind it. -/
def takeValue (args : List CStr) (i : Nat) (set : CStr → CliArgs) :
    Option (Turn CliState (Sys (Option CliArgs))) :=
  if args.length ≤ i + 1 then return .done (Pure.pure none)
  else do
    let v ← args[i + 1]?
    return .next ⟨set v, i + 2, false⟩

/-- One turn of the loop that copies the words of a command. -/
def copyWordsTurn (args : List CStr) (s : CliState) : Option (Turn CliState CliState) :=
  if s.i < args.length then do
    let a ← args[s.i]?
    return .next { s with cli := { s.cli with argv := s.cli.argv ++ [a] }, i := s.i + 1 }
  else return .done s

/-- One turn of the loop of `_parse_cli_from`. -/
def cliTurn (fuel : Nat) (args : List CStr) (s : CliState) :
    Option (Turn CliState (Sys (Option CliArgs))) :=
  if s.i < args.length then do
    let a ← args[s.i]?
    if s.sawDd then
      return .next { s with cli := { s.cli with argv := s.cli.argv ++ [a] }, i := s.i + 1 }
    else if ← isOption fuel a (cstr "-u") (cstr "--user") then
      takeValue args s.i (fun v => { s.cli with target := v })
    else if ← isOption fuel a (cstr "-p") (cstr "--policy") then
      takeValue args s.i (fun v => { s.cli with policy := v })
    else if ← isOption fuel a (cstr "-k") (cstr "--invalidate") then
      return .next { s with cli := { s.cli with invalidate := true }, i := s.i + 1 }
    else if ← isOption fuel a (cstr "-l") (cstr "--list") then
      return .next { s with cli := { s.cli with list := true }, i := s.i + 1 }
    else if ← isOption fuel a (cstr "-c") (cstr "--check") then
      return .next { s with cli := { s.cli with check := true }, i := s.i + 1 }
    else if ← isOption fuel a (cstr "-h") (cstr "--help") then
      return .next { s with cli := { s.cli with help := true }, i := s.i + 1 }
    else if ← isOption fuel a (cstr "-V") (cstr "--version") then
      return .next { s with cli := { s.cli with version := true }, i := s.i + 1 }
    else if ← streq fuel a (cstr "--") then
      return .next { s with sawDd := true, i := s.i + 1 }
    else if (← chars a 0) = 45 then
      return .done (do
        fileWrite 2 (utf8 "shakti: unknown option: ")
        fileWrite 2 a.bytes
        fileWrite 2 (utf8 "\n")
        Pure.pure none)
    else do
      let s ← run (copyWordsTurn args) fuel s
      return .next s
  else return .done (Pure.pure (some s.cli))

/-- `_parse_cli_from`. -/
def parseCliFrom (fuel : Nat) (args : List CStr) : Option (Sys (Option CliArgs)) :=
  run (cliTurn fuel args) fuel ⟨cliNew, 1, false⟩

section Loop

variable {fuel : Nat} {args : List CStr}

theorem isOption_eq {a short long : CStr} (h : a.length < fuel) :
    isOption fuel a short long = some (decide (a = short ∨ a = long)) := by
  rw [isOption, streq_eq h, streq_eq h]
  by_cases hs : a = short
  · simp [hs]
  · simp [hs]

omit fuel in
theorem drop_cons {i : Nat} {a : CStr} {rest : List CStr} (h : args.drop i = a :: rest) :
    i < args.length ∧ args[i]? = some a ∧ args.drop (i + 1) = rest := by
  have hlt : i < args.length := by
    by_contra hge
    rw [List.drop_eq_nil_of_le (by omega)] at h
    cases h
  rw [List.drop_eq_getElem_cons hlt] at h
  obtain ⟨ha, hrest⟩ := List.cons.inj h
  exact ⟨hlt, by rw [List.getElem?_eq_getElem hlt, ha], hrest⟩

/-- The rest of the vector becomes the command. -/
theorem run_copyWordsTurn {s : CliState} (hfuel : (args.drop s.i).length < fuel) :
    run (copyWordsTurn args) fuel s =
      some ⟨{ s.cli with argv := s.cli.argv ++ args.drop s.i }, max s.i args.length, s.sawDd⟩ := by
  refine run_eq (fun n (s : CliState) b => n = (args.drop s.i).length ∧
    b = ⟨{ s.cli with argv := s.cli.argv ++ args.drop s.i }, max s.i args.length, s.sawDd⟩)
    ?_ ⟨rfl, rfl⟩ hfuel
  intro n s b h
  obtain ⟨rfl, rfl⟩ := h
  cases hrest : args.drop s.i with
  | nil =>
      have hge : args.length ≤ s.i := List.drop_eq_nil_iff.mp hrest
      left
      simp [copyWordsTurn, Nat.not_lt.mpr hge, Nat.max_eq_left hge]
  | cons a rest =>
      obtain ⟨hlt, ha, hdrop⟩ := drop_cons hrest
      refine Or.inr ⟨rest.length,
        { s with cli := { s.cli with argv := s.cli.argv ++ [a] }, i := s.i + 1 }, by simp,
        ?_, ?_, ?_⟩
      · simp only [copyWordsTurn, if_pos hlt, ha, Option.bind_eq_bind, Option.bind_some]
        rfl
      · rw [hdrop]
      · simp only [hdrop, List.append_assoc, List.singleton_append, Nat.max_eq_right hlt,
          Nat.max_eq_right hlt.le]

/-- What the loop does from a state on. -/
def rest (args : List CStr) (s : CliState) : Sys (Option CliArgs) :=
  if s.sawDd then Pure.pure (some { s.cli with argv := s.cli.argv ++ args.drop s.i })
  else parseCliLoop s.cli (args.drop s.i)

/-- A turn leaves with `b`, or goes on with fewer than `n` words to read and `b` ahead. -/
def Goes (fuel : Nat) (args : List CStr) (n : Nat)
    (turn : Option (Turn CliState (Sys (Option CliArgs)))) (b : Sys (Option CliArgs)) : Prop :=
  turn = some (.done b) ∨ ∃ m s', m < n ∧ turn = some (.next s') ∧
    m = (args.drop s'.i).length ∧ m < fuel ∧ b = rest args s'

/-- The loop goes on behind a word. -/
theorem goes_next {i : Nat} {words : List CStr} (h : args.drop (i + 1) = words)
    (hfuel : words.length < fuel) (cli : CliArgs) :
    Goes fuel args (words.length + 1) (some (.next ⟨cli, i + 1, false⟩))
      (parseCliLoop cli words) := by
  refine Or.inr ⟨words.length, _, Nat.lt_succ_self _, rfl, by rw [h], hfuel, ?_⟩
  simp [rest, h]

/-- What the loop does behind an option with a value. -/
def afterValue (set : CStr → CliArgs) : List CStr → Sys (Option CliArgs)
  | [] => Pure.pure none
  | v :: words => parseCliLoop (set v) words

/-- The loop goes on behind the value of an option, or ends without one. -/
theorem goes_takeValue {i : Nat} {words : List CStr} (h : args.drop (i + 1) = words)
    (hfuel : words.length < fuel) (set : CStr → CliArgs) :
    Goes fuel args (words.length + 1) (takeValue args i set) (afterValue set words) := by
  cases words with
  | nil => exact Or.inl (if_pos (List.drop_eq_nil_iff.mp h))
  | cons v words =>
      obtain ⟨hlt, hv, hdrop⟩ := drop_cons h
      rw [List.length_cons] at hfuel
      refine Or.inr ⟨words.length, ⟨set v, i + 2, false⟩, Nat.lt_succ_of_lt (Nat.lt_succ_self _),
        ?_, by rw [hdrop], by omega, by simp [rest, hdrop, afterValue]⟩
      rw [takeValue, if_neg (by omega), hv]
      rfl

/-- The first word of a command, and all behind it. -/
theorem goes_command {i : Nat} {a : CStr} {words : List CStr} (h : args.drop i = a :: words)
    (hfuel : words.length + 1 < fuel) (cli : CliArgs) :
    Goes fuel args (words.length + 1)
      ((run (copyWordsTurn args) fuel ⟨cli, i, false⟩).bind fun s => some (.next s))
      (Pure.pure (some { cli with argv := cli.argv ++ a :: words })) := by
  have hroom : (args.drop i).length < fuel := by rwa [h, List.length_cons]
  have hcopy := @run_copyWordsTurn fuel args ⟨cli, i, false⟩ hroom
  have hend : args.drop (max i args.length) = [] :=
    List.drop_eq_nil_of_le (Nat.le_max_right _ _)
  rw [hcopy]
  refine Or.inr ⟨0, _, Nat.succ_pos _, rfl, by simp [hend], by omega, ?_⟩
  simp only [rest, Bool.false_eq_true, if_false, hend, h, parseCliLoop]

theorem goes_word (hwords : ∀ a ∈ args, a.length < fuel) {cli : CliArgs} {i : Nat} {a : CStr}
    {words : List CStr} (h : args.drop i = a :: words) (hfuel : words.length + 1 < fuel) :
    Goes fuel args (words.length + 1) (cliTurn fuel args ⟨cli, i, false⟩)
      (parseCliLoop cli (a :: words)) := by
  obtain ⟨hlt, ha, hdrop⟩ := drop_cons h
  have hlen := hwords a (List.mem_of_getElem? ha)
  have hflag := goes_next hdrop (by omega : words.length < fuel)
  have hvalue := goes_takeValue hdrop (by omega : words.length < fuel)
  rw [parseCliLoop.eq_def]
  simp only [cliTurn, if_pos hlt, ha, Option.bind_eq_bind, Option.bind_some, isOption_eq hlen,
    streq_eq hlen, decide_eq_true_eq, Bool.false_eq_true, if_false]
  by_cases huser : a = cstr "-u" ∨ a = cstr "--user"
  · rw [if_pos huser, if_pos huser]
    exact hvalue (fun v => { cli with target := v })
  rw [if_neg huser, if_neg huser]
  by_cases hpolicy : a = cstr "-p" ∨ a = cstr "--policy"
  · rw [if_pos hpolicy, if_pos hpolicy]
    exact hvalue (fun v => { cli with policy := v })
  rw [if_neg hpolicy, if_neg hpolicy]
  by_cases hinvalidate : a = cstr "-k" ∨ a = cstr "--invalidate"
  · rw [if_pos hinvalidate, if_pos hinvalidate]
    exact hflag _
  rw [if_neg hinvalidate, if_neg hinvalidate]
  by_cases hlist : a = cstr "-l" ∨ a = cstr "--list"
  · rw [if_pos hlist, if_pos hlist]
    exact hflag _
  rw [if_neg hlist, if_neg hlist]
  by_cases hcheck : a = cstr "-c" ∨ a = cstr "--check"
  · rw [if_pos hcheck, if_pos hcheck]
    exact hflag _
  rw [if_neg hcheck, if_neg hcheck]
  by_cases hhelp : a = cstr "-h" ∨ a = cstr "--help"
  · rw [if_pos hhelp, if_pos hhelp]
    exact hflag _
  rw [if_neg hhelp, if_neg hhelp]
  by_cases hversion : a = cstr "-V" ∨ a = cstr "--version"
  · rw [if_pos hversion, if_pos hversion]
    exact hflag _
  rw [if_neg hversion, if_neg hversion]
  by_cases hdd : a = cstr "--"
  · -- The mode changes, and every word behind is the command's.
    rw [if_pos hdd, if_pos hdd]
    refine Or.inr ⟨words.length, _, Nat.lt_succ_self _, rfl, by rw [hdrop], by omega, ?_⟩
    simp [rest, hdrop]
  rw [if_neg hdd, if_neg hdd]
  have hfirst : chars a 0 = some (a.load8 0) := by
    rw [chars, CStr.load8]
    cases a.bytes <;> rfl
  simp only [hfirst, Option.bind_some]
  by_cases hdash : a.load8 0 = 45
  · rw [if_pos hdash, if_pos hdash]
    exact Or.inl rfl
  · rw [if_neg hdash, if_neg hdash]
    exact goes_command h hfuel cli

/-- **The loop over the indices** ends, stays within the vector and does what the loop over
the words does. -/
theorem run_cliTurn (hwords : ∀ a ∈ args, a.length < fuel) {s : CliState}
    (hfuel : (args.drop s.i).length < fuel) :
    run (cliTurn fuel args) fuel s = some (rest args s) := by
  refine run_eq (fun n (s : CliState) b => n = (args.drop s.i).length ∧ n < fuel ∧
    b = rest args s) ?_ ⟨rfl, hfuel, rfl⟩ hfuel
  intro n s b h
  obtain ⟨rfl, hturns, rfl⟩ := h
  obtain ⟨cli, i, sawDd⟩ := s
  cases hrest : args.drop i with
  | nil =>
      have hge : args.length ≤ i := List.drop_eq_nil_iff.mp hrest
      left
      cases sawDd <;> simp [cliTurn, rest, hrest, Nat.not_lt.mpr hge, parseCliLoop]
  | cons a words =>
      rw [hrest, List.length_cons] at hturns
      cases sawDd with
      | true =>
          obtain ⟨hlt, ha, hdrop⟩ := drop_cons hrest
          refine Or.inr ⟨words.length, ⟨{ cli with argv := cli.argv ++ [a] }, i + 1, true⟩,
            by simp, ?_, by rw [hdrop], by omega, by simp [rest, hrest, hdrop]⟩
          simp only [cliTurn, if_pos hlt, ha, Option.bind_eq_bind, Option.bind_some, if_true]
          rfl
      | false =>
          rw [rest, if_neg (by simp), hrest]
          exact goes_word hwords hrest hturns

end Loop

theorem parseCliFrom_eq {fuel : Nat} {args : List CStr} (hwords : ∀ a ∈ args, a.length < fuel)
    (hfuel : args.length < fuel) :
    parseCliFrom fuel args = some (Shakti.parseCliFrom args) := by
  refine (run_cliTurn hwords (s := ⟨cliNew, 1, false⟩) ?_).trans rfl
  rw [List.length_drop]
  omega

end Checked

/-- **The parser accepts exactly its grammar.** A run returns a record exactly if the words
behind the program's name have a reading, and then what the reading says; the loop over the
indices of the vector ends, stays within it and makes the same run. -/
theorem parseCliFrom_grammar (args : List CStr) :
    (∀ (tr : Trace) (r : Option CliArgs), Returns (parseCliFrom args) tr r → ∀ cli, r = some cli ↔
      ∃ opts argv, CliReading (args.drop 1) opts argv ∧ cli = cliOf opts argv) ∧
    (∀ opts argv, CliReading (args.drop 1) opts argv →
      parseCliFrom args = Pure.pure (some (cliOf opts argv))) ∧
    ∀ fuel, args.length < fuel → (∀ a ∈ args, a.length < fuel) →
      Checked.parseCliFrom fuel args = some (parseCliFrom args) := by
  have hcomplete : ∀ opts argv, CliReading (args.drop 1) opts argv →
      parseCliFrom args = Pure.pure (some (cliOf opts argv)) := by
    intro opts argv h
    obtain ⟨before, behind, hsplit, hopts, hcommand⟩ := h
    rw [parseCliFrom, hsplit, parseCliLoop_optionWords hopts,
      parseCliLoop_commandWords hcommand, foldl_set]
    rfl
  refine ⟨?_, hcomplete, fun fuel hfuel hwords => Checked.parseCliFrom_eq hwords hfuel⟩
  intro tr r h cli
  constructor
  · intro hr
    subst hr
    obtain ⟨opts, argv, hreading, rfl⟩ := returns_parseCliLoop_some h
    refine ⟨opts, argv, hreading, ?_⟩
    rw [foldl_set]
    rfl
  · intro hreading
    obtain ⟨opts, argv, hreading, rfl⟩ := hreading
    rw [hcomplete opts argv hreading] at h
    exact (returns_pure_iff.mp h).2

end Shakti
