import Shakti.ExecGate
import Shakti.Machine
import Shakti.Policy.Patterns

/-!
# Shakti.JoinedCommand

What is authorized and what is executed.

The engine is asked about one string, the words of the rewritten argument vector joined
by spaces; `execve` is handed the vector and its first word. The string forgets where a
word ends, so it stands for that vector only when no other accepted vector has the same
words once its elements are cut at their spaces (`shkJoinCommand_eq_iff`). The exact
condition is `FileView.Unambiguous`.
-/

namespace Shakti

open Effects Effects.Prog

/-! ### The joined string -/

/-- The words of an argument vector: its elements, cut at their spaces. -/
def spaceWords (argv : List CStr) : List Bytes := argv.flatMap (·.bytes.splitOn 32)

theorem splitOn_joinLoop (as : List CStr) (sb : CStr) :
    (joinLoop as sb).bytes.splitOn 32 = sb.bytes.splitOn 32 ++ spaceWords as := by
  induction as generalizing sb with
  | nil => simp [joinLoop, spaceWords]
  | cons a as ih =>
      have happend : (sb ++ cstr " " ++ a).bytes = sb.bytes ++ 32 :: a.bytes := by
        simp [show (cstr " ").bytes = [32] by decide]
      rw [joinLoop, ih, happend, List.splitOn_append_cons_self, List.append_assoc]
      rfl

/-- The joined string, cut at its spaces, is the words of the vector. -/
theorem splitOn_shkJoinCommand (a : CStr) (as : List CStr) :
    (shkJoinCommand (a :: as)).bytes.splitOn 32 = spaceWords (a :: as) :=
  splitOn_joinLoop as a

theorem bytes_of_splitOn {b : Bytes} {ws : List Bytes} (h : b.splitOn 32 = ws) :
    b = List.intercalate [32] ws := by
  rw [← h, List.intercalate_splitOn]

/-- **What the join keeps of a vector** is its words. -/
theorem shkJoinCommand_eq_iff {a a' : CStr} {as as' : List CStr} :
    shkJoinCommand (a :: as) = shkJoinCommand (a' :: as') ↔
      spaceWords (a :: as) = spaceWords (a' :: as') := by
  rw [← splitOn_shkJoinCommand, ← splitOn_shkJoinCommand]
  constructor
  · intro h
    rw [h]
  · intro h
    exact CStr.ext ((bytes_of_splitOn h).trans (List.intercalate_splitOn 32))

theorem bytes_joinLoop (as : List CStr) (sb : CStr) :
    (joinLoop as sb).bytes = sb.bytes ++ as.flatMap (fun a => 32 :: a.bytes) := by
  induction as generalizing sb with
  | nil => simp [joinLoop]
  | cons a as ih => simp [joinLoop, ih, show (cstr " ").bytes = [32] by decide]

theorem bytes_shkJoinCommand (a : CStr) (as : List CStr) :
    (shkJoinCommand (a :: as)).bytes = a.bytes ++ as.flatMap (fun a => 32 :: a.bytes) :=
  bytes_joinLoop as a

theorem foldl_length (as : List CStr) (n : Nat) :
    as.foldl (fun total a => total + a.length) n + as.length =
      n + (as.flatMap (fun a => 32 :: a.bytes)).length := by
  induction as generalizing n with
  | nil => rfl
  | cons a as ih =>
      have hrest := ih (n + a.length)
      simp only [List.foldl_cons, List.flatMap_cons, List.length_append, List.length_cons,
        CStr.length] at hrest ⊢
      omega

/-- What `validate_command` bounds is the length of the joined string, and one more. -/
theorem commandLength_eq (a : CStr) (as : List CStr) :
    commandLength (a :: as) = (shkJoinCommand (a :: as)).length + 1 := by
  have hfold := foldl_length (a :: as) (a :: as).length
  rw [commandLength, CStr.length, bytes_shkJoinCommand]
  simp only [List.flatMap_cons, List.length_append, List.length_cons] at hfold ⊢
  omega

/-- The binary portion of a command whose first word has no space is that word. -/
theorem binPortion_shkJoinCommand_iff {path : CStr} {args : List CStr} :
    binPortion (shkJoinCommand (path :: args)) = path.bytes ↔ 32 ∉ path.bytes := by
  constructor
  · intro h hmem
    rw [← h] at hmem
    simpa using List.mem_takeWhile_imp hmem
  · intro h
    rw [binPortion, bytes_shkJoinCommand]
    cases args with
    | nil =>
        rw [List.flatMap_nil, List.append_nil, List.takeWhile_eq_self_iff]
        intro x hx
        simpa using ne_of_mem_of_not_mem hx h
    | cons a as =>
        rw [List.flatMap_cons, List.cons_append]
        exact Scan.takeWhile_ne_append h _

/-! ### The vector that is executed -/

/-- `_is_executable` of a file of the machine. -/
def FileView.isExecutable (v : FileView) (path : CStr) : Bool :=
  match v.stat path with
  | none => false
  | some st => decide (st.mode &&& sIfmt = sIfreg) && decide (st.mode &&& 73 ≠ 0)

theorem FileView.returns_isExecutable {v : FileView} {path : CStr} {tr : Trace} {b : Bool}
    (hv : ∀ e ∈ tr, v.Answers e) (h : Returns (Shakti.isExecutable path) tr b) :
    b = v.isExecutable path := by
  obtain ⟨st, tr', rfl, hrest⟩ := returns_ask_bind_iff.mp h
  have hst : st = v.stat path := hv _ (List.mem_cons_self ..)
  rw [FileView.isExecutable, ← hst]
  cases st with
  | none => exact (returns_pure_iff.mp hrest).2
  | some st => exact (returns_pure_iff.mp hrest).2

theorem fileOnly_isExecutable (path : CStr) : FileOnly (Shakti.isExecutable path) := by
  refine ⟨fun h => h, fun st => ?_⟩
  cases st <;> exact trivial

/-- On the machine, `resolve_command(cmd)` finds `path`. -/
def FileView.Resolves (v : FileView) (cmd path : CStr) : Prop :=
  ∃ tr n buf, (∀ e ∈ tr, v.Answers e) ∧
    Returns (resolveCommand cmd [] 4096) tr (.ok n, buf) ∧ path = CStr.read buf

theorem CStr.read_append_nul (s : CStr) (b : Bytes) : CStr.read (s.bytes ++ [0] ++ b) = s := by
  refine CStr.ext ?_
  rw [List.append_assoc]
  exact Scan.takeWhile_ne_append s.noNul b

/-- What the search through directories finds is executable, fits the buffer, and is the name
in one of the directories. -/
theorem FileView.returns_resolveInPath {v : FileView} {cmd : CStr} {segs : List Bytes}
    (hsegs : ∀ seg ∈ segs, (0 : UInt8) ∉ seg) {out buf : Bytes} {tr : Trace} {n : Nat}
    (hv : ∀ e ∈ tr, v.Answers e) (h : Returns (resolveInPath cmd 4096 segs out) tr (.ok n, buf)) :
    v.isExecutable (CStr.read buf) = true ∧ (CStr.read buf).length + 1 ≤ 4096 ∧
      ∃ seg ∈ segs, (CStr.read buf).bytes = seg ++ 47 :: cmd.bytes := by
  induction segs generalizing out tr with
  | nil => simpa using (returns_pure_iff.mp h).2
  | cons seg segs ih =>
      have hrest := fun s hs => hsegs s (List.mem_cons_of_mem _ hs)
      have hlater : (v.isExecutable (CStr.read buf) = true ∧ (CStr.read buf).length + 1 ≤ 4096 ∧
            ∃ seg ∈ segs, (CStr.read buf).bytes = seg ++ 47 :: cmd.bytes) →
          v.isExecutable (CStr.read buf) = true ∧ (CStr.read buf).length + 1 ≤ 4096 ∧
            ∃ s ∈ seg :: segs, (CStr.read buf).bytes = s ++ 47 :: cmd.bytes := by
        intro hresolves
        obtain ⟨hx, hfits, s, hs, hpath⟩ := hresolves
        exact ⟨hx, hfits, s, List.mem_cons_of_mem _ hs, hpath⟩
      rw [resolveInPath] at h
      split at h
      · exact hlater (ih hrest hv h)
      split at h
      · simpa using (returns_pure_iff.mp h).2
      case isFalse hcap =>
        obtain ⟨t₁, tr₁, exe, rfl, hexe, h⟩ := returns_bind_iff.mp h
        have hv₁ := fun e he => hv e (List.mem_append_left _ he)
        have hv₂ := fun e he => hv e (List.mem_append_right _ he)
        obtain rfl := returns_isExecutable hv₁ hexe
        split at h
        case isTrue hx =>
          obtain ⟨-, heq⟩ := returns_pure_iff.mp h
          cases heq
          -- The candidate has no NUL in it, so it is read back whole from the front of the buffer.
          let cand : CStr := ⟨seg ++ [47] ++ cmd.bytes, by
            simpa using ⟨hsegs seg (List.mem_cons_self ..), cmd.noNul⟩⟩
          have hread := CStr.read_append_nul cand (out.drop (cand.bytes.length + 1))
          refine ⟨hx, ?_, seg, List.mem_cons_self .., ?_⟩
          · rw [hread]
            simp only [CStr.length, cand, List.length_append, List.length_singleton] at hcap ⊢
            omega
          · rw [hread]
            simp [cand]
        case isFalse => exact hlater (ih hrest hv₂ h)

/-- What a name resolves to: itself, when it is absolute, else the name in one of the
directories. -/
theorem FileView.Resolves.cases {v : FileView} {cmd path : CStr} (h : v.Resolves cmd path) :
    v.isExecutable path = true ∧ path.length + 1 ≤ 4096 ∧
      (cmd.load8 0 = 47 ∧ path = cmd ∨ cmd.load8 0 ≠ 47 ∧
        ∃ seg ∈ shkPath.bytes.splitOn 58, path.bytes = seg ++ 47 :: cmd.bytes) := by
  obtain ⟨tr, n, buf, hv, hret, rfl⟩ := h
  unfold resolveCommand at hret
  split at hret
  · simpa using (returns_pure_iff.mp hret).2
  split at hret
  case isTrue hslash =>
    obtain ⟨t₁, tr₁, exe, rfl, hexe, hret⟩ := returns_bind_iff.mp hret
    obtain rfl := returns_isExecutable (fun e he => hv e (List.mem_append_left _ he)) hexe
    split at hret
    · simpa using (returns_pure_iff.mp hret).2
    case isFalse hx =>
      split at hret
      · simpa using (returns_pure_iff.mp hret).2
      case isFalse hcap =>
        obtain ⟨-, heq⟩ := returns_pure_iff.mp hret
        cases heq
        rw [CStr.read_append_nul]
        exact ⟨by simpa using hx, Nat.le_of_not_lt hcap, Or.inl ⟨hslash, rfl⟩⟩
  case isFalse hrel =>
    split at hret
    · simpa using (returns_pure_iff.mp hret).2
    · obtain ⟨hx, hfits, hseg⟩ := returns_resolveInPath (by decide) hv hret
      exact ⟨hx, hfits, Or.inr ⟨hrel, hseg⟩⟩

/-- A resolved path starts with a slash. -/
theorem FileView.Resolves.absolute {v : FileView} {cmd path : CStr} (h : v.Resolves cmd path) :
    ∃ rest, path.bytes = 47 :: rest := by
  rcases h.cases.2.2 with ⟨hslash, rfl⟩ | ⟨-, seg, hseg, hpath⟩
  · cases hb : path.bytes with
    | nil => simp [CStr.load8, hb] at hslash
    | cons c cs =>
        obtain rfl : c = 47 := by simpa [CStr.load8, hb] using hslash
        exact ⟨cs, rfl⟩
  · have hsegs : ∀ seg ∈ shkPath.bytes.splitOn 58, seg.head? = some 47 := by decide
    cases hb : seg with
    | nil => exact absurd (hsegs [] (hb ▸ hseg)) (by simp)
    | cons c cs =>
        obtain rfl : c = 47 := by simpa using hsegs (c :: cs) (hb ▸ hseg)
        exact ⟨cs ++ 47 :: cmd.bytes, by rw [hpath, hb]; rfl⟩

/-- A resolved path has a slash and is executable. -/
theorem FileView.Resolves.spec {v : FileView} {cmd path : CStr} (h : v.Resolves cmd path) :
    47 ∈ path.bytes ∧ v.isExecutable path = true := by
  obtain ⟨rest, hpath⟩ := h.absolute
  exact ⟨by simp [hpath], h.cases.1⟩

/-- An absolute path that is executable is found as it stands. -/
theorem FileView.resolves_absolute {v : FileView} {cmd : CStr} (hslash : cmd.load8 0 = 47)
    (hx : v.isExecutable cmd = true) (hlen : cmd.length + 1 ≤ 4096) : v.Resolves cmd cmd := by
  have hne : cmd.length ≠ 0 := by
    intro h
    rw [CStr.load8, List.eq_nil_of_length_eq_zero h] at hslash
    simp at hslash
  obtain ⟨tr, b, hv, hret⟩ := v.exists_returns (fileOnly_isExecutable cmd)
  obtain rfl : b = true := (returns_isExecutable hv hret).trans hx
  refine ⟨tr, cmd.length, cmd.bytes ++ [0] ++ List.drop (cmd.length + 1) [], hv, ?_,
    (CStr.read_append_nul cmd _).symm⟩
  rw [resolveCommand, if_neg hne, if_pos hslash]
  refine returns_bind_iff.mpr ⟨tr, [], true, by simp, hret, ?_⟩
  have hfits : ¬ 4096 < cmd.length + 1 := by omega
  simp only [Bool.not_true, Bool.false_eq_true, if_false, if_neg hfits]
  exact returns_pure_iff.mpr ⟨rfl, rfl⟩

/-- `evaluate_with_policy` accepts the command `cmd` with the arguments `args` and
rewrites its first word to `path`. -/
structure FileView.Rewrites (v : FileView) (maxLen : Nat) (cmd path : CStr)
    (args : List CStr) : Prop where
  accepted : validateCommand (cmd :: args) maxLen = .ok
  resolved : v.Resolves cmd path

/-- Some accepted command is rewritten to the vector. -/
def FileView.Executes (v : FileView) (maxLen : Nat) (argv : List CStr) : Prop :=
  ∃ cmd path args, argv = path :: args ∧ v.Rewrites maxLen cmd path args

/-- What the gate lets through to `execve` is such a vector, with its path. -/
theorem ExecGate.executes {v : FileView} {args : List CStr} {ctx : ExecContext} {tr : Trace}
    {path : CStr} {argv : List CStr} (h : ExecGate args ctx tr path argv)
    (hv : ∀ e ∈ tr, v.Answers e) :
    ∃ cmd rest, argv = path :: rest ∧
      v.Rewrites ctx.policy.defaults.maxCommandLen cmd path rest := by
  obtain ⟨n, buf, ⟨mid, hmid, hret⟩, hpath, hargv⟩ := h.resolved
  cases hcmd : ctx.cli.argv with
  | nil => exact absurd h.commandValid (by simp [hcmd, validateCommand])
  | cons cmd rest =>
      rw [hcmd] at hret
      exact ⟨cmd, rest, by rw [hargv, hcmd, List.set_cons_zero],
        hcmd ▸ h.commandValid, mid, n, buf, fun e he => hv e (hmid.subset he), hret, hpath⟩

/-- Moving the boundaries between the words leaves a command accepted. -/
theorem FileView.Rewrites.rejoin {v : FileView} {maxLen : Nat} {cmd path : CStr}
    {args args' : List CStr} (h : v.Rewrites maxLen cmd path args)
    (hjoin : shkJoinCommand (path :: args') = shkJoinCommand (path :: args)) :
    v.Rewrites maxLen cmd path args' where
  resolved := h.resolved
  accepted := by
    have hargs : args'.flatMap (fun a => 32 :: a.bytes) =
        args.flatMap (fun a => 32 :: a.bytes) := by
      have hbytes := congrArg CStr.bytes hjoin
      rwa [bytes_shkJoinCommand, bytes_shkJoinCommand, List.append_right_inj] at hbytes
    have hlen : commandLength (cmd :: args') = commandLength (cmd :: args) := by
      rw [commandLength_eq, commandLength_eq, CStr.length, CStr.length, bytes_shkJoinCommand,
        bytes_shkJoinCommand, hargs]
    simpa only [validateCommand, hlen] using h.accepted

/-! ### Authorizing and executing -/

/-- **What is authorized is what is executed**, for the vector `path :: args`. -/
structure FileView.Faithful (v : FileView) (maxLen : Nat) (path : CStr) (args : List CStr) :
    Prop where
  /-- No other vector gives the same string. -/
  determined : ∀ argv, v.Executes maxLen argv →
    shkJoinCommand argv = shkJoinCommand (path :: args) → argv = path :: args
  /-- The binary portion is the path handed to `execve`. -/
  binary : binPortion (shkJoinCommand (path :: args)) = path.bytes
  /-- A path pattern that authorizes the vector authorizes no other. -/
  exact : ∀ p : CStr, p.NamesPath → commandMatches (shkJoinCommand (path :: args)) p = true →
    ∀ argv, v.Executes maxLen argv → commandMatches (shkJoinCommand argv) p = true →
      argv = path :: args
  /-- A directory pattern authorizes it only when the directory is the path's parent. -/
  directory : ∀ (p : CStr) (dir : Bytes), p.IsDirectory dir →
    commandMatches (shkJoinCommand (path :: args)) p = true →
      ∃ base, path.bytes = dir ++ 47 :: base ∧ 47 ∉ base
  /-- A basename pattern authorizes it only when it is the path's basename. -/
  basename : ∀ p : CStr, p.IsBasename →
    commandMatches (shkJoinCommand (path :: args)) p = true →
      ∃ dir, path.bytes = dir ++ 47 :: p.bytes

/-- The path has no space, and it is followed by no argument, or by one without a space
that does not end in `/*`, where no accepted command is rewritten to the path, a space
and that argument as one word. -/
structure FileView.Unambiguous (v : FileView) (maxLen : Nat) (path : CStr)
    (args : List CStr) : Prop where
  path_noSpace : 32 ∉ path.bytes
  args_plain : args = [] ∨ ∃ a, args = [a] ∧ 32 ∉ a.bytes ∧ ¬ [47, 42] <:+ a.bytes ∧
    ¬ v.Executes maxLen [path ++ cstr " " ++ a]

theorem spaceWords_cons (a : CStr) (as : List CStr) :
    spaceWords (a :: as) = a.bytes.splitOn 32 ++ spaceWords as :=
  List.flatMap_cons

theorem spaceWords_eq_nil_iff {as : List CStr} : spaceWords as = [] ↔ as = [] := by
  cases as with
  | nil => simp [spaceWords]
  | cons a as => simp [spaceWords_cons, List.splitOn_ne_nil]

/-- A vector whose only word is `w` is `[w]`. -/
theorem spaceWords_eq_singleton {as : List CStr} {w : CStr} (h : spaceWords as = [w.bytes]) :
    as = [w] := by
  cases as with
  | nil => simp [spaceWords] at h
  | cons a as =>
      rw [spaceWords_cons, List.append_eq_singleton_iff] at h
      rcases h with ⟨hnil, -⟩ | ⟨hone, hrest⟩
      · exact absurd hnil (List.splitOn_ne_nil _ _)
      · have ha : a.bytes = w.bytes := by
          rw [bytes_of_splitOn hone, List.intercalate_singleton]
        rw [spaceWords_eq_nil_iff.mp hrest, CStr.ext ha]

/-- A vector whose words are `w` and `x` has them as its elements, or as one. -/
theorem spaceWords_eq_pair {as : List CStr} {w x : CStr}
    (h : spaceWords as = [w.bytes, x.bytes]) :
    as = [w, x] ∨ as = [w ++ cstr " " ++ x] := by
  cases as with
  | nil => simp [spaceWords] at h
  | cons a as =>
      rw [spaceWords_cons] at h
      rcases List.append_eq_cons_iff.mp h with ⟨hnil, -⟩ | ⟨ws, hw, hx⟩
      · exact absurd hnil (List.splitOn_ne_nil _ _)
      · rcases List.append_eq_singleton_iff.mp hx.symm with ⟨rfl, hrest⟩ | ⟨rfl, hrest⟩
        · have ha : [a] = [w] := spaceWords_eq_singleton (by simpa [spaceWords] using hw)
          rw [spaceWords_eq_singleton hrest, (List.cons.inj ha).1]
          exact Or.inl rfl
        · have ha : a = w ++ cstr " " ++ x := by
            refine CStr.ext ?_
            rw [bytes_of_splitOn hw, List.intercalate_cons_cons, List.intercalate_singleton]
            simp [show (cstr " ").bytes = [32] by decide]
          rw [spaceWords_eq_nil_iff.mp hrest, ha]
          exact Or.inr rfl

/-- An unambiguous vector is the only one with its string. -/
theorem FileView.Unambiguous.determined {v : FileView} {maxLen : Nat} {path : CStr}
    {args : List CStr} (h : v.Unambiguous maxLen path args) {argv : List CStr}
    (hex : v.Executes maxLen argv)
    (hjoin : shkJoinCommand argv = shkJoinCommand (path :: args)) : argv = path :: args := by
  obtain ⟨cmd, path', args', rfl, hrw⟩ := hex
  have hwords := shkJoinCommand_eq_iff.mp hjoin
  rw [spaceWords_cons path, List.splitOn_eq_singleton h.path_noSpace] at hwords
  rcases h.args_plain with rfl | ⟨a, rfl, ha, -, hnone⟩
  · exact spaceWords_eq_singleton hwords
  · have hword : spaceWords [a] = [a.bytes] := by simp [spaceWords, List.splitOn_eq_singleton ha]
    rw [hword] at hwords
    rcases spaceWords_eq_pair hwords with htwo | hone
    · exact htwo
    · exact absurd ⟨cmd, path', args', hone.symm, hrw⟩ hnone

/-- The joined string ends in `/*` only when the path does, or the last argument. -/
theorem FileView.Unambiguous.args_nil_of_directory {v : FileView} {maxLen : Nat} {path : CStr}
    {args : List CStr} (h : v.Unambiguous maxLen path args) {dir : Bytes}
    (heq : (shkJoinCommand (path :: args)).bytes = dir ++ [47, 42]) : args = [] := by
  rcases h.args_plain with rfl | ⟨a, rfl, -, hend, -⟩
  · rfl
  · have hjoin : path.bytes ++ 32 :: a.bytes = dir ++ [47, 42] := by
      simpa [bytes_shkJoinCommand] using heq
    have hsuf : [47, 42] <:+ path.bytes ++ 32 :: a.bytes := ⟨dir, hjoin.symm⟩
    have hlast : a.bytes <:+ path.bytes ++ 32 :: a.bytes := ⟨path.bytes ++ [32], by simp⟩
    match ha : a.bytes with
    | [] =>
        rw [ha] at hsuf
        obtain ⟨pre, hpre⟩ := hsuf
        simpa using congrArg List.getLast? hpre
    | [x] =>
        rw [ha] at hsuf
        obtain ⟨pre, hpre⟩ := hsuf
        have := (List.append_inj' hpre rfl).2
        simp at this
    | x :: y :: rest =>
        exact absurd (List.suffix_of_suffix_length_le hsuf hlast (by simp [ha])) hend

/-- Only a string that stands for one vector is faithful to it. -/
theorem FileView.Faithful.unambiguous {v : FileView} {maxLen : Nat} {cmd path : CStr}
    {args : List CStr} (hf : v.Faithful maxLen path args) (h : v.Rewrites maxLen cmd path args) :
    v.Unambiguous maxLen path args := by
  have hspace := binPortion_shkJoinCommand_iff.mp hf.binary
  -- Another accepted vector with the same string is this one.
  have hsame : ∀ args', (args'.flatMap fun a => 32 :: a.bytes) =
      args.flatMap (fun a => 32 :: a.bytes) → args' = args := by
    intro args' hargs
    have hjoin : shkJoinCommand (path :: args') = shkJoinCommand (path :: args) :=
      CStr.ext (by rw [bytes_shkJoinCommand, bytes_shkJoinCommand, hargs])
    exact (List.cons.inj (hf.determined _ ⟨cmd, path, args', rfl, h.rejoin hjoin⟩ hjoin)).2
  refine ⟨hspace, ?_⟩
  cases args with
  | nil => exact Or.inl rfl
  | cons a rest =>
      cases rest with
      | cons b rest =>
          have hglued := hsame ((a ++ cstr " " ++ b) :: rest)
            (by simp [show (cstr " ").bytes = [32] by decide])
          simp at hglued
      | nil =>
          refine Or.inr ⟨a, rfl, ?_, ?_, ?_⟩
          · intro hmem
            obtain ⟨d, e, hde⟩ := List.append_of_mem hmem
            have hd : (0 : UInt8) ∉ d := fun h0 => a.noNul (hde ▸ List.mem_append_left _ h0)
            have he : (0 : UInt8) ∉ e := fun h0 =>
              a.noNul (hde ▸ List.mem_append_right _ (List.mem_cons_of_mem _ h0))
            have hcut := hsame [⟨d, hd⟩, ⟨e, he⟩] (by simp [hde])
            simp at hcut
          · intro hstar
            obtain ⟨d, hd⟩ := hstar
            -- The string itself is a directory pattern, of a directory longer than the path.
            have hdir : (shkJoinCommand [path, a]).IsDirectory (path.bytes ++ 32 :: d) := by
              simp [CStr.IsDirectory, bytes_shkJoinCommand, ← hd]
            obtain ⟨base, hpath, -⟩ := hf.directory _ _ hdir
              ((commandMatches_directory hdir).mpr (Or.inl rfl))
            have hlen := congrArg List.length hpath
            simp at hlen
          · intro hex
            have hone := hf.determined _ hex
              (CStr.ext (by simp [bytes_shkJoinCommand, show (cstr " ").bytes = [32] by decide]))
            simp at hone

/-- A string that stands for one vector is faithful to it. -/
theorem FileView.Unambiguous.faithful {v : FileView} {maxLen : Nat} {cmd path : CStr}
    {args : List CStr} (hu : v.Unambiguous maxLen path args)
    (h : v.Rewrites maxLen cmd path args) : v.Faithful maxLen path args := by
  have hbin : binPortion (shkJoinCommand (path :: args)) = path.bytes :=
    binPortion_shkJoinCommand_iff.mpr hu.path_noSpace
  refine ⟨fun argv => hu.determined, hbin, ?_, ?_, ?_⟩
  · intro p hp hmatch argv hex hmatch'
    rw [commandMatches_namesPath hp] at hmatch hmatch'
    exact hu.determined hex (hmatch'.trans hmatch.symm)
  · intro p dir hp hmatch
    rw [commandMatches_directory hp, hbin] at hmatch
    rcases hmatch with hself | hbase
    · have heq : (shkJoinCommand (path :: args)).bytes = dir ++ [47, 42] := hself ▸ hp
      obtain rfl := hu.args_nil_of_directory heq
      exact ⟨[42], by simpa [bytes_shkJoinCommand] using heq, by decide⟩
    · exact hbase
  · intro p hp hmatch
    have hslash := h.resolved.spec.1
    rw [commandMatches_basename hp, hbin] at hmatch
    rcases hmatch with hself | hwhole | hbase
    · refine absurd ?_ hp.noSlash
      rw [← hself, bytes_shkJoinCommand]
      exact List.mem_append_left _ hslash
    · exact absurd (hwhole ▸ hslash) hp.noSlash
    · exact hbase

/-- **Authorized and executed.** For every accepted command whose first word is resolved,
the joined string stands for the vector that is executed, and its patterns for what they
name, exactly when the vector is unambiguous. -/
theorem shkJoinCommand_faithful_iff {v : FileView} {maxLen : Nat} {cmd path : CStr}
    {args : List CStr} (h : v.Rewrites maxLen cmd path args) :
    v.Faithful maxLen path args ↔ v.Unambiguous maxLen path args :=
  ⟨fun hf => hf.unambiguous h, fun hu => hu.faithful h⟩

/-- A machine with `/bin/rm` and a program in a directory with a space in its name. -/
def rmFiles : FileView :=
  rootFiles [(cstr "/bin/rm", 493, []), (cstr "/srv/my app/run", 493, [])]

/-- `/bin/rm /tmp/x`, with one argument, is faithful. -/
theorem shkJoinCommand_faithful_rm :
    rmFiles.Faithful 4096 (cstr "/bin/rm") [cstr "/tmp/x"] := by
  have hrm : rmFiles.Rewrites 4096 (cstr "/bin/rm") (cstr "/bin/rm") [cstr "/tmp/x"] :=
    ⟨by decide, FileView.resolves_absolute (by decide) (by decide) (by decide)⟩
  refine (shkJoinCommand_faithful_iff hrm).mpr
    ⟨by decide, Or.inr ⟨_, rfl, by decide, by decide, ?_⟩⟩
  intro hex
  obtain ⟨cmd, path, args, heq, hrw⟩ := hex
  have hx := hrw.resolved.spec.2
  rw [← (List.cons.inj heq).1] at hx
  exact absurd hx (by decide)

/-- Removing two files and removing one with a space in its name are the same string; and
`/srv/*` authorizes a program that stands in `/srv/my app`. -/
theorem shkJoinCommand_confused :
    rmFiles.Rewrites 4096 (cstr "/bin/rm") (cstr "/bin/rm") [cstr "/a", cstr "b"] ∧
      rmFiles.Rewrites 4096 (cstr "/bin/rm") (cstr "/bin/rm") [cstr "/a b"] ∧
      [cstr "/bin/rm", cstr "/a", cstr "b"] ≠ [cstr "/bin/rm", cstr "/a b"] ∧
      shkJoinCommand [cstr "/bin/rm", cstr "/a", cstr "b"] =
        shkJoinCommand [cstr "/bin/rm", cstr "/a b"] ∧
      rmFiles.Rewrites 4096 (cstr "/srv/my app/run") (cstr "/srv/my app/run") [] ∧
      binPortion (shkJoinCommand [cstr "/srv/my app/run"]) = utf8 "/srv/my" ∧
      commandMatches (shkJoinCommand [cstr "/srv/my app/run"]) (cstr "/srv/*") = true := by
  have hrm : rmFiles.Resolves (cstr "/bin/rm") (cstr "/bin/rm") :=
    FileView.resolves_absolute (by decide) (by decide) (by decide)
  exact ⟨⟨by decide, hrm⟩, ⟨by decide, hrm⟩, by decide, by decide,
    ⟨by decide, FileView.resolves_absolute (by decide) (by decide) (by decide)⟩,
    by decide, by decide⟩

end Shakti
