import Shakti.Alterations
import Shakti.CredentialCache
import Shakti.Lib.Pool
import Shakti.Passwd

/-!
# Shakti.EarnedTimestamps

A timestamp that lets a run through was earned with a password.

Any number of users start `shk_run` any number of times; the processes and their children make
their calls in any order, while the clock runs, and nobody else makes a file in the directory of
the timestamps. Every file there was then stamped by a run that had accepted a password of the user
it is named after (`Stamped`), and so was the one that spares a run the password.
-/

namespace Shakti

open Effects

/-! ### Invocations that share the directory -/

/-- What the kernel answers, and what becomes of the directory. What is opened below a directory's
descriptor is a session log, and those are elsewhere. -/
def CacheDir.Serves (dir : CacheDir) : Event sysSig → CacheDir → Prop
  | ⟨.lstat path, r⟩, dir' => dir' = dir ∧ r = dir.entry path
  | ⟨.clockGettime, r⟩, dir' => dir' = dir ∧ ∀ now, r = some now → now = dir.clock
  | ⟨.mkdir path _, r⟩, dir' =>
      (r < 0 ∧ dir' = dir) ∨
        (0 ≤ r ∧ ∃ st, st.mode &&& sIfmt = sIfdir ∧ dir' = dir.bind path (some st))
  | ⟨.open path flags mode, fd⟩, dir' =>
      dir' = if fd < 0 ∨ ¬ Making flags then dir else dir.bind path (some (dir.touched path mode))
  | ⟨.unlink path, r⟩, dir' => dir' = if r < 0 then dir else dir.bind path none
  | ⟨.fork, r⟩, dir' => dir' = dir ∧ r < 0
  | _, dir' => dir' = dir

/-- The invocations of `shk_run`. Beside them the clock runs, and a timestamp may be removed. -/
def invocations : Shared sysSig CacheDir Int where
  answers dir c r dir' := dir.Serves ⟨c, r⟩ dir'
  other dir dir' := dir.clock ≤ dir'.clock ∧
    ∀ path, InTimestampDir path → dir'.entry path = dir.entry path ∨ dir'.entry path = none
  starts p := ∃ fuel args, p = shkRun fuel args
  forks
    | .fork, pid, child => 0 < pid ∧ child = 0
    | _, _, _ => False

/-- The file was made or emptied when the clock showed this. -/
def StampedAt (path : CStr) (time : Int) (m : Moment sysSig CacheDir) : Prop :=
  m.state.clock = time ∧ ∃ flags mode, ∃ fd : Int, Making flags ∧ 0 ≤ fd ∧
    m.event = ⟨.open path flags mode, fd⟩

/-- A regular file. -/
def Stat.Regular (st : Stat) : Prop := st.mode &&& sIfmt = sIfreg

/-- The directory, and what was done to it. -/
structure Accounted (dir : CacheDir) (done : Set (Moment sysSig CacheDir)) : Prop where
  /-- Every file in the directory was stamped when its time says. -/
  files : ∀ path st, InTimestampDir path → dir.entry path = some st → st.Regular →
    st.mtime ≤ dir.clock ∧ ∃ m ∈ done, StampedAt path st.mtime m
  /-- So was every file that was seen there. -/
  seen : ∀ m ∈ done, ∀ path st, InTimestampDir path → m.event = ⟨.lstat path, some st⟩ →
    st.Regular → st.mtime ≤ m.state.clock ∧ ∃ m' ∈ done, StampedAt path st.mtime m'
  /-- The clock was read as it was. -/
  clocks : ∀ m ∈ done, ∀ now, m.event = ⟨.clockGettime, some now⟩ → now = m.state.clock

variable {dir dir' : CacheDir} {done : Set (Moment sysSig CacheDir)}

/-- What becomes of the directory: a file is stamped, a directory is made, or an entry goes. -/
theorem CacheDir.Serves.changes {e : Event sysSig} (h : dir.Serves e dir') :
    dir' = dir ∨ ∃ path,
      (∃ flags mode, ∃ fd : Int, Making flags ∧ 0 ≤ fd ∧ e = ⟨.open path flags mode, fd⟩ ∧
        dir' = dir.bind path (some (dir.touched path mode))) ∨
      (∃ st, st.mode &&& sIfmt = sIfdir ∧ dir' = dir.bind path (some st)) ∨
      dir' = dir.bind path none := by
  obtain ⟨c, r⟩ := e
  cases c with
  | lstat path => exact Or.inl h.1
  | clockGettime => exact Or.inl h.1
  | fork => exact Or.inl h.1
  | mkdir path mode =>
      rcases h with ⟨-, rfl⟩ | ⟨-, st, hst, rfl⟩
      · exact Or.inl rfl
      · exact Or.inr ⟨path, Or.inr (Or.inl ⟨st, hst, rfl⟩)⟩
  | «open» path flags mode =>
      change dir' = if (r : Int) < 0 ∨ ¬ Making flags then dir
        else dir.bind path (some (dir.touched path mode)) at h
      split at h
      · exact Or.inl h
      · rename_i hmade
        obtain ⟨hopened, hmaking⟩ := not_or.mp hmade
        exact Or.inr ⟨path, Or.inl ⟨flags, mode, r, not_not.mp hmaking, not_lt.mp hopened, rfl, h⟩⟩
  | unlink path =>
      change dir' = if (r : Int) < 0 then dir else dir.bind path none at h
      split at h
      · exact Or.inl h
      · exact Or.inr ⟨path, Or.inr (Or.inr h)⟩
  | _ => exact Or.inl h

theorem CacheDir.Serves.clock {e : Event sysSig} (h : dir.Serves e dir') :
    dir'.clock = dir.clock := by
  rcases h.changes with rfl | ⟨path, ⟨_, _, _, -, -, -, rfl⟩ | ⟨_, -, rfl⟩ | rfl⟩ <;> rfl

theorem CacheDir.touched_mtime (dir : CacheDir) (path : CStr) (mode : Nat) :
    (dir.touched path mode).mtime = dir.clock := by
  unfold CacheDir.touched
  cases dir.entry path <;> rfl

/-- Every call keeps the account. -/
theorem Accounted.answered (h : Accounted dir done) {e : Event sysSig}
    (hans : dir.Serves e dir') : Accounted dir' (insert ⟨dir, e⟩ done) where
  files p st hp hentry hst := by
    have hold : dir.entry p = some st →
        st.mtime ≤ dir'.clock ∧ ∃ m ∈ insert ⟨dir, e⟩ done, StampedAt p st.mtime m := by
      intro hentry
      obtain ⟨hle, m, hm, hstamped⟩ := h.files p st hp hentry hst
      exact ⟨hans.clock ▸ hle, m, Set.mem_insert_of_mem _ hm, hstamped⟩
    rcases hans.changes with rfl | ⟨path, hchange⟩
    · exact hold hentry
    by_cases hpath : p = path
    · subst hpath
      rcases hchange with ⟨flags, mode, fd, hmaking, hfd, rfl, rfl⟩ | ⟨made, hdir, rfl⟩ | rfl
      · -- The file that was stamped just now.
        obtain rfl := Option.some.inj ((if_pos rfl).symm.trans hentry)
        rw [CacheDir.touched_mtime]
        exact ⟨le_rfl, _, Set.mem_insert _ _, rfl, flags, mode, fd, hmaking, hfd, rfl⟩
      · obtain rfl := Option.some.inj ((if_pos rfl).symm.trans hentry)
        rw [Stat.Regular, hdir] at hst
        exact absurd hst (by decide)
      · cases (if_pos rfl).symm.trans hentry
    · refine hold ?_
      rcases hchange with ⟨_, _, _, -, -, -, rfl⟩ | ⟨_, -, rfl⟩ | rfl <;>
        exact (if_neg hpath).symm.trans hentry
  seen m hm path st hp hevent hst := by
    rcases Set.mem_insert_iff.mp hm with rfl | hm
    · obtain rfl : e = ⟨.lstat path, some st⟩ := hevent
      obtain ⟨hle, m', hm', hstamped⟩ := h.files path st hp hans.2.symm hst
      exact ⟨hle, m', Set.mem_insert_of_mem _ hm', hstamped⟩
    · obtain ⟨hle, m', hm', hstamped⟩ := h.seen m hm path st hp hevent hst
      exact ⟨hle, m', Set.mem_insert_of_mem _ hm', hstamped⟩
  clocks m hm now hevent := by
    rcases Set.mem_insert_iff.mp hm with rfl | hm
    · obtain rfl : e = ⟨.clockGettime, some now⟩ := hevent
      exact hans.2 now rfl
    · exact h.clocks m hm now hevent

/-- So does a fork, which says nothing about files. -/
theorem Accounted.forked (h : Accounted dir done) (r : Int) :
    Accounted dir (insert ⟨dir, ⟨.fork, r⟩⟩ done) where
  files p st hp hentry hst := by
    obtain ⟨hle, m, hm, hstamped⟩ := h.files p st hp hentry hst
    exact ⟨hle, m, Set.mem_insert_of_mem _ hm, hstamped⟩
  seen m hm path st hp hevent hst := by
    rcases Set.mem_insert_iff.mp hm with rfl | hm
    · cases hevent
    · obtain ⟨hle, m', hm', hstamped⟩ := h.seen m hm path st hp hevent hst
      exact ⟨hle, m', Set.mem_insert_of_mem _ hm', hstamped⟩
  clocks m hm now hevent := by
    rcases Set.mem_insert_iff.mp hm with rfl | hm
    · cases hevent
    · exact h.clocks m hm now hevent

/-- The rest of the world makes nothing in the directory. -/
theorem Accounted.other (h : Accounted dir done) (hmove : invocations.other dir dir') :
    Accounted dir' done where
  files p st hp hentry hst := by
    rcases hmove.2 p hp with hsame | hgone
    · obtain ⟨hle, hm⟩ := h.files p st hp (hsame ▸ hentry) hst
      exact ⟨hle.trans hmove.1, hm⟩
    · cases hgone.symm.trans hentry
  seen := h.seen
  clocks := h.clocks

variable {threads : List (Thread sysSig CacheDir Int)}

/-- Whatever the processes did, every file in the directory is accounted for. -/
theorem accounted_of_reaches (hfresh : ∀ path, InTimestampDir path → dir.entry path = none)
    (h : invocations.Reaches dir dir' threads) : Accounted dir' (moments threads) := by
  refine h.invariant (I := Accounted) ?_ (fun _ _ _ hacc hmove => hacc.other hmove)
    (fun _ _ _ _ _ hacc _ hans => hacc.answered hans) (fun u c r r' M hacc _ hforks => ?_)
  · refine ⟨fun path st hp hentry => ?_, by simp, by simp⟩
    cases (hfresh path hp).symm.trans hentry
  · cases c with
    | fork => exact (hacc.forked r').forked r
    | _ => exact hforks.elim

/-! ### The names of timestamps -/

open Prog (Did Returns Issues)

variable {tr : Trace}

/-- A name from the password file has no colon. -/
theorem noColon_of_found {uid gid : Nat} {caller : CStr}
    (h : Did tr (identityLookupUid uid) (.found (caller, gid))) : 58 ∉ caller.bytes := by
  obtain ⟨t, -, h⟩ := h
  obtain ⟨t₁, t₂, content, rfl, -, h⟩ := Prog.returns_bind_iff.mp h
  cases content with
  | none => cases (Prog.returns_pure_iff.mp h).2
  | some buf =>
      obtain ⟨pre, line, -, -, rfl⟩ :=
        lookupUidLines_found_iff.mp (Prog.returns_pure_iff.mp h).2.symm
      intro hcolon
      have hfield := (List.takeWhile_sublist _).mem hcolon
      simpa using List.mem_takeWhile_imp hfield

/-- A timestamp bears the name of one user. -/
theorem user_eq_of_timestampPath {a b path : CStr} {tr' : Trace} (ha : 58 ∉ a.bytes)
    (hb : 58 ∉ b.bytes) (h : Did tr (timestampPath a) path) (h' : Did tr' (timestampPath b) path) :
    a = b := by
  have key : ∀ {user : CStr} {tr : Trace}, 58 ∉ user.bytes → Did tr (timestampPath user) path →
      (path.bytes.drop (defaultTimestampDir.bytes.length + 1)).takeWhile (· != 58) =
        user.bytes := by
    intro user tr huser h
    obtain ⟨t, -, h⟩ := h
    obtain ⟨link, t', -, hpure⟩ := Prog.returns_call_iff.mp h
    obtain ⟨-, rfl⟩ := Prog.returns_pure_iff.mp hpure
    have hall : ∀ c ∈ user.bytes, (c != 58) = true := fun c hc => by
      simpa using fun heq : c = 58 => huser (heq ▸ hc)
    have hdrop : (timestampFile user (ttyName ((link.getD []).take 255))).bytes.drop
        (defaultTimestampDir.bytes.length + 1) = user.bytes ++
          (if 0 < (ttyName ((link.getD []).take 255)).length then
            58 :: (ttyName ((link.getD []).take 255)).bytes else []) := by
      rw [timestampFile_bytes, List.append_assoc]
      exact List.drop_left' (by simp)
    rw [hdrop, List.takeWhile_append_of_pos hall]
    split <;> simp
  exact CStr.ext ((key ha h).symm.trans (key hb h'))

/-! ### What a run rests on -/

/-- A check that succeeds saw a file of root's, and then a clock that has not passed the file's
time by the window. -/
theorem returns_checkTimestamp {user : CStr} {ttlSecs : Nat}
    (h : Returns (checkTimestamp user ttlSecs) tr true) :
    ∃ t path, ∃ st : Stat, ∃ now : Int,
      tr = t ++ [⟨.lstat path, some st⟩, ⟨.clockGettime, some now⟩] ∧
      Returns (timestampPath user) t path ∧ st.Regular ∧ st.uid = 0 ∧
      now < st.mtime + ttlSecs := by
  obtain ⟨t₁, t₂, path, rfl, hpath, hlook⟩ := Prog.returns_bind_iff.mp h
  obtain ⟨st, t₃, rfl, hjudge⟩ := Prog.returns_ask_bind_iff.mp hlook
  cases st with
  | none => cases (Prog.returns_pure_iff.mp hjudge).2
  | some st =>
      dsimp only at hjudge
      split at hjudge
      · cases (Prog.returns_pure_iff.mp hjudge).2
      split at hjudge
      · cases (Prog.returns_pure_iff.mp hjudge).2
      split at hjudge
      · cases (Prog.returns_pure_iff.mp hjudge).2
      rename_i hregular hroot
      obtain ⟨t₄, t₅, now, rfl, hnow, hcompare⟩ := Prog.returns_bind_iff.mp hjudge
      obtain ⟨clock, t₆, rfl, hclock⟩ := Prog.returns_ask_bind_iff.mp hnow
      obtain ⟨rfl, rfl⟩ := Prog.returns_pure_iff.mp hclock
      split at hcompare
      · cases (Prog.returns_pure_iff.mp hcompare).2
      rename_i hset
      split at hcompare
      · rename_i hfresh
        obtain ⟨rfl, -⟩ := Prog.returns_pure_iff.mp hcompare
        cases clock with
        | none => exact absurd rfl hset
        | some now =>
            exact ⟨t₁, path, st, now, by simp, hpath, not_not.mp hregular, not_not.mp hroot,
              lt_of_lt_of_le hfresh (timestampExpiry_le ..)⟩
      · cases (Prog.returns_pure_iff.mp hcompare).2

/-- A process of the pool stamped the caller's file at the time. It had found the caller to be the
user who runs it, and had accepted a password of the caller's. -/
structure StampedBy (threads : List (Thread sysSig CacheDir Int)) (path caller : CStr)
    (time : Int) : Prop where
  earned : ∃ th ∈ threads, ∃ h₁ m h₂, th.past = h₁ ++ m :: h₂ ∧ StampedAt path time m ∧
    (∃ uid gid, Did (h₁.map Moment.event) (sys .getuid) uid ∧
      Did (h₁.map Moment.event) (identityLookupUid uid) (.found (caller, gid))) ∧
    (∃ password, Did (h₁.map Moment.event) (authenticate caller password) 1) ∧
    Did (h₁.map Moment.event) (timestampPath caller) path

/-- **Every stamp was earned** by the user whose name is on it. -/
theorem stampedBy_of_stampedAt {m : Moment sysSig CacheDir} {path caller : CStr} {time : Int}
    (h : invocations.Reaches dir dir' threads) (hm : m ∈ moments threads)
    (hstamped : StampedAt path time m) (hcaller : 58 ∉ caller.bytes)
    (hpath : Did tr (timestampPath caller) path) : StampedBy threads path caller time := by
  obtain ⟨th, hth, hin⟩ := hm
  obtain ⟨h₁, h₂, hpast⟩ := List.append_of_mem hin
  have hsound := Shared.Reaches.sound h th hth
  obtain ⟨fuel, args, hprogram⟩ := hsound.started
  have hissued := hsound.issued hpast
  obtain ⟨-, flags, mode, fd, hmaking, -, hevent⟩ := id hstamped
  rw [hprogram, hevent] at hissued
  obtain ⟨uid, user, gid, huid, hfound, hown, -, -, password, hauth⟩ :=
    permitted_of_marks hissued ⟨hmaking.forWriting, fun _ => hmaking⟩
  obtain rfl := user_eq_of_timestampPath (noColon_of_found hfound) hcaller hown hpath
  exact ⟨th, hth, h₁, m, h₂, hpast, hstamped, ⟨uid, gid, huid, hfound⟩, ⟨password, hauth⟩, hown⟩

/-- A check that succeeds rests on a stamp that the caller has earned within the window. -/
theorem stampedBy_of_checkTimestamp {th : Thread sysSig CacheDir Int} {caller : CStr}
    {ttlSecs : Nat} (hfresh : ∀ path, InTimestampDir path → dir.entry path = none)
    (h : invocations.Reaches dir dir' threads) (hth : th ∈ threads)
    (hvalid : validateUsername caller = .ok) (hcaller : 58 ∉ caller.bytes)
    (hcheck : Did th.trace (checkTimestamp caller ttlSecs) true) :
    ∃ path time now, Did th.trace shkNowSecs now ∧ StampedBy threads path caller time ∧
      time ≤ now ∧ now < time + ttlSecs := by
  obtain ⟨mid, ⟨pre, post, hmid⟩, hrun⟩ := hcheck
  obtain ⟨t, path, st, now, rfl, hpath, hregular, -, hnow⟩ := returns_checkTimestamp hrun
  have hinside : InTimestampDir path :=
    timestampPath_inside ((validateUsername_ok_iff caller).mp hvalid) hpath
  -- The two calls that were looked at are two moments of the process, one after the other.
  rw [Thread.trace, List.append_assoc, List.append_assoc] at hmid
  obtain ⟨h₁, h₂, hpast, -, hrest⟩ := List.map_eq_append_iff.mp hmid.symm
  obtain ⟨h₃, h₄, rfl, -, hrest⟩ := List.map_eq_append_iff.mp hrest
  obtain ⟨ml, h₅, rfl, hlstat, hrest⟩ := List.map_eq_cons_iff.mp hrest
  obtain ⟨mc, h₆, rfl, hclock, -⟩ := List.map_eq_cons_iff.mp hrest
  have hml : ml ∈ moments threads := ⟨th, hth, by simp [hpast]⟩
  have hmc : mc ∈ moments threads := ⟨th, hth, by simp [hpast]⟩
  have haccounted := accounted_of_reaches hfresh h
  obtain ⟨hle, m, hm, hstamped⟩ := haccounted.seen ml hml path st hinside hlstat hregular
  have hgrows := Shared.Reaches.grows (W := invocations) (f := CacheDir.clock)
    (fun _ _ hmove => hmove.1) (fun _ _ _ _ hans => (CacheDir.Serves.clock hans).ge) h th hth
  have hordered : ml.state.clock ≤ mc.state.clock := by
    have hpairs := hgrows.1
    rw [hpast] at hpairs
    have htail := (List.pairwise_append.mp (List.pairwise_append.mp hpairs).2.1).2.1
    exact (List.pairwise_cons.mp htail).1 mc (List.mem_cons_self ..)
  have htime : now = mc.state.clock := haccounted.clocks mc hmc now hclock
  refine ⟨path, st.mtime, now, ?_, stampedBy_of_stampedAt h hm hstamped hcaller hpath.did,
    (hle.trans hordered).trans htime.ge, hnow⟩
  refine ⟨[⟨.clockGettime, some now⟩], ⟨pre ++ t ++ [⟨.lstat path, some st⟩], post, ?_⟩,
    Prog.Steps.cons (Prog.Steps.nil _)⟩
  rw [Thread.trace, ← hmid]
  simp

/-- **A run without a password rests on one.** However the processes of any number of invocations
are interleaved, when one of them executes the command of its target and the policy asks for
authentication, then a password of the caller was accepted: in this run, or in one that stamped the
caller's file, at a time that the clock which this run read has passed by less than the window. -/
theorem shkRun_earned {th : Thread sysSig CacheDir Int} {site : ExecSite} {path : CStr}
    {argv env : List CStr} {k : SysCall.Answer (.execve site path argv env) → Sys Int}
    (hfresh : ∀ path, InTimestampDir path → dir.entry path = none)
    (h : invocations.Reaches dir dir' threads) (hth : th ∈ threads)
    (hsite : site ≠ .suAuthenticate) (hrest : th.rest = .call (.execve site path argv env) k) :
    ∃ fuel args cli callerUid policy eval x,
      th.program = shkRun fuel args ∧
      Planned fuel args cli callerUid policy eval th.trace x ∧
      (eval.requireAuth = true →
        (∃ password, Did th.trace (authenticate x.caller password) 1) ∨
        ∃ file time now, Did th.trace shkNowSecs now ∧ StampedBy threads file x.caller time ∧
          time ≤ now ∧ now < time + policy.defaults.timestampTtl) := by
  have hsound := Shared.Reaches.sound h th hth
  obtain ⟨fuel, args, hprogram⟩ := hsound.started
  have hissues := hsound.issues hrest
  rw [hprogram, shkRun_eq_plan] at hissues
  obtain ⟨t₁, t₂, plan, htrace, hplan, hexec⟩ :=
    hissues.bind_avoids ((planParts_targetExec fuel).avoids_planRun args) hsite
  cases plan with
  | exit code => exact absurd hexec Prog.not_issues_pure
  | execute x =>
  obtain ⟨cli, callerUid, policy, eval, hplanned⟩ := planned_of_returns hplan
  have hin : t₁ <:+: th.trace := htrace ▸ (List.prefix_append t₁ t₂).isInfix
  refine ⟨fuel, args, cli, callerUid, policy, eval, x, hprogram, hplanned.mono hin, fun hra => ?_⟩
  obtain ⟨tauth, htauth, hauth⟩ := hplanned.authenticated
  rcases returns_runAuth hauth with hno | hvalid | ⟨password, hd⟩
  · simp [hno] at hra
  · obtain ⟨callerGid, groups, teval, hteval, heval⟩ := hplanned.evaluated
    obtain ⟨authz, happroved⟩ := returns_evaluateWithPolicy heval hplanned.authorized
    obtain ⟨gid, hfound⟩ := hplanned.callerFound
    exact Or.inr (stampedBy_of_checkTimestamp hfresh h hth happroved.callerValid
      (noColon_of_found hfound) (((happroved.timestamp hvalid).mono hteval).mono hin))
  · exact Or.inl ⟨password, (hd.mono htauth).mono hin⟩

/-! ### Two invocations -/

/-- A machine with the files of the view, where every password is accepted: its directory, the keys
that are still to be typed, and the process. -/
def FileView.sharing (v : FileView) : CacheDir × Bytes × Proc → (c : SysCall) →
    Option (c.Answer × (CacheDir × Bytes × Proc))
  | (dir, rest), .lstat path => some (dir.entry path, (dir, rest))
  | (dir, rest), .clockGettime => some (some dir.clock, (dir, rest))
  | (dir, rest), .mkdir path _ => some (0, (dir.bind path (some ⟨sIfdir, 0, dir.clock⟩), rest))
  | (dir, rest), .open path flags mode =>
      if Making flags then some (3, (dir.bind path (some (dir.touched path mode)), rest))
      else some (-2, (dir, rest))
  | (dir, keys, p), .read _ _ => some (some (keys.take 1), (dir, keys.drop 1, p))
  | u, .pamUnixAuthenticate _ _ => some (.authOk, u)
  | u, .ioctl _ _ _ => some (none, u)
  | u, .sigprocmask _ _ => some (0, u)
  | u, .close _ => some (0, u)
  | (dir, keys, p), c => (v.machine p c).map fun answer => (answer.1, (dir, keys, answer.2))

theorem FileView.sharing_serves (v : FileView) (u : CacheDir × Bytes × Proc) (c : SysCall)
    (r : c.Answer) (u' : CacheDir × Bytes × Proc) (h : v.sharing u c = some (r, u')) :
    u.1.Serves ⟨c, r⟩ u'.1 := by
  obtain ⟨dir, keys, p⟩ := u
  cases c with
  | lstat | clockGettime =>
      cases h
      exact ⟨rfl, by simp⟩
  | mkdir =>
      cases h
      have hdir : sIfdir &&& sIfmt = sIfdir := by decide
      exact Or.inr ⟨Int.le_refl 0, _, hdir, rfl⟩
  | «open» path flags mode =>
      rw [FileView.sharing] at h
      split at h
      · rename_i hmaking
        cases h
        exact (if_neg (by simp [hmaking])).symm
      · cases h
        exact (if_pos (Or.inl (show (-2 : Int) < 0 by decide))).symm
  | fork | unlink => cases h
  | _ =>
      -- Of the others, the machine answers some and declines the rest.
      cases h <;> rfl

/-- The process that `al` starts. -/
def alsProcess : Proc := ⟨1000, 1000, []⟩

/-- The machine before the first of two runs, and before the second. -/
def beforeFirst : CacheDir × Bytes × Proc := (⟨1000, fun _ => none⟩, utf8 "pw\n", alsProcess)

def beforeSecond : CacheDir × Bytes × Proc :=
  ((Prog.after authMachine.sharing beforeFirst (shkRun 1 [cstr "shakti", cstr "/bin/id"])).1, [],
    alsProcess)

/-- Two runs of `id` for `al`: the first accepts a password, and the second does without. -/
theorem shkRun_earned_twice :
    ∃ (dir' : CacheDir) (first second : Thread sysSig CacheDir Int) (fuel : Nat)
      (args : List CStr) (cli : CliArgs) (callerUid : Nat) (policy : Policy) (eval : Evaluation)
      (x : Handover),
      invocations.Reaches beforeFirst.1 dir' [second, first] ∧ second.program = shkRun fuel args ∧
      Planned fuel args cli callerUid policy eval second.trace x ∧
      (eval.requireAuth = true →
        (∃ password, Did second.trace (authenticate x.caller password) 1) ∨
        ∃ file time now, Did second.trace shkNowSecs now ∧
          StampedBy [second, first] file x.caller time ∧ time ≤ now ∧
          now < time + policy.defaults.timestampTtl) := by
  have hp : invocations.starts (shkRun 1 [cstr "shakti", cstr "/bin/id"]) := ⟨_, _, rfl⟩
  have ho := authMachine.sharing_serves
  obtain ⟨past₁, k₁, hfirst⟩ := Shared.Reaches.start_play (W := invocations) Prod.fst ho
    (u := beforeFirst) hp (c := .execve .execTarget (cstr "/bin/id") [cstr "/bin/id"]
      (fixedEnv ⟨cstr "al", 1000, 1000, cstr "root", cstr "/root", cstr "/bin/sh"⟩)) (by decide)
    Relation.ReflTransGen.refl
  obtain ⟨past₂, k₂, hsecond⟩ := Shared.Reaches.start_play (W := invocations) Prod.fst ho
    (u := beforeSecond) hp (c := .execve .execTarget (cstr "/bin/id") [cstr "/bin/id"]
      (fixedEnv ⟨cstr "al", 1000, 1000, cstr "root", cstr "/root", cstr "/bin/sh"⟩)) (by decide)
    hfirst
  obtain ⟨fuel, args, cli, callerUid, policy, eval, x, hfacts⟩ :=
    shkRun_earned (fun _ _ => rfl) hsecond (List.mem_cons_self ..) (by decide) rfl
  exact ⟨_, _, _, fuel, args, cli, callerUid, policy, eval, x, hsecond, hfacts⟩

end Shakti
