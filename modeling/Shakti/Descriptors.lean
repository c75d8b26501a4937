import Shakti.HandedOver
import Shakti.Policy.Render
import Shakti.TerminalRun

/-!
# Shakti.Descriptors

What the target's process has when it executes the target's command: its credentials, its
descriptors, its place among the sessions.

A run that has come to the `execve` of an exec path is taken apart in the order of the source.
On the direct path the process is the one that was started; on the pseudo-terminal path it is a
child on a terminal of its own. `Arrived` is what the two have in common.
-/

namespace Shakti

open Effects Effects.World Linux
open Effects.Prog (Avoids Returns)

variable {α : Type} {s t : Process}

/-! ### Numerals -/

/-- What is printed of a number is a numeral of it. -/
theorem decimalLoop_eq {fuel n : Nat} (h : n < fuel) (acc : Bytes) :
    ∃ ds, decimalLoop fuel n acc = ds ++ acc ∧ Decimal n ds := by
  induction fuel generalizing n acc with
  | zero => omega
  | succ fuel ih =>
      have hdigit : 48 ≤ 48 + (n % 10).toUInt8 ∧ 48 + (n % 10).toUInt8 ≤ 57 ∧
          (48 + (n % 10).toUInt8).toNat - 48 = n % 10 := by
        have hlt : n % 10 < 10 := Nat.mod_lt _ (by omega)
        generalize n % 10 = k at hlt
        decide +revert
      unfold decimalLoop
      dsimp only
      split
      case isTrue hzero =>
        refine ⟨[48 + (n % 10).toUInt8], rfl, by simp, ?_, ?_⟩
        · simpa using ⟨hdigit.1, hdigit.2.1⟩
        · rw [List.foldl_cons, List.foldl_nil, hdigit.2.2]
          omega
      case isFalse hmore =>
        obtain ⟨ds, hds, -, hdigits, hvalue⟩ := ih (n := n / 10) (by omega)
          ((48 + (n % 10).toUInt8) :: acc)
        refine ⟨ds ++ [48 + (n % 10).toUInt8], by rw [hds]; simp, by simp, ?_, ?_⟩
        · intro c hc
          rcases List.mem_append.mp hc with hc | hc
          · exact hdigits c hc
          · rw [List.mem_singleton.mp hc]
            exact ⟨hdigit.1, hdigit.2.1⟩
        · rw [List.foldl_append, hvalue, List.foldl_cons, List.foldl_nil, hdigit.2.2]
          omega

theorem decimal_decimal (n : Nat) : Decimal n (decimal n).bytes := by
  obtain ⟨ds, hds, hdec⟩ := decimalLoop_eq (Nat.lt_succ_self n) []
  have hbytes : (decimal n).bytes = ds := by
    rw [decimal, hds, List.append_nil]
    refine CStr.read_of_noNul fun hzero => ?_
    exact absurd (hdec.2.1 0 hzero).1 (by decide)
  rw [hbytes]
  exact hdec

theorem decimal_injective {n m : Nat} (h : decimal n = decimal m) : n = m := by
  have hn := (decimal_decimal n).2.2
  rw [h, (decimal_decimal m).2.2] at hn
  exact hn.symm

/-! ### A pseudo-terminal of one's own -/

theorem slavePath_injective {n m : Nat} (h : Process.slavePath n = Process.slavePath m) :
    n = m := by
  refine decimal_injective (CStr.ext ?_)
  have hbytes := congrArg CStr.bytes h
  rw [Process.slavePath, Process.slavePath, CStr.append_bytes, CStr.append_bytes] at hbytes
  exact List.append_cancel_left hbytes

theorem slavePath_ne_ptmx (n : Nat) : Process.slavePath n ≠ cstr "/dev/ptmx" := by
  intro h
  have hbyte := congrArg (fun p : CStr => p.bytes.getD 7 0) h
  have hpts : (cstr "/dev/pts/").bytes.getD 7 0 = 115 := by decide
  have hlen : 7 < (cstr "/dev/pts/").bytes.length := by decide
  simp only [Process.slavePath, CStr.append_bytes, List.getD_append _ _ _ _ hlen, hpts] at hbyte
  exact absurd hbyte (by decide)

/-- The multiplexer gives a master no slave of which was there. -/
theorem leads_sessionOpenpt :
    Leads (fun t master => 0 ≤ master → s.fds master = none ∧ ∃ n, n ∉ s.ptys ∧
      t = ({ s with ptys := n :: s.ptys } : Process).opened master (.ptyMaster n)) s
      sessionOpenpt := by
  refine Safe.call still_processWorld trivial fun r s' h hr => ?_
  rcases h with ⟨hneg, -⟩ | ⟨-, hfree, f, mid, hopens, rfl⟩
  · omega
  generalize hpath : cstr "/dev/ptmx" = path at hopens
  cases hopens with
  | master hnew => exact ⟨hfree, _, hnew, rfl⟩
  | slave hslave => exact absurd (hpath.trans hslave).symm (slavePath_ne_ptmx _)
  | other hne => exact absurd hpath.symm hne

/-- Through the master its slave is opened, and no other. -/
theorem leads_sessionOpenSlave {master : Int} {n : Nat}
    (hmaster : s.fds master = some (.ptyMaster n))
    (hn : n ∈ s.ptys) :
    Leads (fun t slave => 0 ≤ slave → s.fds slave = none ∧ t = s.opened slave (.ptySlave n)) s
      (sessionOpenSlave master) := by
  refine .bind (leads_idle (by simp)) fun t x ht => ?_
  subst ht
  refine Safe.ite (fun _ h => absurd h (by decide)) fun _ => ?_
  refine .bind (leads_idle (by simp [tcsets, tiocsptlck])) fun t unlocked ht => ?_
  subst ht
  cases unlocked with
  | none => exact fun h => absurd h (by decide)
  | some u =>
      refine .bind (leads_idle (by simp)) fun t x ht => ?_
      subst ht
      refine Safe.ite (fun _ h => absurd h (by decide)) fun _ => ?_
      refine .ask_bind still_processWorld trivial fun r s' hioctl => ?_
      obtain rfl := hioctl.stays fun h => absurd h.2.1 (by decide)
      cases r with
      | none => exact fun h => absurd h (by decide)
      | some bytes =>
          have hnumber : load32 bytes 0 = n := hioctl.numbers n bytes rfl hmaster rfl
          refine Safe.call still_processWorld trivial fun slave s'' h hr => ?_
          rcases h with ⟨hneg, -⟩ | ⟨-, hfree, f, mid, hopens, rfl⟩
          · omega
          generalize hpath : cstr "/dev/pts/" ++ decimal (load32 bytes 0) = path at hopens
          rw [hnumber] at hpath
          change Process.slavePath n = path at hpath
          cases hopens with
          | master => exact absurd hpath (slavePath_ne_ptmx n)
          | slave hslave hm =>
              obtain rfl := slavePath_injective (hpath.trans hslave)
              exact ⟨hfree, rfl⟩
          | other _ hno => exact absurd hpath.symm (hno n hn)

/-! ### From the drop to `execve` -/

/-- The calls that change more of the process than its credentials. -/
@[simp] def Reshapes : SysCall → Prop
  | .open _ _ _ | .openat _ _ _ _ | .signalfd _ | .pipe | .close _ | .closeRange _ | .dup2 _ _
  | .sigprocmask _ _ | .fork | .setsid => True
  | .ioctl _ request _ => request = tcsets
  | _ => False

theorem Process.Credits.others {call : Option CredCall} {r : Int} (h : s.Credits call r t) :
    t = s.withCreds t.creds := by
  rcases h with ⟨-, rfl⟩ | ⟨-, c, creds, -, -, rfl⟩ <;> rfl

theorem answers_of_not_reshapes {c : SysCall} {r : c.Answer} (hc : ¬ Reshapes c)
    (h : s.Answers ⟨c, r⟩ t) : t = s.withCreds t.creds := by
  cases c with
  | setgroups | setgid | setuid | prctl | capset => exact h.others
  | ioctl fd request arg =>
      obtain rfl := h.stays fun hset => hc hset.2.1
      rfl
  | getuid | getgid =>
      obtain ⟨rfl, -⟩ := h
      rfl
  | «open» | openat | signalfd | pipe | close | closeRange | dup2 | sigprocmask | fork | setsid =>
      exact absurd trivial hc
  | _ =>
      obtain rfl : t = s := h
      rfl

/-- A program without such calls leaves everything else as it is. -/
theorem leads_withCreds {p : Sys α} (hp : Avoids Reshapes p) :
    Leads (fun t _ => t = s.withCreds t.creds) s p := by
  refine Safe.keeps still_processWorld hp (fun _ _ _ _ => trivial)
    (fun m c r s' hm hc hans => ?_) rfl
  rw [answers_of_not_reshapes hc hans, hm]
  rfl

theorem BeyondTelling.of_reshapes {c : SysCall} (hc : Reshapes c) : BeyondTelling c := by
  cases c <;> simp_all

@[simp] theorem Telling.avoidsReshapes {p : Sys α} (hp : Telling p) : Avoids Reshapes p :=
  hp.mono fun _ => BeyondTelling.of_reshapes

theorem Dropping.avoidsReshapes {p : Sys α} (hp : Dropping p) : Avoids Reshapes p :=
  hp.mono fun c hc => by cases c <;> simp_all

/-- The drop changes the credentials only. -/
theorem leads_dropPrivileges (nss : NssState) (targetUser : CStr) (uid gid mask : Nat) :
    Leads (fun t _ => t = s.withCreds t.creds) s (dropPrivileges nss targetUser uid gid mask) :=
  leads_withCreds (Dropping.avoidsReshapes (by simp))

/-- An exec attribute is written and closed. -/
theorem leaves_attr {path : CStr} {data : Bytes} {k : Int → Sys Int} {tty : Option Termios}
    (hpath : path ≠ cstr "/dev/ptmx") (htty : s.tty = tty)
    (hneg : ∀ r < 0, Leaves tty s (k r)) (hpos : ∀ r, 0 ≤ r → k r = writeExecAttr r data) :
    Leaves tty s (sys (.open path oWronly 0) >>= k) := by
  refine safe_open hpath htty hneg fun r f hr hfree _ => ?_
  rw [hpos r hr]
  refine Leaves.bind (Idle.leaves (by simp) htty) fun w => ?_
  refine safe_close htty hfree fun _ => ?_
  exact Safe.ite (fun _ => rfl) fun _ => rfl

theorem leaves_lsmSetSelinuxExec {tty : Option Termios} (htty : s.tty = tty) (ctx : CStr) :
    Leaves tty s (lsmSetSelinuxExec ctx) := by
  refine Leaves.bind (Idle.leaves (by simp) htty) fun active => Safe.ite (fun _ => rfl) fun _ => ?_
  refine leaves_attr (by decide) htty (fun r hr => ?_) fun r hr => if_neg (by omega)
  rw [if_pos hr]
  exact rfl

theorem leaves_lsmSetApparmorExec {tty : Option Termios} (htty : s.tty = tty) (profile : CStr) :
    Leaves tty s (lsmSetApparmorExec profile) := by
  refine Leaves.bind (Idle.leaves (by simp) htty) fun active => Safe.ite (fun _ => rfl) fun _ => ?_
  refine leaves_attr (by decide) htty (fun r hr => ?_) fun r hr => if_neg (by omega)
  rw [if_pos hr]
  refine leaves_attr (by decide) htty (fun r hr => ?_) fun r hr => if_neg (by omega)
  rw [if_pos hr]
  exact rfl

theorem leaves_lsmApplyExec {tty : Option Termios} (htty : s.tty = tty) (seCtx aaProf : CStr) :
    Leaves tty s (lsmApplyExec seCtx aaProf) := by
  refine Safe.ite (fun _ => rfl) fun _ => ?_
  refine Leaves.bind (Idle.leaves (by simp) htty) fun seActive => ?_
  refine Leaves.bind (Safe.ite (fun _ => leaves_lsmSetSelinuxExec htty _) fun _ => rfl) fun se => ?_
  refine Safe.ite (fun _ => rfl) fun _ => ?_
  refine Leaves.bind (Idle.leaves (by simp) htty) fun aaActive => ?_
  refine Leaves.bind (Safe.ite (fun _ => leaves_lsmSetApparmorExec htty _) fun _ => rfl)
    fun aa => ?_
  exact Safe.ite (fun _ => rfl) fun _ => Safe.ite (fun _ => rfl) fun _ => rfl

theorem leaves_applyLsmOrDie {tty : Option Termios} (htty : s.tty = tty) (seCtx aaProf : CStr) :
    Leaves tty s (applyLsmOrDie seCtx aaProf) := by
  refine Leaves.bind (leaves_lsmApplyExec htty _ _) fun r => Safe.ite (fun _ => ?_) fun _ => rfl
  exact (safe_steady (by simp) htty).of_not_returns fun _ _ => not_returns_abort

theorem leaves_buildPtrArray {tty : Option Termios} (htty : s.tty = tty) (vec : List CStr) :
    Leaves tty s (buildPtrArray vec) := by
  refine Leaves.bind (Idle.leaves (by simp) htty) fun arr => Safe.ite (fun _ => ?_) fun _ => rfl
  exact (safe_steady (by simp) htty).of_not_returns fun _ _ => not_returns_abort

variable {h : List (Moment sysSig Process)} {site : ExecSite} {path : CStr} {argv env : List CStr}
  {nss : NssState} {req : ExecRequest}

/-- A run of a part that executes nothing is over when the target is executed. -/
theorem runs_after {β : Type} {p : Sys β} {f : β → Sys α}
    {k : SysCall.Answer (.execve site path argv env) → Sys α} (hsite : site ≠ .suAuthenticate)
    (hrun : Runs processWorld s (p >>= f) h t (.call (.execve site path argv env) k))
    (hp : Avoids TargetExec p) :
    ∃ h₁ h₂ m a, h = h₁ ++ h₂ ∧ Completed processWorld s p h₁ m a ∧
      Runs processWorld m (f a) h₂ t (.call (.execve site path argv env) k) :=
  hrun.bind_avoids hp hsite

/-- After the drop nothing changes any more, until the command is executed. -/
theorem runs_dropAndExec {s' : ExecSite}
    {k : SysCall.Answer (.execve site path argv env) → Sys Unit}
    (hsite : site ≠ .suAuthenticate)
    (hrun : Runs processWorld s (dropAndExec s' nss req) h t
      (.call (.execve site path argv env) k)) :
    site = s' ∧ ∃ h₁ h₂, h = h₁ ++ h₂ ∧ Completed processWorld s
      (dropPrivileges nss req.targetUser req.targetUid req.targetGid req.capMask) h₁ t () := by
  obtain ⟨h₁, h₂, m, _, rfl, hdrop, k₁⟩ := runs_after hsite hrun (Quiet.avoidsExec (by simp))
  obtain ⟨h₃, h₄, m₁, _, rfl, hargv, k₂⟩ := runs_after hsite k₁ (Quiet.avoidsExec (by simp))
  obtain ⟨h₅, h₆, m₂, _, rfl, henv, k₃⟩ := runs_after hsite k₂ (Quiet.avoidsExec (by simp))
  obtain ⟨h₇, h₈, m₃, _, rfl, hlsm, k₄⟩ := runs_after hsite k₃ (Quiet.avoidsExec (by simp))
  obtain rfl : m₁ = m := (leaves_buildPtrArray rfl _).completed hargv
  obtain rfl : m₂ = m₁ := (leaves_buildPtrArray rfl _).completed henv
  obtain rfl : m₃ = m₂ := (leaves_applyLsmOrDie rfl _ _).completed hlsm
  rcases k₄.ask_bind_inv still_processWorld with ⟨rfl, rfl, hcall⟩ | ⟨r, m₄, h₉, -, -, hrest⟩
  · cases hcall
    exact ⟨rfl, h₁, _, rfl, hdrop⟩
  · cases hrest

/-! ### The exec paths -/

/-- A process `t` that has come to the target's `execve` in a run from `s`: the drop was the last
thing that happened to it, and its credentials, its terminal and its signals were those of `s`
until then. -/
structure Arrived (s t : Process) (h : List (Moment sysSig Process)) (nss : NssState)
    (req : ExecRequest) : Prop where
  dropped : ∃ h₁ h₂ h₃ m, h = h₁ ++ (h₂ ++ h₃) ∧ m.creds = s.creds ∧ Completed processWorld m
    (dropPrivileges nss req.targetUser req.targetUid req.targetGid req.capMask) h₂ t ()
  tty : t.tty = s.tty
  mask : t.mask = s.mask

/-- It came from before, too, where that had the same credentials, terminal and signals. -/
theorem Arrived.mono {h' : List (Moment sysSig Process)} {s' : Process}
    (harrived : Arrived s t h nss req) (hsuffix : h <:+ h') (hcreds : s.creds = s'.creds)
    (htty : s.tty = s'.tty) (hmask : s.mask = s'.mask) : Arrived s' t h' nss req where
  dropped := by
    obtain ⟨h₂, h₃, h₄, m, rfl, hm, hdrop⟩ := harrived.dropped
    obtain ⟨h₁, rfl⟩ := hsuffix
    exact ⟨h₁ ++ h₂, h₃, h₄, m, by simp, hm.trans hcreds, hdrop⟩
  tty := harrived.tty.trans htty
  mask := harrived.mask.trans hmask

theorem runs_drop {s' : ExecSite} {k : SysCall.Answer (.execve site path argv env) → Sys Unit}
    (hsite : site ≠ .suAuthenticate)
    (hrun : Runs processWorld s (dropAndExec s' nss req) h t
      (.call (.execve site path argv env) k)) :
    site = s' ∧ Arrived s t h nss req ∧ t = s.withCreds t.creds := by
  obtain ⟨hs', h₁, h₂, rfl, hdrop⟩ := runs_dropAndExec hsite hrun
  have ht : t = s.withCreds t.creds := (leads_dropPrivileges ..).completed hdrop
  exact ⟨hs', ⟨⟨[], h₁, h₂, s, rfl, rfl, hdrop⟩, by rw [ht]; rfl, by rw [ht]; rfl⟩, ht⟩

/-- On the direct path the process keeps the descriptors up to stderr, and no others. -/
theorem runs_execTarget {k : SysCall.Answer (.execve site path argv env) → Sys Int}
    (hsite : site ≠ .suAuthenticate)
    (hrun : Runs processWorld s (execTarget nss req) h t (.call (.execve site path argv env) k)) :
    site = .execTarget ∧ Arrived s t h nss req ∧ t = (s.closedFrom 3).withCreds t.creds := by
  rcases hrun.ask_bind_inv still_processWorld with ⟨-, -, hq⟩ | ⟨r, m, h', rfl, hclose, hrun⟩
  · cases hq
  obtain rfl : m = s.closedFrom 3 := hclose
  obtain ⟨k', hrun⟩ := Runs.bind_first (P := TargetExec) hrun
    (fun _ => Quiet.avoidsExec (by simp)) hsite
  obtain ⟨hs', harrived, ht⟩ := runs_drop hsite hrun
  exact ⟨hs', harrived.mono (List.suffix_cons ..) rfl rfl rfl, ht⟩

/-- A descriptor that is there is copied. -/
theorem opened_fds_self {fd : Int} {f : OpenFile} : (s.opened fd f).fds fd = some f :=
  Function.update_self ..

theorem opened_fds_of_ne {fd x : Int} {f : OpenFile} (h : x ≠ fd) :
    (s.opened fd f).fds x = s.fds x :=
  Function.update_of_ne h ..

/-- A copy leaves the slave where it was. -/
theorem duplicate_slave {slave new r : Int} {f : OpenFile} (hslave : s.fds slave = some f)
    (h : s.Duplicates slave new r t) (hr : ¬ r < 0) :
    t = s.opened new f ∧ t.fds slave = some f := by
  rcases h with ⟨hneg, -⟩ | ⟨-, g, hg, rfl⟩
  · exact absurd hneg hr
  obtain rfl : g = f := Option.some.inj (hg.symm.trans hslave)
  refine ⟨rfl, ?_⟩
  by_cases heq : slave = new
  · rw [heq]
    exact opened_fds_self
  · rw [opened_fds_of_ne heq]
    exact hslave

/-- The child of the pseudo-terminal path leads a session, and has the slave three times. -/
theorem runs_ptyChild {slave : Int} {f : OpenFile}
    {k : SysCall.Answer (.execve site path argv env) → Sys Int} (hsite : site ≠ .suAuthenticate)
    (hslave : s.fds slave = some f) (hchild : s.child = true)
    (hrun : Runs processWorld s (ptyChild slave nss req) h t
      (.call (.execve site path argv env) k)) :
    site = .execTargetPty ∧ Arrived s t h nss req ∧ t.child = true ∧ t.leader = true ∧
      t.ptys = s.ptys ∧ ∀ fd, 0 ≤ fd → t.fds fd = if fd ≤ 2 then some f else none := by
  rcases hrun.ask_bind_inv still_processWorld with ⟨-, -, hq⟩ | ⟨sid, m₁, h₁, rfl, hsid, k₁⟩
  · cases hq
  obtain ⟨hleads, rfl⟩ := hsid
  rcases k₁.ask_bind_inv still_processWorld with ⟨-, -, hq⟩ | ⟨r, m₂, h₂, rfl, hctty, k₂⟩
  · cases hq
  obtain rfl := hctty.stays fun hset => absurd hset.2.1 (by decide)
  rcases k₂.ask_bind_inv still_processWorld with ⟨-, -, hq⟩ | ⟨r₀, m₃, h₃, rfl, hdup₀, k₃⟩
  · cases hq
  split at k₃
  · exact absurd ⟨_, k₃.steps⟩ (Avoids.not_issues (P := TargetExec)
      (Quiet.avoidsExec (by simp)) hsite)
  rename_i hr₀
  obtain ⟨rfl, hslave₃⟩ := duplicate_slave (by exact hslave) hdup₀ hr₀
  rcases k₃.ask_bind_inv still_processWorld with ⟨-, -, hq⟩ | ⟨r₁, m₄, h₄, rfl, hdup₁, k₄⟩
  · cases hq
  split at k₄
  · exact absurd ⟨_, k₄.steps⟩ (Avoids.not_issues (P := TargetExec)
      (Quiet.avoidsExec (by simp)) hsite)
  rename_i hr₁
  obtain ⟨rfl, hslave₄⟩ := duplicate_slave hslave₃ hdup₁ hr₁
  rcases k₄.ask_bind_inv still_processWorld with ⟨-, -, hq⟩ | ⟨r₂, m₅, h₅, rfl, hdup₂, k₅⟩
  · cases hq
  split at k₅
  · exact absurd ⟨_, k₅.steps⟩ (Avoids.not_issues (P := TargetExec)
      (Quiet.avoidsExec (by simp)) hsite)
  rename_i hr₂
  obtain ⟨rfl, -⟩ := duplicate_slave hslave₄ hdup₂ hr₂
  rcases k₅.ask_bind_inv still_processWorld with ⟨-, -, hq⟩ | ⟨r, m₆, h₆, rfl, hclose, k₆⟩
  · cases hq
  subst hclose
  obtain ⟨k', k₇⟩ :=
    Runs.bind_first (P := TargetExec) k₆ (fun _ => Quiet.avoidsExec (by simp)) hsite
  obtain ⟨hs', harrived, ht⟩ := runs_drop hsite k₇
  refine ⟨hs', harrived.mono (((((List.suffix_cons ..).trans (List.suffix_cons ..)).trans
    (List.suffix_cons ..)).trans (List.suffix_cons ..)).trans ((List.suffix_cons ..).trans
    (List.suffix_cons ..))) rfl rfl rfl, by rw [ht]; exact hchild, ?_, by rw [ht]; rfl, ?_⟩
  · rw [ht]
    show (s.leader || decide (0 ≤ sid)) = true
    rw [decide_eq_true (hleads hchild), Bool.or_true]
  · intro fd hfd
    rw [ht]
    show (if 3 ≤ fd then none else _) = _
    by_cases hlow : fd ≤ 2
    · rw [if_neg (by omega), if_pos hlow]
      obtain rfl | rfl | rfl : fd = 0 ∨ fd = 1 ∨ fd = 2 := by omega
      · rw [opened_fds_of_ne (by decide), opened_fds_of_ne (by decide), opened_fds_self]
      · rw [opened_fds_of_ne (by decide), opened_fds_self]
      · rw [opened_fds_self]
    · rw [if_pos (by omega), if_neg hlow]

/-- A child that leads a session, with a pseudo-terminal of its own for stdin, stdout and stderr
and no other descriptor. -/
structure OnOwnTerminal (s t : Process) : Prop where
  child : t.child = true
  leader : t.leader = true
  slave : ∃ n, n ∉ s.ptys ∧ n ∈ t.ptys ∧
    ∀ fd, 0 ≤ fd → t.fds fd = if fd ≤ 2 then some (.ptySlave n) else none

theorem runs_execTargetPty {fuel : Nat} {logfd inlogfd : Int} {caller : CStr}
    {k : SysCall.Answer (.execve site path argv env) → Sys Int} (hsite : site ≠ .suAuthenticate)
    (hrun : Runs processWorld s (execTargetPty fuel nss req logfd inlogfd caller) h t
      (.call (.execve site path argv env) k)) :
    site = .execTargetPty ∧ Arrived s t h nss req ∧ OnOwnTerminal s t := by
  obtain ⟨h₁, g₁, m₁, start, rfl, hstart, k₁⟩ := runs_after hsite hrun (Quiet.avoidsExec (by simp))
  obtain ⟨h₂, g₂, m₂, _, rfl, hhead, k₂⟩ := runs_after hsite k₁ (Quiet.avoidsExec (by simp))
  obtain ⟨h₃, g₃, m₃, _, rfl, hinhead, k₃⟩ := runs_after hsite k₂ (Quiet.avoidsExec (by simp))
  obtain rfl : m₁ = s := (leads_idle (by simp)).completed hstart
  obtain rfl : m₂ = m₁ := (leads_idle (by simp)).completed hhead
  obtain rfl : m₃ = m₂ := (leads_idle (by simp)).completed hinhead
  obtain ⟨h₄, g₄, m₄, master, rfl, hopen, k₄⟩ := runs_after hsite k₃ (Quiet.avoidsExec (by simp))
  split at k₄
  · exact absurd ⟨_, k₄.steps⟩ (Avoids.not_issues (P := TargetExec)
      (Quiet.avoidsExec (by simp)) hsite)
  rename_i hmaster
  obtain ⟨-, n, hnew, rfl⟩ := leads_sessionOpenpt.completed hopen (by omega)
  obtain ⟨h₅, g₅, m₅, slave, rfl, hslave, k₅⟩ := runs_after hsite k₄ (Quiet.avoidsExec (by simp))
  split at k₅
  · exact absurd ⟨_, k₅.steps⟩ (Avoids.not_issues (P := TargetExec)
      (Quiet.avoidsExec (by simp)) hsite)
  rename_i hpos
  obtain ⟨-, rfl⟩ := (leads_sessionOpenSlave opened_fds_self (List.mem_cons_self ..)).completed
    hslave (by omega)
  rcases k₅.ask_bind_inv still_processWorld with ⟨-, -, hq⟩ | ⟨pid, m₆, g₆, rfl, hfork, k₆⟩
  · cases hq
  split at k₆
  · exact absurd ⟨_, k₆.steps⟩ (Avoids.not_issues (P := TargetExec)
      (Quiet.avoidsExec (by simp)) hsite)
  split at k₆
  case isFalse =>
    exact absurd ⟨_, k₆.steps⟩ (Avoids.not_issues (P := TargetExec)
      (Quiet.avoidsExec (by simp)) hsite)
  case isTrue hzero =>
    obtain rfl := hfork
    have hchild : (m₃.child || decide (pid = (0 : Int))) = true := by
      rw [decide_eq_true hzero, Bool.or_true]
    obtain ⟨hs', harrived, hchild', hleader, hptys, hfds⟩ := runs_ptyChild hsite
      (by exact opened_fds_self) (by exact hchild) k₆
    refine ⟨hs', harrived.mono ?_ rfl rfl rfl, hchild', hleader, n, hnew, ?_, hfds⟩
    · exact (((((List.suffix_cons ..).trans (List.suffix_append ..)).trans
        (List.suffix_append ..)).trans (List.suffix_append ..)).trans
        (List.suffix_append ..)).trans (List.suffix_append ..)
    · rw [hptys]
      exact List.mem_cons_self ..

/-! ### The run -/

/-- A run from `s` that has come to the target's `execve`, with the decision it carries out. -/
structure Reached (fuel : Nat) (args : List CStr) (s t : Process)
    (h : List (Moment sysSig Process)) (site : ExecSite) (path : CStr) (argv env : List CStr)
    (x : Handover) : Prop where
  planned : ∃ cli callerUid policy eval,
    Planned fuel args cli callerUid policy eval (h.map Moment.event) x
  executed : path = x.req.resolved ∧ argv = x.req.argv ∧ env = x.req.env
  arrived : Arrived s t h x.nss x.req
  /-- The caller is the user who started the process. -/
  pty : x.logs.usePty = sessionNeedsPty x.logs.doLog s.creds.ruid x.req.targetUid
  site_eq : site = if x.logs.usePty = true then .execTargetPty else .execTarget
  direct : site = .execTarget → t = (s.closedFrom 3).withCreds t.creds
  apart : site = .execTargetPty → OnOwnTerminal s t

theorem Reached.site_cases {fuel : Nat} {args : List CStr} {x : Handover}
    (h : Reached fuel args s t h site path argv env x) :
    site = .execTarget ∨ site = .execTargetPty := by
  rw [h.site_eq]
  split
  · exact Or.inr rfl
  · exact Or.inl rfl

theorem Planned.mono {fuel : Nat} {args : List CStr} {cli : CliArgs} {callerUid : Nat}
    {policy : Policy} {eval : Evaluation} {tr tr' : Trace} {x : Handover}
    (h : Planned fuel args cli callerUid policy eval tr x) (hsub : tr <:+: tr') :
    Planned fuel args cli callerUid policy eval tr' x where
  parsed := h.parsed.mono hsub
  modes := h.modes
  uidRead := h.uidRead.mono hsub
  callerFound := h.callerFound.imp fun _ hd => hd.mono hsub
  policyLoaded := h.policyLoaded.mono hsub
  evaluated := h.evaluated.imp fun _ hd => hd.imp fun _ hd => hd.mono hsub
  authorized := h.authorized
  authenticated := h.authenticated.mono hsub
  target_eq := h.target_eq
  targetFound := h.targetFound.mono hsub
  logsOpened := h.logsOpened.mono hsub
  pty := h.pty
  resolved := h.resolved
  environment := h.environment
  capMask := h.capMask

theorem TargetExec.beyondTelling {c : SysCall} (hc : TargetExec c) : BeyondTelling c := by
  cases c <;> simp_all

theorem planParts_targetExec (fuel : Nat) : PlanParts TargetExec fuel where
  telling _ := TargetExec.beyondTelling
  evaluates _ _ _ _ _ _ _ := Quiet.avoidsExec (by simp)
  confirms _ _ _ _ := avoidsExec_runAuth
  opens _ _ _ _ _ _ _ := avoidsExec_openLogs
  invalidates _ _ := by simp [runInvalidate, Quiet.avoidsExec]

theorem runs_shkRun {fuel : Nat} {args : List CStr}
    {k : SysCall.Answer (.execve site path argv env) → Sys Int} (hsite : site ≠ .suAuthenticate)
    (hrun : Runs processWorld s (shkRun fuel args) h t (.call (.execve site path argv env) k)) :
    ∃ x, Reached fuel args s t h site path argv env x := by
  rw [shkRun_eq_plan] at hrun
  obtain ⟨h₁, h₂, m, plan, rfl, hplan, hexec⟩ :=
    hrun.bind_avoids ((planParts_targetExec fuel).avoids_planRun args) hsite
  have hleft : PlanLeaves s m plan := (safe_planRun fuel args).completed hplan
  cases plan with
  | exit code => cases hexec
  | execute x =>
  obtain ⟨cli, callerUid, policy, eval, hplanned⟩ := planned_of_returns hplan.steps
  have hcreds : m.creds = s.creds := (congrArg Process.creds hleft.same :)
  have hmask : m.mask = s.mask := (congrArg Process.mask hleft.same :)
  have hptys : m.ptys = s.ptys := (congrArg Process.ptys hleft.same :)
  obtain ⟨hhand, -⟩ := issues_runExec hsite ⟨_, hexec.steps⟩
  obtain ⟨h₃, h₄, m', _, rfl, haudit, hrest⟩ := runs_after hsite hexec (avoidsExec_auditLog ..)
  obtain rfl : m' = m := (leads_idle (by simp)).completed haudit
  have hfound : Planned fuel args cli callerUid policy eval (((h₁ ++ (h₃ ++ h₄)).map Moment.event))
      x := by
    rw [List.map_append]
    exact hplanned.mono (List.prefix_append ..).isInfix
  have hwhole : Arrived m' t h₄ x.nss x.req → Arrived s t (h₁ ++ (h₃ ++ h₄)) x.nss x.req :=
    fun harrived => harrived.mono ((List.suffix_append ..).trans (List.suffix_append ..)) hcreds
      hleft.same.tty_eq hmask
  cases hpty : x.logs.usePty with
  | true =>
      rw [hpty, if_pos rfl] at hrest
      obtain ⟨rfl, harrived, hchild, hleader, n, hnew, hn, hfds⟩ := runs_execTargetPty hsite hrest
      exact ⟨x, ⟨cli, callerUid, policy, eval, hfound⟩,
        ⟨hhand.path_eq, hhand.argv_eq, hhand.env_eq⟩, hwhole harrived, hleft.pty x rfl,
        by rw [hpty, if_pos rfl], nofun, fun _ => ⟨hchild, hleader, n, hptys ▸ hnew, hn, hfds⟩⟩
  | false =>
      rw [hpty, if_neg (by simp)] at hrest
      obtain ⟨k', hdir⟩ := Runs.bind_first (P := TargetExec) hrest (fun _ => by simp) hsite
      obtain ⟨rfl, harrived, ht⟩ := runs_execTarget hsite hdir
      -- No log is kept, or there would be a pseudo-terminal.
      have hlog : x.logs.doLog = false := by
        have hneeds := hleft.pty x rfl
        rw [hpty] at hneeds
        cases hlog : x.logs.doLog with
        | false => rfl
        | true => simp [hlog, sessionNeedsPty] at hneeds
      rw [hleft.found x rfl hlog] at ht
      exact ⟨x, ⟨cli, callerUid, policy, eval, hfound⟩,
        ⟨hhand.path_eq, hhand.argv_eq, hhand.env_eq⟩, hwhole harrived, hleft.pty x rfl,
        by rw [hpty, if_neg (by simp)], fun _ => ht, nofun⟩

/-- The bits of the mask of a plan are capabilities. -/
theorem Planned.capMask_le {fuel : Nat} {args : List CStr} {cli : CliArgs} {callerUid : Nat}
    {policy : Policy} {eval : Evaluation} {tr : Trace} {x : Handover}
    (hplanned : Planned fuel args cli callerUid policy eval tr x) :
    ∀ c, x.req.capMask.testBit c = true → c ≤ capLastCap :=
  capsParseLoop_le hplanned.capMask (by simp)

/-- **Whom the target runs as.** Started from a set-uid-root file, `shk_run` executes the target's
command with the uid and the gid that the user database gives the target named on the command
line, in all their variants, and with exactly the groups that were looked up for it. Its
capabilities are those that the deciding rule names, in every set, none of which the executed
program can add to, root or not; where the rule names none, a target other than root executes the
command without any. -/
theorem shkRun_handsOver {fuel : Nat} {args : List CStr}
    {k : SysCall.Answer (.execve site path argv env) → Sys Int} (hsite : site ≠ .suAuthenticate)
    (hs : SetuidRoot s.creds)
    (hrun : Runs processWorld s (shkRun fuel args) h t (.call (.execve site path argv env) k)) :
    ∃ cli callerUid policy eval x gids nss,
      Planned fuel args cli callerUid policy eval (h.map Moment.event) x ∧
      Prog.Did (h.map Moment.event)
        (identityLookupGids x.nss cli.target x.req.targetGid 256) (gids, nss) ∧
      gids.head? = some x.req.targetGid ∧
      CredsFor x.req.targetUid x.req.targetGid gids x.req.capMask t.creds ∧
      CredsFor x.req.targetUid x.req.targetGid gids x.req.capMask t.creds.exec ∧
      (x.req.capMask = 0 → x.req.targetUid = 0 → SameCaps s.creds t.creds) := by
  obtain ⟨x, hreached⟩ := runs_shkRun hsite hrun
  obtain ⟨cli, callerUid, policy, eval, hplanned⟩ := hreached.planned
  obtain ⟨h₁, h₂, h₃, m, rfl, hm, hdrop⟩ := hreached.arrived.dropped
  obtain ⟨g₁, g₂, gids, nss, rfl, hgids, hcreds, hroot⟩ :=
    completed_dropPrivileges hplanned.capMask_le (hm ▸ hs) hdrop
  have hlookup : Returns (identityLookupGids x.nss x.req.targetUser x.req.targetGid 256)
      (g₁.map Moment.event) (gids, nss) := hgids.steps
  obtain ⟨mid, -, hfound⟩ := hplanned.targetFound
  have hgid : x.req.targetGid < 2 ^ 32 := returns_identityLookupUser_gid_lt hfound
  refine ⟨cli, callerUid, policy, eval, x, gids, nss, hplanned, ?_, ?_, hcreds, hcreds.exec,
    hm ▸ hroot⟩
  · rw [← hplanned.target_eq.2]
    refine hlookup.did.mono ⟨h₁.map Moment.event, (g₂ ++ h₃).map Moment.event, ?_⟩
    simp
  · rw [head_identityLookupGids hlookup, Nat.and_two_pow_sub_one_of_lt_two_pow (n := 32) hgid]

/-- A machine on which `al` may run `id` as `eve`, with one capability. -/
def eveMachine : FileView := rootFiles
  [(cstr "/etc/passwd", 420, twoUsers ++ utf8 "eve:x:1001:1001::/home/eve:/bin/sh\n"),
    (defaultPolicyPath, 384, utf8 "[[rules]]\nuser=\"al\"\nrun_as=\"eve\"\n" ++
      utf8 "require_auth=false\ncapabilities=[\"CAP_NET_RAW\"]\n"),
    (cstr "/bin/id", 493, [])]

/-- The run of `al` as `eve`, in a process that is set-uid root, on a pseudo-terminal. -/
theorem reaches_id_eve : ∃ h t k, Runs processWorld (setuidProcess 1000)
    (shkRun 1 [cstr "shakti", cstr "-u", cstr "eve", cstr "/bin/id"]) h t
    (.call (.execve .execTargetPty (cstr "/bin/id") [cstr "/bin/id"]
      (fixedEnv ⟨cstr "al", 1000, 1000, cstr "eve", cstr "/home/eve", cstr "/bin/sh"⟩)) k) ∧
    t.creds.ruid = 1001 ∧ t.creds.permitted = maskCaps (2 ^ 13) := by
  have hmask : ∀ c, (2 ^ 13).testBit c = true → c ≤ capLastCap := by
    intro c hc
    rw [Nat.testBit_two_pow, decide_eq_true_iff] at hc
    exact hc ▸ by decide
  obtain ⟨h, k, hrun⟩ := Runs.of_play_pending (handsOver_answers eveMachine hmask)
    (setuidProcess_granted 1000 hmask)
    (p := shkRun 1 [cstr "shakti", cstr "-u", cstr "eve", cstr "/bin/id"])
    (c := .execve .execTargetPty (cstr "/bin/id") [cstr "/bin/id"]
      (fixedEnv ⟨cstr "al", 1000, 1000, cstr "eve", cstr "/home/eve", cstr "/bin/sh"⟩))
    (by decide)
  exact ⟨h, _, k, hrun, by decide, rfl⟩

/-- The run of `al`, who may run `id` as root, in a process that is set-uid root. -/
theorem reaches_id : ∃ h t env k, Runs processWorld (setuidProcess 1000)
    (shkRun 1 [cstr "shakti", cstr "/bin/id"]) h t
    (.call (.execve .execTarget (cstr "/bin/id") [cstr "/bin/id"] env) k) := by
  obtain ⟨h, k, hrun⟩ := Runs.of_play_pending (grants_answers idMachine)
    (setuidProcess_granted 1000 (Set.empty_subset _))
    (p := shkRun 1 [cstr "shakti", cstr "/bin/id"])
    (c := .execve .execTarget (cstr "/bin/id") [cstr "/bin/id"]
      (fixedEnv ⟨cstr "al", 1000, 1000, cstr "root", cstr "/root", cstr "/bin/sh"⟩)) (by decide)
  exact ⟨h, _, _, k, hrun⟩

theorem shkRun_handsOver_id :
    ∃ (h : List (Moment sysSig Process)) (t : Creds) (cli : CliArgs) (callerUid : Nat)
      (policy : Policy) (eval : Evaluation) (x : Handover) (gids : List Nat) (nss : NssState),
      t.ruid = 1001 ∧ t.permitted = maskCaps (2 ^ 13) ∧
      Planned 1 [cstr "shakti", cstr "-u", cstr "eve", cstr "/bin/id"] cli callerUid policy eval
        (h.map Moment.event) x ∧
      Prog.Did (h.map Moment.event)
        (identityLookupGids x.nss cli.target x.req.targetGid 256) (gids, nss) ∧
      gids.head? = some x.req.targetGid ∧
      CredsFor x.req.targetUid x.req.targetGid gids x.req.capMask t ∧
      CredsFor x.req.targetUid x.req.targetGid gids x.req.capMask t.exec ∧
      (x.req.capMask = 0 → x.req.targetUid = 0 → SameCaps (setuidProcess 1000).creds t) := by
  obtain ⟨h, t, k, hrun, hruid, hpermitted⟩ := reaches_id_eve
  obtain ⟨cli, callerUid, policy, eval, x, gids, nss, hhands⟩ :=
    shkRun_handsOver (by decide) (setuidProcess_setuidRoot 1000) hrun
  exact ⟨h, t.creds, cli, callerUid, policy, eval, x, gids, nss, hruid, hpermitted, hhands⟩

/-- **What the target finds.** Whatever descriptors `shk_run` was started with, and `close_range`
being there, the command of the target is executed with no descriptor of the program's own: on the
direct path with those of stdin, stdout and stderr that the process was started with; on the
pseudo-terminal path with the slave of one that this run has opened, three times, and nothing
else. -/
theorem shkRun_descriptors {fuel : Nat} {args : List CStr}
    {k : SysCall.Answer (.execve site path argv env) → Sys Int} (hsite : site ≠ .suAuthenticate)
    (hrun : Runs processWorld s (shkRun fuel args) h t (.call (.execve site path argv env) k)) :
    (∀ fd, 3 ≤ fd → t.fds fd = none) ∧
    (site = .execTarget → ∀ fd, fd ≤ 2 → t.fds fd = s.fds fd) ∧
    (site = .execTargetPty →
      ∃ n, n ∉ s.ptys ∧ n ∈ t.ptys ∧ ∀ fd, 0 ≤ fd → fd ≤ 2 → t.fds fd = some (.ptySlave n)) ∧
    t.mask = s.mask ∧ t.tty = s.tty := by
  obtain ⟨x, hreached⟩ := runs_shkRun hsite hrun
  refine ⟨fun fd hfd => ?_, fun hdirect fd hfd => ?_, fun hpty => ?_, hreached.arrived.mask,
    hreached.arrived.tty⟩
  · rcases hreached.site_cases with hdirect | hpty
    · rw [hreached.direct hdirect]
      exact if_pos hfd
    · obtain ⟨n, -, -, hfds⟩ := (hreached.apart hpty).slave
      rw [hfds fd (by omega), if_neg (by omega)]
  · rw [hreached.direct hdirect]
    exact if_neg (by omega)
  · obtain ⟨n, hnew, hn, hfds⟩ := (hreached.apart hpty).slave
    exact ⟨n, hnew, hn, fun fd hlow hfd => by rw [hfds fd hlow, if_pos hfd]⟩

/-- On the direct path, and on a pseudo-terminal. -/
theorem shkRun_descriptors_id :
    (∃ t : Process, (∀ fd, 3 ≤ fd → t.fds fd = none) ∧
      (∀ fd, fd ≤ 2 → t.fds fd = (setuidProcess 1000).fds fd) ∧
      t.mask = (setuidProcess 1000).mask ∧ t.tty = (setuidProcess 1000).tty) ∧
    ∃ t : Process, (∀ fd, 3 ≤ fd → t.fds fd = none) ∧
      (∃ n, n ∉ (setuidProcess 1000).ptys ∧ n ∈ t.ptys ∧
        ∀ fd, 0 ≤ fd → fd ≤ 2 → t.fds fd = some (.ptySlave n)) ∧
      t.mask = (setuidProcess 1000).mask ∧ t.tty = (setuidProcess 1000).tty := by
  constructor
  · obtain ⟨h, t, env, k, hrun⟩ := reaches_id
    obtain ⟨hclosed, hdirect, -, hrest⟩ := shkRun_descriptors (by decide) hrun
    exact ⟨t, hclosed, hdirect rfl, hrest⟩
  · obtain ⟨h, t, k, hrun, -⟩ := reaches_id_eve
    obtain ⟨hclosed, -, hpty, hrest⟩ := shkRun_descriptors (by decide) hrun
    exact ⟨t, hclosed, hpty rfl, hrest⟩

/-- **A target that is neither root nor the caller is kept apart.** It runs in a child that leads
a session of its own, on a pseudo-terminal of this run, so that it has no hold on the terminal of
the caller; and so does every command whose session is logged. Only a command that is run as root
or as the caller takes the place of the process itself. Either way it has the uid of the
target. -/
theorem shkRun_isolated {fuel : Nat} {args : List CStr}
    {k : SysCall.Answer (.execve site path argv env) → Sys Int} (hsite : site ≠ .suAuthenticate)
    (hrun : Runs processWorld s (shkRun fuel args) h t (.call (.execve site path argv env) k)) :
    ∃ cli callerUid policy eval x,
      Planned fuel args cli callerUid policy eval (h.map Moment.event) x ∧
      (x.logs.doLog = true ∨ (x.req.targetUid ≠ s.creds.ruid ∧ x.req.targetUid ≠ 0) →
        OnOwnTerminal s t) ∧
      (t.child = s.child ∧ t.leader = s.leader ∨ OnOwnTerminal s t) ∧
      t.creds.ruid = x.req.targetUid := by
  obtain ⟨x, hreached⟩ := runs_shkRun hsite hrun
  obtain ⟨cli, callerUid, policy, eval, hplanned⟩ := hreached.planned
  refine ⟨cli, callerUid, policy, eval, x, hplanned, fun happart => hreached.apart ?_, ?_, ?_⟩
  · rw [hreached.site_eq, if_pos]
    rw [hreached.pty]
    rcases happart with hlog | ⟨hcaller, hroot⟩
    · simp [sessionNeedsPty, hlog]
    · simp [sessionNeedsPty, hcaller, hroot]
  · rcases hreached.site_cases with hdirect | hpty
    · have ht := hreached.direct hdirect
      exact Or.inl ⟨by rw [ht]; rfl, by rw [ht]; rfl⟩
    · exact Or.inr (hreached.apart hpty)
  · obtain ⟨h₁, h₂, h₃, m, -, -, hdrop⟩ := hreached.arrived.dropped
    exact (leads_dropPrivileges_ruid hplanned.capMask_le ..).completed hdrop

theorem shkRun_isolated_id :
    ∃ (h : List (Moment sysSig Process)) (t : Process) (cli : CliArgs) (callerUid : Nat)
      (policy : Policy) (eval : Evaluation) (x : Handover),
      Planned 1 [cstr "shakti", cstr "-u", cstr "eve", cstr "/bin/id"] cli callerUid policy eval
        (h.map Moment.event) x ∧
      x.req.targetUid = 1001 ∧ OnOwnTerminal (setuidProcess 1000) t := by
  obtain ⟨h, t, k, hrun, hruid, -⟩ := reaches_id_eve
  obtain ⟨cli, callerUid, policy, eval, x, hplanned, hown, -, huid⟩ :=
    shkRun_isolated (by decide) hrun
  have htarget : x.req.targetUid = 1001 := huid.symm.trans hruid
  refine ⟨h, t, cli, callerUid, policy, eval, x, hplanned, htarget, hown (Or.inr ?_)⟩
  rw [htarget]
  exact ⟨by decide, by decide⟩

end Shakti
