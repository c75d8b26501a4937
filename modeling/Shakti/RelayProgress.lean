import Shakti.RelayStreams

/-!
# Shakti.RelayProgress

Whether the relay spins: its runs, cut at the polls into turns, and what a turn gets done.

`poll` reports a condition of a descriptor again and again, for as long as it lasts. A turn of
the loop that does nothing about a condition is therefore followed by another such turn.

* `turns` — a run, cut at its polls.
* `RelayTurn.Progress` — a turn reads from a descriptor that reports a condition, or polls it
  no more.
* `RelayTurn.Heeded` — the conditions a turn reports are among those the relay looks for:
  input, and of the master also a hang-up or an error.
* `TurnSpec` — what a turn can do. Everything else is read off it, and off the order of the
  turns (`RelayRun`).

In runs that are heeded the relay makes progress, and has two turns more than bytes moved,
resize signals and interruptions taken together (`sessionRelay_neverSpins`). A stdin that
reports a hang-up and no input is not heeded, and keeps the relay going round
(`sessionRelay_spins`).
-/

namespace Shakti

open Effects
open Effects.Prog (Steps Returns Issues Avoids returns_bind_iff returns_pure_iff returns_call_iff
  issues_call_iff Issues.bind_avoids not_issues_pure)

/-! ### A run, cut at its polls -/

/-- One turn of the loop: the descriptors polled, what `poll` answered, the calls made since,
and the descriptors polled next. After its last turn the loop polls none. -/
structure RelayTurn where
  fds : List Int
  answer : Int × List Nat
  calls : Trace
  next : Option (List Int)

/-- The calls before the first poll. -/
def untilPoll : Trace → Trace
  | [] => []
  | ⟨.poll _, _⟩ :: _ => []
  | e :: tr => e :: untilPoll tr

/-- The descriptors of the first poll, and `next` when there is none. -/
def nextPolled (next : Option (List Int)) : Trace → Option (List Int)
  | [] => next
  | ⟨.poll fds, _⟩ :: _ => some fds
  | _ :: tr => nextPolled next tr

/-- The turns of a run, after which `next` is polled. -/
def turns (next : Option (List Int)) : Trace → List RelayTurn
  | [] => []
  | ⟨.poll fds, r⟩ :: tr => ⟨fds, r, untilPoll tr, nextPolled next tr⟩ :: turns next tr
  | _ :: tr => turns next tr

/-- After the run `tr` no turn is half done: the program has returned, or polls next. -/
def Paused {α : Type} (p : Sys α) (tr : Trace) : Option (List Int) → Prop
  | none => ∃ a, Returns p tr a
  | some fds => Issues p tr (.poll fds)

/-! ### Progress -/

/-- `POLLNVAL`, which the source has no name for. -/
def pollnval : Nat := 32

/-- What `poll` may report when asked for input. -/
def pollConditions : Nat := pollin ||| pollhup ||| pollerr ||| pollnval

namespace RelayTurn

variable (t : RelayTurn)

/-- The descriptor polled at place `i`: the master at 0, stdin at 1, the resize notifications
at 2. A negative one is not polled. -/
def polled (i : Nat) : Int := t.fds.getD i (-1)

/-- What `poll` reported at place `i`; an interrupted or failed `poll` reports nothing. -/
def reported (i : Nat) : Nat := if t.answer.1 < 0 then 0 else t.answer.2.getD i 0

/-- The descriptor at place `i` is polled, and reports a condition. -/
def Reports (i : Nat) : Prop := 0 ≤ t.polled i ∧ t.reported i &&& pollConditions ≠ 0

/-- When the descriptor at place `i` reports a condition, something is read from it, or it is
not polled again: the loop goes on without it, or has ended. -/
def Progress (i : Nat) : Prop :=
  t.Reports i → readFrom (t.polled i) t.calls ≠ [] ∨
    ∀ fds, t.next = some fds → fds.getD i (-1) ≠ t.polled i

/-- The bytes read from the master and from stdin. -/
def moved : Nat :=
  (readFrom (t.polled 0) t.calls).length + (readFrom (t.polled 1) t.calls).length

/-- The resize signals taken. -/
def signals : Nat := t.calls.countP (fun e => readBy (t.polled 2) e ≠ [])

/-- Whether the `poll` was interrupted. -/
def interrupted : Nat := if t.answer.1 = -eintrErrno then 1 else 0

/-- What the turn has got done. -/
def gain : Nat := t.moved + t.signals + t.interrupted

/-- What is documented of `poll` without a timeout, and of a `signalfd`: when `poll` is not
interrupted, something polled reports a condition. A `signalfd` reports input only, and the
read that follows takes a signal. -/
structure Answered : Prop where
  ready : 0 ≤ t.answer.1 → ∃ i, t.Reports i
  signalled : t.Reports 2 → t.reported 2 &&& pollin ≠ 0
  taken : ∀ r rest, t.reported 2 &&& pollin ≠ 0 →
    t.calls = ⟨.read (t.polled 2) siginfoSize, r⟩ :: rest → (Option.getD r []).take siginfoSize ≠ []

/-- The master ends: it hangs up or has an error, or reports input and delivers none. -/
def MasterEnds : Prop :=
  t.reported 0 &&& (pollhup ||| pollerr) ≠ 0 ∨
    t.reported 0 &&& pollin ≠ 0 ∧ readFrom (t.polled 0) t.calls = []

/-- The conditions reported include one that is looked for. Nothing is looked for at stdin but
input; when the master ends, nothing else matters. -/
structure Heeded : Prop where
  master : t.Reports 0 → t.reported 0 &&& (pollin ||| (pollhup ||| pollerr)) ≠ 0
  stdin : t.Reports 1 → t.reported 1 &&& pollin ≠ 0 ∨ t.MasterEnds

end RelayTurn

/-- What the turns have got done together. -/
def gains : List RelayTurn → Nat
  | [] => 0
  | t :: ts => t.gain + gains ts

/-- The relay makes progress in every turn and, answered as documented, has at most `k` turns
more than it gets done. -/
structure NeverSpins (k : Nat) (ts : List RelayTurn) : Prop where
  progress : ∀ t ∈ ts, t.Progress 0 ∧ t.Progress 1
  bounded : (∀ t ∈ ts, t.Answered) → ts.length ≤ gains ts + k

/-! ### One turn -/

/-- What the loop polls. -/
def relayFds (master winchFd : Int) (stdinOpen : Bool) : List Int :=
  [master, if stdinOpen then 0 else -1, winchFd]

/-- What a turn can do. -/
structure TurnSpec (t : RelayTurn) : Prop where
  failed : t.answer.1 < 0 → t.answer.1 ≠ -eintrErrno → t.next = none
  resized : 0 ≤ t.polled 2 → t.reported 2 &&& pollin ≠ 0 →
    ∃ r rest, t.calls = ⟨.read (t.polled 2) siginfoSize, r⟩ :: rest
  hungUp : t.reported 0 &&& (pollhup ||| pollerr) ≠ 0 → t.next = none
  output : t.reported 0 &&& pollin ≠ 0 →
    readFrom (t.polled 0) t.calls ≠ [] ∨ t.next = none
  input : 0 ≤ t.polled 1 → t.reported 1 &&& pollin ≠ 0 →
    readFrom (t.polled 1) t.calls ≠ [] ∨ ∀ fds, t.next = some fds → fds.getD 1 (-1) = -1

/-- The turns of a run of the loop from a state of stdin on. Once closed, stdin stays
closed. -/
inductive RelayRun (master winchFd : Int) : Bool → List RelayTurn → Prop
  | start (stdinOpen : Bool) : RelayRun master winchFd stdinOpen []
  | last {stdinOpen : Bool} {t : RelayTurn} :
      t.fds = relayFds master winchFd stdinOpen → TurnSpec t → t.next = none →
      RelayRun master winchFd stdinOpen [t]
  | turn {stdinOpen stdinOpen' : Bool} {t : RelayTurn} {ts : List RelayTurn} :
      t.fds = relayFds master winchFd stdinOpen → TurnSpec t →
      t.next = some (relayFds master winchFd stdinOpen') → (stdinOpen' = true → stdinOpen = true) →
      RelayRun master winchFd stdinOpen' ts → RelayRun master winchFd stdinOpen (t :: ts)

section Turn

variable {t : RelayTurn}

theorem TurnSpec.next_of_masterEnds (h : TurnSpec t) (hends : t.MasterEnds) : t.next = none := by
  rcases hends with hhup | ⟨hinput, hnil⟩
  · exact h.hungUp hhup
  · exact (h.output hinput).resolve_left fun hne => hne hnil

/-- A turn that is heeded makes progress with the master. -/
theorem TurnSpec.progress_master (h : TurnSpec t) (hheeded : t.Heeded) : t.Progress 0 := by
  intro hreports
  have hbits := hheeded.master hreports
  rw [Nat.and_or_distrib_left, Ne, Nat.or_eq_zero_iff, not_and_or] at hbits
  have hread : readFrom (t.polled 0) t.calls ≠ [] ∨ t.next = none :=
    hbits.elim h.output fun hhup => Or.inr (h.hungUp hhup)
  exact hread.imp_right fun hnone fds hnext => by simp [hnone] at hnext

/-- A turn that is heeded makes progress with stdin. -/
theorem TurnSpec.progress_stdin (h : TurnSpec t) (hheeded : t.Heeded) : t.Progress 1 := by
  intro hreports
  have hpolled := hreports.1
  rcases hheeded.stdin hreports with hinput | hends
  · refine (h.input hpolled hinput).imp_right fun hclosed fds hnext => ?_
    rw [hclosed fds hnext]
    omega
  · right
    intro fds hnext
    simp [h.next_of_masterEnds hends] at hnext

/-- A signal that was taken counts. -/
theorem one_le_signals {r : Option Bytes} {rest : Trace}
    (hcalls : t.calls = ⟨.read (t.polled 2) siginfoSize, r⟩ :: rest)
    (hne : (r.getD []).take siginfoSize ≠ []) : 1 ≤ t.signals := by
  have hread : readBy (t.polled 2) ⟨.read (t.polled 2) siginfoSize, r⟩ ≠ [] := by
    simpa only [readBy, if_true] using hne
  rw [RelayTurn.signals, hcalls, List.countP_cons_of_pos (by simpa using hread)]
  exact Nat.le_add_left 1 _

/-- A turn after which the loop goes on gets something done, or closes stdin. -/
theorem TurnSpec.one_le_gain (h : TurnSpec t) {master winchFd : Int}
    {stdinOpen stdinOpen' : Bool} (hfds : t.fds = relayFds master winchFd stdinOpen)
    (hnext : t.next = some (relayFds master winchFd stdinOpen')) (hans : t.Answered)
    (hheeded : t.Heeded) : 1 ≤ t.gain ∨ stdinOpen = true ∧ stdinOpen' = false := by
  have hgoes : t.next ≠ none := by simp [hnext]
  rw [RelayTurn.gain, RelayTurn.moved]
  by_cases hfailed : t.answer.1 < 0
  · have hintr : t.answer.1 = -eintrErrno := by
      by_contra hother
      exact hgoes (h.failed hfailed hother)
    have hcount : t.interrupted = 1 := if_pos hintr
    omega
  · obtain ⟨i, hreports⟩ := hans.ready (Int.not_lt.mp hfailed)
    match i with
    | 0 =>
        have hread := (h.progress_master hheeded hreports).resolve_right fun hleft =>
          hleft _ hnext (by simp [RelayTurn.polled, hfds, relayFds])
        have hpos := List.length_pos_iff.mpr hread
        omega
    | 1 =>
        rcases h.progress_stdin hheeded hreports with hread | hleft
        · have hpos := List.length_pos_iff.mpr hread
          omega
        · have hother := hleft _ hnext
          have hpolled := hreports.1
          cases stdinOpen <;> cases stdinOpen' <;>
            simp_all [RelayTurn.polled, relayFds]
    | 2 =>
        have hinput := hans.signalled hreports
        obtain ⟨r, rest, hcalls⟩ := h.resized hreports.1 hinput
        have hcount := one_le_signals hcalls (hans.taken r rest hinput hcalls)
        omega
    | i + 3 => exact absurd hreports.1 (by simp [RelayTurn.polled, hfds, relayFds])

end Turn

/-! ### Runs of turns -/

section RelayRun

variable {master winchFd : Int} {stdinOpen : Bool} {ts : List RelayTurn}

theorem RelayRun.spec (h : RelayRun master winchFd stdinOpen ts) : ∀ t ∈ ts, TurnSpec t := by
  induction h with
  | start => simp
  | last _ hspec => simpa using hspec
  | turn _ hspec _ _ _ ih => simpa using ⟨hspec, ih⟩

/-- Every turn gets something done, but the one that closes stdin and the last. -/
theorem RelayRun.length_le (h : RelayRun master winchFd stdinOpen ts)
    (hans : ∀ t ∈ ts, t.Answered) (hheeded : ∀ t ∈ ts, t.Heeded) :
    ts.length ≤ gains ts + stdinOpen.toNat + 1 := by
  induction h with
  | start => simp
  | last => simp
  | @turn stdinOpen stdinOpen' t ts hfds hspec hnext hclosed _ ih =>
      rw [List.forall_mem_cons] at hans hheeded
      have hrest := ih hans.2 hheeded.2
      rw [gains, List.length_cons]
      rcases hspec.one_le_gain hfds hnext hans.1 hheeded.1 with hgain | ⟨rfl, rfl⟩
      · have hle : stdinOpen'.toNat ≤ stdinOpen.toNat := by
          cases stdinOpen' with
          | false => exact Nat.zero_le _
          | true => rw [hclosed rfl]
        omega
      · simp only [Bool.toNat_true, Bool.toNat_false] at hrest ⊢
        omega

theorem RelayRun.neverSpins (h : RelayRun master winchFd true ts)
    (hheeded : ∀ t ∈ ts, t.Heeded) : NeverSpins 2 ts where
  progress t ht :=
    ⟨(h.spec t ht).progress_master (hheeded t ht), (h.spec t ht).progress_stdin (hheeded t ht)⟩
  bounded hans := h.length_le hans hheeded

end RelayRun

/-! ### Cutting a run -/

section Cut

variable {next : Option (List Int)} {fds : List Int} {calls rest tr : Trace}

/-- A `poll`. -/
@[simp] def IsPoll : SysCall → Prop
  | .poll _ => True
  | _ => False

/-- The calls of a turn, and what comes behind them. -/
theorem turns_append (hcalls : ∀ e ∈ calls, ¬ IsPoll e.call) (rest : Trace) :
    untilPoll (calls ++ rest) = calls ++ untilPoll rest ∧
      nextPolled next (calls ++ rest) = nextPolled next rest ∧
      turns next (calls ++ rest) = turns next rest := by
  induction calls with
  | nil => exact ⟨rfl, rfl, rfl⟩
  | cons e calls ih =>
      obtain ⟨he, hcalls⟩ := List.forall_mem_cons.mp hcalls
      obtain ⟨huntil, hnext, hturns⟩ := ih hcalls
      obtain ⟨c, r⟩ := e
      cases c with
      | poll => exact absurd trivial he
      | _ => exact ⟨congrArg (_ :: ·) huntil, hnext, hturns⟩

theorem turns_poll (r : Int × List Nat) (hcalls : ∀ e ∈ calls, ¬ IsPoll e.call) (rest : Trace) :
    turns next (⟨.poll fds, r⟩ :: (calls ++ rest)) =
      ⟨fds, r, calls ++ untilPoll rest, nextPolled next rest⟩ :: turns next rest := by
  obtain ⟨huntil, hnext, hturns⟩ := @turns_append next calls hcalls rest
  rw [turns, huntil, hnext, hturns]

/-- A run without a poll has no turns. -/
theorem turns_of_free (hcalls : ∀ e ∈ calls, ¬ IsPoll e.call) :
    nextPolled next calls = next ∧ turns next calls = [] := by
  have hcut := (@turns_append next calls hcalls []).2
  rwa [List.append_nil] at hcut

variable {α β : Type}

theorem paused_pure_iff {a : α} : Paused (pure a : Sys α) tr next ↔ tr = [] ∧ next = none := by
  cases next with
  | none => simp [Paused, returns_pure_iff]
  | some fds => simp [Paused, not_issues_pure]

theorem paused_call_iff {c : SysCall} {k : c.Answer → Sys α} :
    Paused (.call c k) tr next ↔
      (tr = [] ∧ ∃ fds, c = .poll fds ∧ next = some fds) ∨
        ∃ r tr', tr = ⟨c, r⟩ :: tr' ∧ Paused (k r) tr' next := by
  cases next with
  | none =>
      simp only [Paused, returns_call_iff (S := sysSig), reduceCtorEq, and_false, exists_false,
        false_or]
      exact ⟨fun ⟨a, r, tr', h, hr⟩ => ⟨r, tr', h, a, hr⟩,
        fun ⟨r, tr', h, a, hr⟩ => ⟨a, r, tr', h, hr⟩⟩
  | some fds =>
      rw [Paused, issues_call_iff]
      simp [Paused, eq_comm]

theorem paused_sys_bind_iff {c : SysCall} {f : c.Answer → Sys α} :
    Paused (sys c >>= f) tr next ↔
      (tr = [] ∧ ∃ fds, c = .poll fds ∧ next = some fds) ∨
        ∃ r tr', tr = ⟨c, r⟩ :: tr' ∧ Paused (f r) tr' next :=
  paused_call_iff

/-- A run of a sequence whose first part never polls has run through that part. -/
theorem Paused.bind_avoids {p : Sys α} {f : α → Sys β} (h : Paused (p >>= f) tr next)
    (hp : Avoids IsPoll p) :
    ∃ tr₁ tr₂ a, tr = tr₁ ++ tr₂ ∧ (∀ e ∈ tr₁, ¬ IsPoll e.call) ∧ Returns p tr₁ a ∧
      Paused (f a) tr₂ next := by
  cases next with
  | none =>
      obtain ⟨b, h⟩ := h
      obtain ⟨tr₁, tr₂, a, rfl, hfirst, hsecond⟩ := returns_bind_iff.mp h
      exact ⟨tr₁, tr₂, a, rfl, hp.returns hfirst, hfirst, b, hsecond⟩
  | some fds =>
      obtain ⟨tr₁, tr₂, a, rfl, hfirst, hsecond⟩ := Issues.bind_avoids h hp trivial
      exact ⟨tr₁, tr₂, a, rfl, hp.returns hfirst, hfirst, hsecond⟩

/-- What comes before the first poll has no turns. -/
theorem Paused.skip {p : Sys α} {f : α → Sys β} (h : Paused (p >>= f) tr next)
    (hp : Avoids IsPoll p) :
    ∃ rest a, turns next tr = turns next rest ∧ Paused (f a) rest next := by
  obtain ⟨tr₁, rest, a, rfl, hfree, -, hrest⟩ := h.bind_avoids hp
  exact ⟨rest, a, (turns_append hfree rest).2.2, hrest⟩

/-- A program that never polls has returned. -/
theorem Paused.of_avoids {p : Sys α} (h : Paused p tr next) (hp : Avoids IsPoll p) :
    (∀ e ∈ tr, ¬ IsPoll e.call) ∧ next = none := by
  cases next with
  | none =>
      obtain ⟨a, h⟩ := h
      exact ⟨hp.returns h, rfl⟩
  | some fds => exact absurd h (hp.not_issues trivial)

end Cut

/-! ### The relay, one function at a time -/

section Relay

variable {master logfd inlogfd winchFd : Int} {fuel : Nat} {tr : Trace}

/-- A read, and the program goes on with what it delivered. -/
theorem returns_fileRead_bind_iff {β : Type} {fd : Int} {count : Nat} {f : Bytes → Sys β} {b : β} :
    Returns (fileRead fd count >>= f) tr b ↔
      ∃ r tr', tr = ⟨.read fd count, r⟩ :: tr' ∧
        Returns (f ((Option.getD r []).take count)) tr' b :=
  returns_call_iff

/-- A read that delivers something. -/
theorem readFrom_read_ne_nil {fd : Int} {count : Nat} {r : Option Bytes}
    (hne : (r.getD []).take count ≠ []) (tr : Trace) :
    readFrom fd (⟨.read fd count, r⟩ :: tr) ≠ [] := by
  intro hnil
  have hfirst : readBy fd ⟨.read fd count, r⟩ = [] := (List.append_eq_nil_iff.mp hnil).1
  rw [readBy, if_pos rfl] at hfirst
  exact hne hfirst

/-- The drain begins with a read. -/
theorem returns_relayResize {revents : Nat}
    (h : Returns (relayResize master winchFd revents fuel) tr ()) (hon : 0 ≤ winchFd)
    (hinput : revents &&& pollin ≠ 0) : ∃ r rest, tr = ⟨.read winchFd siginfoSize, r⟩ :: rest := by
  rw [relayResize, if_pos ⟨hon, hinput⟩] at h
  obtain ⟨tr₁, tr₂, _, rfl, hdrain, -⟩ := returns_bind_iff.mp h
  cases fuel with
  | zero =>
      obtain ⟨r, -⟩ := returns_call_iff.mp hdrain
      exact r.elim
  | succ fuel =>
      obtain ⟨r, rest, rfl, -⟩ := returns_fileRead_bind_iff.mp hdrain
      exact ⟨r, rest ++ tr₂, rfl⟩

/-- The master delivers something, or its output has ended. -/
theorem returns_relayMaster {hup ended : Bool}
    (h : Returns (relayMaster master logfd hup fuel) tr ended) :
    readFrom master tr ≠ [] ∨ ended = true := by
  cases fuel with
  | zero =>
      obtain ⟨r, -⟩ := returns_call_iff.mp h
      exact r.elim
  | succ fuel =>
      obtain ⟨r, rest, rfl, hrest⟩ := returns_fileRead_bind_iff.mp h
      split at hrest
      case isTrue => exact Or.inr (returns_pure_iff.mp hrest).2
      case isFalse hne => exact Or.inl (readFrom_read_ne_nil hne rest)

/-- Stdin delivers something, or is closed. -/
theorem returns_relayStdin {stdinOpen : Bool}
    (h : Returns (relayStdin master inlogfd) tr stdinOpen) :
    readFrom 0 tr ≠ [] ∨ stdinOpen = false := by
  obtain ⟨r, rest, rfl, hrest⟩ := returns_fileRead_bind_iff.mp h
  split at hrest
  case isTrue => exact Or.inr (returns_pure_iff.mp hrest).2
  case isFalse hne => exact Or.inl (readFrom_read_ne_nil hne rest)

theorem avoids_isPoll_fullWrite (fd : Int) (data : Bytes) :
    Avoids IsPoll (fullWrite fd data) := by
  have hwrite : ∀ fuel data, Avoids IsPoll (sessionFullWrite fd fuel data) := by
    intro fuel
    induction fuel with
    | zero => simp [sessionFullWrite]
    | succ fuel ih => simp [sessionFullWrite, ih]
  simp [fullWrite, hwrite]

/-- What never polls nor writes to a negative descriptor never polls. -/
theorem avoids_isPoll_of_offPort {α : Type} {p : Sys α} (hp : Avoids OffPort p) :
    Avoids IsPoll p := by
  refine hp.mono fun c hc => ?_
  cases c with
  | poll => exact trivial
  | _ => exact hc.elim

theorem avoids_isPoll_relayStdin (master inlogfd : Int) :
    Avoids IsPoll (relayStdin master inlogfd) := by
  have hread := avoids_isPoll_of_offPort (offPort_fileRead 0 4096)
  have hecho := avoids_isPoll_of_offPort (offPort_sessionSlaveEchoOn master)
  simp [relayStdin, logKeystrokes, hread, hecho, avoids_isPoll_fullWrite]

/-- Stdin is not opened again. -/
theorem open_of_stillOpen {revents : Nat} {stdinOpen stdinOpen' : Bool}
    (h : Returns (if stdinOpen ∧ revents &&& pollin ≠ 0 then relayStdin master inlogfd
      else pure stdinOpen) tr stdinOpen') (hopen : stdinOpen' = true) : stdinOpen = true := by
  subst hopen
  split at h
  case isTrue hwas => exact hwas.1
  case isFalse => exact (returns_pure_iff.mp h).2.symm

/-- What is done after a `poll` that reports something, put together. -/
theorem turnSpec_of_parts {stdinOpen stdinOpen' ended : Bool} {pr : Int} {revents : List Nat}
    {tr₁ tr₂ tr₃ tr₄ : Trace} {next : Option (List Int)} (hpr : 0 ≤ pr)
    (hresize : Returns (relayResize master winchFd (revents.getD 2 0) fuel) tr₁ ())
    (hmaster : Returns (if revents.getD 0 0 &&& pollin ≠ 0 then
      relayMaster master logfd (decide (revents.getD 0 0 &&& (pollhup ||| pollerr) ≠ 0)) fuel
      else pure false) tr₂ ended)
    (hstdin : Returns (if stdinOpen ∧ revents.getD 1 0 &&& pollin ≠ 0 then
      relayStdin master inlogfd else pure stdinOpen) tr₃ stdinOpen')
    (hended : ended = true ∨ revents.getD 0 0 &&& (pollhup ||| pollerr) ≠ 0 → next = none)
    (hnext : ∀ fds, next = some fds → fds = relayFds master winchFd stdinOpen') :
    TurnSpec ⟨relayFds master winchFd stdinOpen, (pr, revents), tr₁ ++ (tr₂ ++ (tr₃ ++ tr₄)),
      next⟩ := by
  have hreported : ∀ i, RelayTurn.reported ⟨relayFds master winchFd stdinOpen, (pr, revents),
      tr₁ ++ (tr₂ ++ (tr₃ ++ tr₄)), next⟩ i = revents.getD i 0 :=
    fun i => if_neg (Int.not_lt.mpr hpr)
  -- The fields of `TurnSpec`: a failed poll, a resize, a hangup, the master, stdin.
  refine ⟨?_, ?_, ?_, ?_, ?_⟩
  · exact fun hneg _ => absurd hneg (Int.not_lt.mpr hpr)
  · intro hon hinput
    rw [hreported] at hinput
    obtain ⟨r, rest, rfl⟩ := returns_relayResize hresize hon hinput
    exact ⟨r, rest ++ (tr₂ ++ (tr₃ ++ tr₄)), rfl⟩
  · intro hhup
    rw [hreported] at hhup
    exact hended (Or.inr hhup)
  · intro hinput
    rw [hreported] at hinput
    rw [if_pos hinput] at hmaster
    rcases returns_relayMaster hmaster with hread | hend
    · left
      intro hnil
      simp only [readFrom_append, List.append_eq_nil_iff] at hnil
      exact hread hnil.2.1
    · exact Or.inr (hended (Or.inl hend))
  · intro hon hinput
    rw [hreported] at hinput
    have hopen : stdinOpen = true := by
      cases stdinOpen with
      | true => rfl
      | false => simp [RelayTurn.polled, relayFds] at hon
    subst hopen
    rw [if_pos ⟨rfl, hinput⟩] at hstdin
    rcases returns_relayStdin hstdin with hread | hclosed
    · left
      intro hnil
      simp only [readFrom_append, List.append_eq_nil_iff] at hnil
      exact hread hnil.2.2.1
    · right
      intro fds hfds
      rw [hnext fds hfds, hclosed]
      rfl

/-- A turn whose `poll` failed makes no calls. -/
theorem turnSpec_of_failed {fds : List Int} {pr : Int} {revents : List Nat} {calls : Trace}
    {next : Option (List Int)} (hneg : pr < 0) (hnext : pr ≠ -eintrErrno → next = none) :
    TurnSpec ⟨fds, (pr, revents), calls, next⟩ := by
  have hreported : ∀ i bits,
      RelayTurn.reported ⟨fds, (pr, revents), calls, next⟩ i &&& bits = 0 := fun i bits => by
    rw [RelayTurn.reported, if_pos hneg, Nat.zero_and]
  exact ⟨fun _ => hnext, fun _ h => absurd (hreported 2 _) h, fun h => absurd (hreported 0 _) h,
    fun h => absurd (hreported 0 _) h, fun _ h => absurd (hreported 1 _) h⟩

/-- The loop polls first. -/
theorem Paused.nextPolled_eq {stdinOpen : Bool} {next : Option (List Int)}
    (h : Paused (sessionRelayLoop master logfd inlogfd winchFd fuel stdinOpen) tr next) :
    nextPolled next tr = some (relayFds master winchFd stdinOpen) := by
  cases fuel with
  | zero =>
      rcases paused_call_iff.mp h with ⟨-, fds, hpoll, -⟩ | ⟨r, -⟩
      · exact absurd hpoll (by simp)
      · exact r.elim
  | succ fuel =>
      rcases paused_sys_bind_iff.mp h with ⟨rfl, fds, hpoll, rfl⟩ | ⟨r, rest, rfl, -⟩
      · cases hpoll
        rfl
      · rfl

/-- The first turn of a run of the loop, and what follows it. -/
theorem Paused.turn {stdinOpen : Bool} {next : Option (List Int)}
    (h : Paused (sessionRelayLoop master logfd inlogfd winchFd (fuel + 1) stdinOpen) tr next) :
    tr = [] ∨ ∃ t rest, turns next tr = t :: turns next rest ∧
      t.fds = relayFds master winchFd stdinOpen ∧ TurnSpec t ∧
      (t.next = none ∧ turns next rest = [] ∨
        ∃ stdinOpen', t.next = some (relayFds master winchFd stdinOpen') ∧
          (stdinOpen' = true → stdinOpen = true) ∧
          Paused (sessionRelayLoop master logfd inlogfd winchFd fuel stdinOpen') rest next) := by
  rw [sessionRelayLoop] at h
  rcases paused_sys_bind_iff.mp h with ⟨rfl, -⟩ | ⟨⟨pr, revents⟩, rest, rfl, hbody⟩
  · exact Or.inl rfl
  right
  dsimp only at hbody
  -- A poll that failed: only an interruption lets the loop go on.
  split at hbody
  case isTrue hneg =>
    refine ⟨_, rest, rfl, rfl, ?_⟩
    split at hbody
    case isTrue hintr =>
      refine ⟨turnSpec_of_failed hneg fun hother => absurd hintr hother, Or.inr ?_⟩
      exact ⟨stdinOpen, hbody.nextPolled_eq, id, hbody⟩
    case isFalse =>
      obtain ⟨rfl, rfl⟩ := paused_pure_iff.mp hbody
      exact ⟨turnSpec_of_failed hneg fun _ => rfl, Or.inl ⟨rfl, rfl⟩⟩
  case isFalse hpos =>
    -- None of the three parts of a turn polls, so the turn ends where the run polls again.
    have hmasterFree : ∀ hup, Avoids IsPoll (relayMaster master logfd hup fuel) := fun hup =>
      avoids_isPoll_of_offPort (offPort_relayMaster master logfd hup fuel)
    obtain ⟨tr₁, rest₁, _, rfl, hfree₁, hresize, hrest₁⟩ :=
      hbody.bind_avoids (avoids_isPoll_of_offPort (offPort_relayResize ..))
    obtain ⟨tr₂, rest₂, ended, rfl, hfree₂, hmaster, hrest₂⟩ :=
      hrest₁.bind_avoids (by simp [hmasterFree])
    obtain ⟨tr₃, rest₃, stdinOpen', rfl, hfree₃, hstdin, hrest₃⟩ :=
      hrest₂.bind_avoids (by simp [avoids_isPoll_relayStdin])
    have hfree : ∀ e ∈ tr₁ ++ (tr₂ ++ tr₃), ¬ IsPoll e.call := by
      simp only [List.forall_mem_append]
      exact ⟨hfree₁, hfree₂, hfree₃⟩
    refine ⟨⟨relayFds master winchFd stdinOpen, (pr, revents),
      tr₁ ++ (tr₂ ++ (tr₃ ++ untilPoll rest₃)), nextPolled next rest₃⟩, rest₃, ?_, rfl, ?_⟩
    · have hturns :=
        @turns_poll next (relayFds master winchFd stdinOpen) _ (pr, revents) hfree rest₃
      simp only [List.append_assoc] at hturns
      exact hturns
    -- The loop ends with the master, or goes on with what is left open of stdin.
    split at hrest₃
    case isTrue hend =>
      obtain ⟨hfree₃, rfl⟩ := hrest₃.of_avoids (by simp)
      obtain ⟨hnone, hnil⟩ := turns_of_free hfree₃
      refine ⟨turnSpec_of_parts (Int.not_lt.mp hpos) hresize hmaster hstdin (fun _ => hnone) ?_,
        Or.inl ⟨hnone, hnil⟩⟩
      intro fds hfds
      simp [hnone] at hfds
    case isFalse hgo =>
      have hpoll := hrest₃.nextPolled_eq
      simp only [Bool.or_eq_true, decide_eq_true_eq] at hgo
      refine ⟨turnSpec_of_parts (Int.not_lt.mp hpos) hresize hmaster hstdin
        (fun hend => absurd hend hgo) ?_,
        Or.inr ⟨stdinOpen', hpoll, open_of_stillOpen hstdin, hrest₃⟩⟩
      intro fds hfds
      simpa [hpoll] using hfds.symm

/-- A run of the loop is a run of turns. -/
theorem Paused.relayRun {stdinOpen : Bool} {next : Option (List Int)}
    (h : Paused (sessionRelayLoop master logfd inlogfd winchFd fuel stdinOpen) tr next) :
    RelayRun master winchFd stdinOpen (turns next tr) := by
  induction fuel generalizing stdinOpen tr with
  | zero =>
      rcases paused_call_iff.mp h with ⟨rfl, -⟩ | ⟨r, -⟩
      · exact RelayRun.start stdinOpen
      · exact r.elim
  | succ fuel ih =>
      rcases h.turn with rfl | ⟨t, rest, hturns, hfds, hspec,
        ⟨hlast, hnil⟩ | ⟨_, hnext, hclosed, hrest⟩⟩
      · exact RelayRun.start stdinOpen
      · rw [hturns, hnil]
        exact RelayRun.last hfds hspec hlast
      · rw [hturns]
        exact RelayRun.turn hfds hspec hnext hclosed (ih hrest)

/-- A run of the relay is a run of turns. -/
theorem Paused.relayRun_sessionRelay {next : Option (List Int)}
    (h : Paused (sessionRelay fuel master logfd inlogfd) tr next) :
    ∃ winchFd, RelayRun master winchFd true (turns next tr) := by
  obtain ⟨rest₁, _, hturns₁, h₁⟩ :=
    h.skip (avoids_isPoll_of_offPort (offPort_sessionCopyWinsize ..))
  obtain ⟨rest₂, winchFd, hturns₂, h₂⟩ :=
    h₁.skip (avoids_isPoll_of_offPort offPort_sessionSigwinchFd)
  obtain ⟨rest₃, buf, hturns₃, h₃⟩ := h₂.skip (by simp)
  refine ⟨winchFd, ?_⟩
  rw [hturns₁, hturns₂, hturns₃]
  cases buf with
  | false =>
      obtain ⟨rfl, -⟩ := paused_pure_iff.mp h₃
      exact RelayRun.start true
  | true =>
      obtain ⟨rest₄, pfds, hturns₄, h₄⟩ := Paused.skip h₃ (by simp)
      rw [hturns₄]
      cases pfds with
      | false =>
          obtain ⟨rfl, -⟩ := paused_pure_iff.mp h₄
          exact RelayRun.start true
      | true => exact Paused.relayRun h₄

end Relay

/-- **A relay that is heeded never spins.** What `poll` reports of stdin while it is polled is
to include input, unless the master ends; what it reports of the master is to include input, a
hang-up or an error. -/
theorem sessionRelay_neverSpins {fuel : Nat} {master logfd inlogfd : Int} {tr : Trace}
    {next : Option (List Int)} (h : Paused (sessionRelay fuel master logfd inlogfd) tr next)
    (hheeded : ∀ t ∈ turns next tr, t.Heeded) : NeverSpins 2 (turns next tr) := by
  obtain ⟨winchFd, hrun⟩ := h.relayRun_sessionRelay
  exact hrun.neverSpins hheeded

/-! ### A stdin that hangs up -/

/-- A relay without logs and resize notifications comes to its loop. -/
def quietStart : Trace :=
  [⟨.alloc 8, true⟩,
    ⟨.ioctl 0 tiocgwinsz (List.replicate 8 0), none⟩,
    ⟨.alloc 8, true⟩,
    ⟨.sigprocmask sigBlock (1 <<< (sigwinch - 1)), (0 : Nat)⟩,
    ⟨.signalfd (1 <<< (sigwinch - 1)), (-1 : Int)⟩,
    ⟨.alloc 4096, true⟩,
    ⟨.alloc 24, true⟩]

theorem steps_quietStart (fuel : Nat) :
    Steps (sessionRelay fuel 5 (-1) (-1)) quietStart
      (sessionRelayLoop 5 (-1) (-1) (-1) fuel true) := by
  iterate 7 refine Steps.cons ?_
  exact Steps.nil _

/-- Stdin is empty and at its end: `poll` reports input, the read delivers none. Then the child
exits. -/
def closingRun : Trace :=
  quietStart ++
    [⟨.poll [5, 0, -1], ((1 : Int), [0, 1, 0])⟩,
      ⟨.read 0 4096, none⟩,
      ⟨.poll [5, -1, -1], ((1 : Int), [16, 0, 0])⟩]

theorem sessionRelay_neverSpins_closing : NeverSpins 2 (turns none closingRun) := by
  have hloop : Returns (sessionRelayLoop 5 (-1) (-1) (-1) 2 true)
      [⟨.poll [5, 0, -1], ((1 : Int), [0, 1, 0])⟩, ⟨.read 0 4096, none⟩,
        ⟨.poll [5, -1, -1], ((1 : Int), [16, 0, 0])⟩] 0 := by
    iterate 3 refine Steps.cons ?_
    exact Steps.nil _
  have hrun : Paused (sessionRelay 2 5 (-1) (-1)) closingRun none :=
    ⟨0, (steps_quietStart 2).trans hloop⟩
  refine sessionRelay_neverSpins hrun ?_
  have hturns : turns none closingRun =
      [⟨[5, 0, -1], (1, [0, 1, 0]), [⟨.read 0 4096, none⟩], some [5, -1, -1]⟩,
        ⟨[5, -1, -1], (1, [16, 0, 0]), [], none⟩] := rfl
  rw [hturns]
  intro t ht
  simp only [List.mem_cons, List.not_mem_nil, or_false] at ht
  rcases ht with rfl | rfl
  · exact ⟨fun h => absurd h.2 (by decide), fun _ => Or.inl (by decide)⟩
  · exact ⟨fun _ => by decide, fun h => absurd h.1 (by decide)⟩

section Idle

variable {master logfd inlogfd winchFd : Int} {stdinOpen : Bool} {r : Int × List Nat}

/-- A turn that reports nothing the relay looks for changes nothing. -/
theorem steps_idle (hr : 0 ≤ r.1)
    (hmaster : r.2.getD 0 0 &&& (pollin ||| (pollhup ||| pollerr)) = 0)
    (hstdin : r.2.getD 1 0 &&& pollin = 0) (hwinch : r.2.getD 2 0 &&& pollin = 0) (fuel n : Nat) :
    Steps (sessionRelayLoop master logfd inlogfd winchFd (fuel + n) stdinOpen)
      (List.replicate n ⟨.poll (relayFds master winchFd stdinOpen), r⟩)
      (sessionRelayLoop master logfd inlogfd winchFd fuel stdinOpen) := by
  rw [Nat.and_or_distrib_left, Nat.or_eq_zero_iff] at hmaster
  induction n with
  | zero => exact Steps.nil _
  | succ n ih =>
      have hneg : ¬ r.1 < 0 := Int.not_lt.mpr hr
      have hpure : ∀ {α β : Type} (a : α) (f : α → Sys β), (pure a : Sys α) >>= f = f a :=
        fun _ _ => rfl
      refine Steps.cons ?_
      rw [Prog.bind]
      simp only [hneg, relayResize, hmaster, hstdin, hwinch, hpure, ne_eq, not_true_eq_false,
        and_false, if_false, decide_false, Bool.or_false, Bool.false_eq_true]
      exact ih

/-- Such turns, and nothing else. -/
theorem turns_idle (fds : List Int) (n : Nat) :
    turns (some fds) (List.replicate n ⟨.poll fds, r⟩) =
      List.replicate n ⟨fds, r, [], some fds⟩ := by
  induction n with
  | zero => rfl
  | succ n ih =>
      rw [List.replicate_succ, turns, ih, List.replicate_succ]
      cases n <;> rfl

end Idle

/-- A pipe whose writer has closed: there is nothing to read, and `poll` reports the
hang-up. -/
def closedPipe : RelayTurn := ⟨[5, 0, -1], (1, [0, 16, 0]), [], some [5, 0, -1]⟩

/-- `poll` reports the hang-up of stdin `n` times. -/
def spinningRun (n : Nat) : Trace :=
  quietStart ++ List.replicate n ⟨.poll closedPipe.fds, closedPipe.answer⟩

theorem paused_spinningRun (n : Nat) :
    Paused (sessionRelay (n + 1) 5 (-1) (-1)) (spinningRun n) (some closedPipe.fds) := by
  have hloop : Steps (sessionRelayLoop 5 (-1) (-1) (-1) (n + 1) true)
      (List.replicate n ⟨.poll closedPipe.fds, closedPipe.answer⟩)
      (sessionRelayLoop 5 (-1) (-1) (-1) 1 true) := by
    rw [Nat.add_comm]
    exact steps_idle (by decide) (by decide) (by decide) (by decide) 1 n
  exact ⟨_, (steps_quietStart (n + 1)).trans hloop⟩

theorem turns_spinningRun (n : Nat) :
    turns (some closedPipe.fds) (spinningRun n) = List.replicate n closedPipe :=
  turns_idle closedPipe.fds n

theorem closedPipe_answered : closedPipe.Answered where
  ready _ := ⟨1, by decide, by decide⟩
  signalled h := absurd h.1 (by decide)
  taken _ _ h := absurd rfl h

theorem closedPipe_stuck : ¬ closedPipe.Progress 1 := by
  intro hprogress
  rcases hprogress ⟨by decide, by decide⟩ with hread | hleft
  · exact hread rfl
  · exact hleft _ rfl rfl

theorem gains_closedPipe (n : Nat) : gains (List.replicate n closedPipe) = 0 := by
  have hgain : closedPipe.gain = 0 := by decide
  induction n with
  | zero => rfl
  | succ n ih => rw [List.replicate_succ, gains, hgain, ih]

/-- **A stdin that hangs up keeps the relay going round.** No turn makes progress with it, and
there are more turns than anything accounts for. -/
theorem sessionRelay_spins :
    (Paused (sessionRelay 4 5 (-1) (-1)) (spinningRun 3) (some closedPipe.fds) ∧
      (turns (some closedPipe.fds) (spinningRun 3)).length = 3 ∧
      ∀ t ∈ turns (some closedPipe.fds) (spinningRun 3), t.Answered ∧ ¬ t.Progress 1) ∧
    ¬ ∃ k, ∀ fuel tr next, Paused (sessionRelay fuel 5 (-1) (-1)) tr next →
      (∀ t ∈ turns next tr, t.Answered) →
        (turns next tr).length ≤ gains (turns next tr) + k := by
  have hstuck : ∀ n, ∀ t ∈ turns (some closedPipe.fds) (spinningRun n),
      t.Answered ∧ ¬ t.Progress 1 := by
    intro n t ht
    rw [turns_spinningRun] at ht
    rw [List.eq_of_mem_replicate ht]
    exact ⟨closedPipe_answered, closedPipe_stuck⟩
  refine ⟨⟨paused_spinningRun 3, by rw [turns_spinningRun, List.length_replicate], hstuck 3⟩, ?_⟩
  intro hbounded
  obtain ⟨k, hbound⟩ := hbounded
  have hle := hbound _ _ _ (paused_spinningRun (k + 1)) fun t ht => (hstuck (k + 1) t ht).1
  rw [turns_spinningRun, List.length_replicate, gains_closedPipe] at hle
  omega

end Shakti
