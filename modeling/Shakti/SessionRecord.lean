import Shakti.AuditTrail
import Shakti.Children
import Shakti.Descriptors
import Shakti.Lib.Streams
import Shakti.RelayStreams

/-!
# Shakti.SessionRecord

What is left of a recorded session, and what the exit status of a run says.

A session writes to four places (`Sink`), and each of them gets what came in for it: the terminal
and the transcript what the command put out, the command and the keystroke log what was typed. A
log has a header before that and a footer behind it, and the footer has the exit status that
`shk_run` returns (`SessionRecorded`).

The argument is the debt of `Lib.Streams`: a piece that was read is owed to its sinks until it is
written, and each turn of the relay pays what it owes.
-/

namespace Shakti

open Effects Effects.Prog Effects.World

/-! ### Sources and sinks -/

/-- What an event brings in for a sink. -/
def RelayPorts.inflow (ports : RelayPorts) : Sink → Event sysSig → Bytes
  | .terminal | .transcript => readBy ports.master
  | .input | .keystrokes => readBy 0

/-- An event with which a sink loses something: a write that did not take anything, and for the
keystroke log a query that does not report the echo on. -/
def RelayPorts.Fails (ports : RelayPorts) (st : Sink) : Event sysSig → Prop
  | ⟨.write fd _, w⟩ => fd = ports.sink st ∧ (w : Int) ≤ 0
  | ⟨.alloc _, r⟩ => st = .keystrokes ∧ r = false
  | ⟨.ioctl fd request _, r⟩ =>
      st = .keystrokes ∧ fd = ports.master ∧ request = tcgets ∧ ¬ ReportsEcho r
  | _ => False

/-- What the program has still to write to the sink is `debt`, and then what it reads for it. -/
abbrev Forwards {α : Type} (ports : RelayPorts) (st : Sink) (debt : Bytes) (p : Sys α) : Prop :=
  Owes (ports.inflow st) (writtenBy (ports.sink st)) (ports.Fails st) debt p

/-- The calls that bring something in, or write to the sink. -/
@[simp] def RelayPorts.Feeds (ports : RelayPorts) (st : Sink) : SysCall → Prop
  | .read fd _ => fd = ports.master ∨ fd = 0
  | .write fd _ => fd = ports.sink st
  | _ => False

variable {ports : RelayPorts} {st : Sink} {α β : Type}

theorem nothing_of_not_feeds {e : Event sysSig} (he : ¬ ports.Feeds st e.call) :
    ports.inflow st e = [] ∧ writtenBy (ports.sink st) e = [] := by
  obtain ⟨c, r⟩ := e
  cases c with
  | read fd count =>
      obtain ⟨hmaster, hstdin⟩ := not_or.mp he
      cases st <;> exact ⟨if_neg ‹_›, rfl⟩
  | write fd data =>
      refine ⟨?_, if_neg he⟩
      cases st <;> rfl
  | _ => cases st <;> exact ⟨rfl, rfl⟩

/-- No run of the program brings anything in, or writes to the sink. -/
abbrev Aside (ports : RelayPorts) (st : Sink) (p : Sys α) : Prop := Avoids (ports.Feeds st) p

theorem Aside.forwards {p : Sys α} (hp : Aside ports st p) : Forwards ports st [] p :=
  Owes.of_avoids hp fun _ => nothing_of_not_feeds

theorem Aside.later {p : Sys α} {f : α → Sys β} {debt : Bytes} (hp : Aside ports st p)
    (hf : ∀ a, Forwards ports st debt (f a)) : Forwards ports st debt (p >>= f) :=
  Owes.later hp (fun _ => nothing_of_not_feeds) hf

theorem Aside.sent {p : Sys α} (hp : Aside ports st p) {tr : Trace} {a : α} (h : Returns p tr a) :
    Sent (writtenBy (ports.sink st)) (ports.Fails st) tr [] :=
  Sent.nil (flatMap_eq_nil_of_avoids hp (fun _ he => (nothing_of_not_feeds he).2) h)

theorem Aside.inflow_eq_nil {p : Sys α} (hp : Aside ports st p) {tr : Trace} {a : α}
    (h : Returns p tr a) : tr.flatMap (ports.inflow st) = [] :=
  flatMap_eq_nil_of_avoids hp (fun _ he => (nothing_of_not_feeds he).1) h

/-! ### One function at a time -/

/-- The loop writes what it was given. -/
theorem forwards_sessionFullWrite (fuel : Nat) {data : Bytes} (hfuel : data.length ≤ fuel) :
    Forwards ports st data (sessionFullWrite (ports.sink st) fuel data) := by
  induction fuel generalizing data with
  | zero =>
      obtain rfl := List.eq_nil_of_length_eq_zero (Nat.le_zero.mp hfuel)
      exact Owes.pure 0
  | succ fuel ih =>
      refine Owes.ite (fun hnil => hnil ▸ Owes.pure 0) fun hmore => ?_
      intro tr rc h
      obtain ⟨w, tr', rfl, hrest⟩ := returns_ask_bind_iff.mp h
      have hout : writtenBy (ports.sink st) ⟨.write (ports.sink st) data, w⟩ =
          data.take (Int.toNat w) := if_pos rfl
      have hin : ports.inflow st ⟨.write (ports.sink st) data, w⟩ = [] := by cases st <;> rfl
      rw [List.flatMap_cons, hin, List.nil_append]
      split at hrest
      case isTrue hfail =>
        -- The rest of the data is lost.
        obtain ⟨rfl, -⟩ := returns_pure_iff.mp hrest
        refine ⟨?_, fun hall => absurd ⟨rfl, hfail⟩ (hall _ (List.mem_cons_self ..))⟩
        rw [List.flatMap_cons, hout, Int.toNat_of_nonpos hfail]
        exact List.nil_sublist _
      case isFalse htook =>
        have hlen : (data.drop (Int.toNat w)).length ≤ fuel := by
          rw [List.length_drop]
          omega
        have hwrote : Sent (writtenBy (ports.sink st)) (ports.Fails st)
            [⟨.write (ports.sink st) data, w⟩] (data.take (Int.toNat w)) :=
          hout ▸ Sent.event _
        have hall := hwrote.append (ih hlen tr' rc hrest)
        rwa [← List.append_assoc, List.take_append_drop] at hall

theorem forwards_fullWrite (ports : RelayPorts) (st : Sink) (data : Bytes) :
    Forwards ports st data (fullWrite (ports.sink st) data) :=
  Owes.bind (forwards_sessionFullWrite _ (Nat.le_refl _)) fun _ => Owes.pure ()

theorem aside_fullWrite {fd : Int} (hfd : fd ≠ ports.sink st) (data : Bytes) :
    Aside ports st (fullWrite fd data) :=
  avoids_fullWrite (by simp [hfd]) data

@[simp] theorem aside_sessionCopyWinsize (fromFd toFd : Int) :
    Aside ports st (sessionCopyWinsize fromFd toFd) := by
  apply avoids_sessionCopyWinsize <;> simp

@[simp] theorem aside_sessionSlaveEchoOn (master : Int) :
    Aside ports st (sessionSlaveEchoOn master) := by
  apply avoids_sessionSlaveEchoOn <;> simp

theorem aside_drainWinch {winchFd : Int} (hfd : winchFd ≠ ports.master ∧ winchFd ≠ 0)
    (fuel : Nat) : Aside ports st (drainWinch winchFd fuel) :=
  avoids_drainWinch (by simp) (by simp [hfd]) fuel

theorem aside_relayResize {winchFd : Int}
    (hfd : 0 ≤ winchFd → winchFd ≠ ports.master ∧ winchFd ≠ 0) (revents fuel : Nat) :
    Aside ports st (relayResize ports.master winchFd revents fuel) := by
  refine avoids_ite.mpr ⟨fun hon => ?_, fun _ => by simp⟩
  exact .bind (aside_drainWinch (hfd hon.1) fuel) fun _ => by simp

/-- What was read from the master is owed to the terminal and the transcript. -/
theorem inflow_readMaster (count : Nat) (r : Option Bytes) :
    ports.inflow st ⟨.read ports.master count, r⟩ = outputLag ((r.getD []).take count) st := by
  have hne : ports.master ≠ 0 := (Int.ne_of_lt ports.masterOpen).symm
  cases st with
  | terminal | transcript => exact if_pos rfl
  | input | keystrokes => exact if_neg hne

/-- What was typed is owed to the command and the keystroke log. -/
def typedLag (chunk : Bytes) : Sink → Bytes
  | .input | .keystrokes => chunk
  | .terminal | .transcript => []

theorem inflow_readStdin (count : Nat) (r : Option Bytes) :
    ports.inflow st ⟨.read 0 count, r⟩ = typedLag ((r.getD []).take count) st := by
  have hne : (0 : Int) ≠ ports.master := Int.ne_of_lt ports.masterOpen
  cases st with
  | terminal | transcript => exact if_neg hne
  | input | keystrokes => rfl

@[simp] theorem outputLag_nil : outputLag [] st = [] := by cases st <;> rfl

@[simp] theorem typedLag_nil : typedLag [] st = [] := by cases st <;> rfl

theorem forwards_readMaster {f : Bytes → Sys α} {count : Nat}
    (hf : ∀ chunk, Forwards ports st (outputLag chunk st) (f chunk)) :
    Forwards ports st [] (fileRead ports.master count >>= f) := by
  refine Owes.call (fun _ => rfl) fun r => ?_
  rw [List.nil_append, inflow_readMaster]
  exact hf _

theorem forwards_readStdin {f : Bytes → Sys α} {count : Nat}
    (hf : ∀ chunk, Forwards ports st (typedLag chunk st) (f chunk)) :
    Forwards ports st [] (fileRead 0 count >>= f) := by
  refine Owes.call (fun _ => rfl) fun r => ?_
  rw [List.nil_append, inflow_readStdin]
  exact hf _

/-- Sinks that are on have descriptors of their own. -/
theorem sink_ne (a : Sink) (hon : 0 ≤ ports.sink a) (hne : a ≠ st) :
    ports.sink a ≠ ports.sink st :=
  fun heq => hne (ports.sink_inj hon heq)

theorem forwards_relayMaster (hon : 0 ≤ ports.sink st) (hup : Bool) (fuel : Nat) :
    Forwards ports st [] (relayMaster ports.master ports.logfd hup fuel) := by
  induction fuel with
  | zero => exact Aside.forwards ⟨by simp, fun r => r.elim⟩
  | succ fuel ih =>
      refine forwards_readMaster fun chunk => ?_
      refine Owes.ite (fun hnil => ?_) fun _ => ?_
      · rw [hnil, outputLag_nil]
        exact Owes.pure true
      have hrest : Forwards ports st []
          (if hup then relayMaster ports.master ports.logfd hup fuel else Pure.pure false) :=
        Owes.ite (fun _ => ih) fun _ => Owes.pure false
      have hshow : Sink.terminal ≠ st → Aside ports st (fullWrite 1 chunk) := fun hne =>
        aside_fullWrite (sink_ne .terminal Int.one_nonneg hne) chunk
      have hlog : Sink.transcript ≠ st →
          Aside ports st (if 0 ≤ ports.logfd then fullWrite ports.logfd chunk else Pure.pure ()) :=
        fun hne => avoids_ite.mpr
          ⟨fun h => aside_fullWrite (sink_ne .transcript h hne) chunk, by simp⟩
      cases st with
      | terminal =>
          refine Owes.bind (forwards_fullWrite ports .terminal chunk) fun _ => ?_
          exact (hlog nofun).later fun _ => hrest
      | transcript =>
          refine (hshow nofun).later fun _ => Owes.bind ?_ fun _ => hrest
          rw [if_pos (show 0 ≤ ports.logfd from hon)]
          exact forwards_fullWrite ports .transcript chunk
      | input => exact (hshow nofun).later fun _ => (hlog nofun).later fun _ => hrest
      | keystrokes => exact (hshow nofun).later fun _ => (hlog nofun).later fun _ => hrest

/-- A query that does not report the echo on says so. -/
theorem fails_of_not_echo {tr : Trace} (h : Returns (sessionSlaveEchoOn ports.master) tr false) :
    ∃ e ∈ tr, ports.Fails .keystrokes e := by
  obtain ⟨t, tr₁, rfl, hquery⟩ := returns_ask_bind_iff.mp h
  cases t with
  | false => exact ⟨_, List.mem_cons_self .., rfl, rfl⟩
  | true =>
      obtain ⟨termios, tr₂, rfl, hanswer⟩ := returns_ask_bind_iff.mp hquery
      refine ⟨⟨.ioctl ports.master tcgets _, termios⟩, by simp, rfl, rfl, rfl, ?_⟩
      rintro ⟨modes, rfl, hecho⟩
      obtain ⟨-, hfalse⟩ := returns_pure_iff.mp hanswer
      simp [hecho] at hfalse

theorem forwards_logKeystrokes (hon : 0 ≤ ports.inlogfd) (chunk : Bytes) :
    Forwards ports .keystrokes chunk (logKeystrokes ports.master ports.inlogfd chunk) := by
  rw [logKeystrokes, if_pos hon]
  intro tr u h
  obtain ⟨t₁, t₂, echo, rfl, hquery, h⟩ := returns_bind_iff.mp h
  have haside : Aside ports .keystrokes (sessionSlaveEchoOn ports.master) := by simp
  rw [List.flatMap_append, haside.inflow_eq_nil hquery, List.nil_append]
  cases echo with
  | true =>
      exact (haside.sent hquery).append
        (forwards_fullWrite ports .keystrokes chunk t₂ u h)
  | false =>
      obtain ⟨rfl, -⟩ := returns_pure_iff.mp h
      obtain ⟨e, he, hfail⟩ := fails_of_not_echo hquery
      refine ⟨?_, fun hall => absurd hfail (hall e (by simpa using he))⟩
      rw [List.append_nil, List.flatMap_eq_nil_iff.mpr fun e he =>
        (nothing_of_not_feeds (haside.returns hquery e he)).2]
      exact List.nil_sublist _

theorem aside_logKeystrokes (hne : Sink.keystrokes ≠ st) (chunk : Bytes) :
    Aside ports st (logKeystrokes ports.master ports.inlogfd chunk) := by
  refine avoids_ite.mpr ⟨fun hon => .bind (by simp) fun echo => ?_, by simp⟩
  exact avoids_ite.mpr
    ⟨fun _ => aside_fullWrite (sink_ne .keystrokes hon hne) chunk, by simp⟩

theorem forwards_relayStdin (hon : 0 ≤ ports.sink st) :
    Forwards ports st [] (relayStdin ports.master ports.inlogfd) := by
  refine forwards_readStdin fun chunk => ?_
  refine Owes.ite (fun hnil => ?_) fun _ => ?_
  · rw [hnil, typedLag_nil]
    exact Owes.pure false
  have hmaster : Sink.input ≠ st → Aside ports st (fullWrite ports.master chunk) := fun hne =>
    aside_fullWrite (sink_ne .input (Int.le_of_lt ports.masterOpen) hne) chunk
  have hlog : Sink.keystrokes ≠ st →
      Aside ports st (logKeystrokes ports.master ports.inlogfd chunk) :=
    fun hne => aside_logKeystrokes hne chunk
  cases st with
  | input =>
      refine Owes.bind (forwards_fullWrite ports .input chunk) fun _ => ?_
      exact (hlog nofun).later fun _ => Owes.pure true
  | keystrokes =>
      exact (hmaster nofun).later fun _ =>
        Owes.bind (forwards_logKeystrokes hon chunk) fun _ => Owes.pure true
  | terminal | transcript =>
      exact (hmaster nofun).later fun _ =>
        (hlog nofun).later fun _ => Owes.pure true

theorem forwards_sessionRelayLoop (hon : 0 ≤ ports.sink st) {winchFd : Int}
    (hfd : 0 ≤ winchFd → winchFd ≠ ports.master ∧ winchFd ≠ 0) (fuel : Nat) (stdinOpen : Bool) :
    Forwards ports st []
      (sessionRelayLoop ports.master ports.logfd ports.inlogfd winchFd fuel stdinOpen) := by
  induction fuel generalizing stdinOpen with
  | zero => exact Aside.forwards ⟨by simp, fun r => r.elim⟩
  | succ fuel ih =>
      refine Aside.later (by simp) fun r => ?_
      obtain ⟨pr, revents⟩ := r
      refine Owes.ite (fun _ => Owes.ite (fun _ => ih stdinOpen) fun _ => Owes.pure _) fun _ => ?_
      refine (aside_relayResize hfd _ _).later fun _ => ?_
      refine Owes.bind (Owes.ite (fun _ => forwards_relayMaster hon _ _) fun _ => Owes.pure _)
        fun ended => ?_
      refine Owes.bind (Owes.ite (fun _ => forwards_relayStdin hon) fun _ => Owes.pure _)
        fun stdinOpen => ?_
      refine Owes.ite (fun _ => Aside.forwards ?_) fun _ => ih stdinOpen
      simp

/-! ### Headers and footers -/

/-- The text of `session_log_header`. -/
def sessionHeader (caller target command tty : CStr) (start : Int) : Bytes :=
  (cstr "=== shakti session " ++ decimalInt start ++ cstr " caller=" ++ caller
    ++ cstr " target=" ++ target ++ cstr " tty="
    ++ (if 0 < tty.length then tty else cstr "none")
    ++ cstr " cmd=" ++ command ++ cstr " ===\n").bytes

/-- The text of `session_log_footer`. -/
def sessionFooter (rc start finish : Int) : Bytes :=
  (cstr "\n=== shakti session end status=" ++ decimalInt rc ++ cstr " duration="
    ++ decimalInt (finish - start) ++ cstr "s ===\n").bytes

theorem sessionLogHeader_eq {logfd : Int} (hon : 0 ≤ logfd) (caller target command tty : CStr)
    (start : Int) :
    sessionLogHeader logfd caller target command tty start =
      fullWrite logfd (sessionHeader caller target command tty start) :=
  if_neg (by omega)

theorem sessionLogFooter_eq {logfd : Int} (hon : 0 ≤ logfd) (rc start finish : Int) :
    sessionLogFooter logfd rc start finish = fullWrite logfd (sessionFooter rc start finish) :=
  if_neg (by omega)

/-- What the run wrote to the sink is `opening`, then what came in for it, then `closing`; or
what failures left of that. -/
def RelayPorts.Holds (ports : RelayPorts) (st : Sink) (opening closing : Bytes) (tr : Trace) :
    Prop :=
  Sent (writtenBy (ports.sink st)) (ports.Fails st) tr
    (opening ++ tr.flatMap (ports.inflow st) ++ closing)

section Holds

variable {opening closing data : Bytes} {tr tr' : Trace} {a : α}

theorem Forwards.holds {p : Sys α} (hp : Forwards ports st [] p) (h : Returns p tr a) :
    ports.Holds st [] [] tr := by
  rw [RelayPorts.Holds, List.append_nil]
  exact hp tr a h

theorem Aside.append_holds {p : Sys α} (hp : Aside ports st p) (h : Returns p tr a)
    (h' : ports.Holds st opening closing tr') : ports.Holds st opening closing (tr ++ tr') := by
  rw [RelayPorts.Holds, List.flatMap_append, hp.inflow_eq_nil h]
  exact (hp.sent h).append h'

theorem RelayPorts.Holds.append_aside {p : Sys α} (h' : ports.Holds st opening closing tr)
    (hp : Aside ports st p) (h : Returns p tr' a) :
    ports.Holds st opening closing (tr ++ tr') := by
  have hall := h'.append (hp.sent h)
  rw [List.append_nil] at hall
  rwa [RelayPorts.Holds, List.flatMap_append, hp.inflow_eq_nil h, List.append_nil]

/-- The calls that bring something in. -/
@[simp] def Reads : SysCall → Prop
  | .read _ _ => True
  | _ => False

@[simp] theorem avoidsReads_sessionFullWrite (fd : Int) (fuel : Nat) (data : Bytes) :
    Avoids Reads (sessionFullWrite fd fuel data) :=
  avoids_sessionFullWrite (by simp) fuel data

/-- A write brings nothing in. -/
theorem sent_fullWrite {u : Unit} (h : Returns (fullWrite (ports.sink st) data) tr u) :
    Sent (writtenBy (ports.sink st)) (ports.Fails st) tr data ∧
      tr.flatMap (ports.inflow st) = [] := by
  have hnil : tr.flatMap (ports.inflow st) = [] := by
    have hreads : Avoids Reads (fullWrite (ports.sink st) data) := by simp [fullWrite]
    refine flatMap_eq_nil_of_avoids hreads (fun e he => ?_) h
    obtain ⟨c, r⟩ := e
    cases c with
    | read fd count => exact absurd trivial he
    | _ => cases st <;> rfl
  have hsent := forwards_fullWrite ports st data tr u h
  rw [hnil, List.append_nil] at hsent
  exact ⟨hsent, hnil⟩

theorem RelayPorts.Holds.opened {u : Unit}
    (h : Returns (fullWrite (ports.sink st) data) tr u) (h' : ports.Holds st [] closing tr') :
    ports.Holds st data closing (tr ++ tr') := by
  obtain ⟨hsent, hnil⟩ := sent_fullWrite h
  have hall := hsent.append h'
  rwa [RelayPorts.Holds, List.flatMap_append, hnil, List.append_assoc]

theorem RelayPorts.Holds.closed {u : Unit} (h' : ports.Holds st opening [] tr)
    (h : Returns (fullWrite (ports.sink st) data) tr' u) :
    ports.Holds st opening data (tr ++ tr') := by
  obtain ⟨hsent, hnil⟩ := sent_fullWrite h
  have hall := h'.append hsent
  rw [List.append_nil] at hall
  rwa [RelayPorts.Holds, List.flatMap_append, hnil, List.append_nil]

end Holds

/-! ### The session of a process -/

variable {s t : Process} {h : List (Moment sysSig Process)} {fuel : Nat} {rc : Int}

/-- The calls that open or close a descriptor. -/
@[simp] def Rewires : SysCall → Prop
  | .open _ _ _ | .openat _ _ _ _ | .signalfd _ | .pipe | .close _ | .closeRange _ | .dup2 _ _ =>
      True
  | _ => False

theorem answers_fds {c : SysCall} {r : c.Answer} (hc : ¬ Rewires c) (h : s.Answers ⟨c, r⟩ t) :
    t.fds = s.fds := by
  cases c with
  | setgroups | setgid | setuid | prctl | capset =>
      rw [h.others]
      rfl
  | ioctl fd request arg =>
      by_cases hset : fd = 0 ∧ request = tcsets ∧ s.OwnStdin
      · rw [h.sets hset.1 hset.2.1 hset.2.2]
      · rw [h.stays hset]
  | «open» | openat | signalfd | pipe | close | closeRange | dup2 => exact absurd trivial hc
  | sigprocmask | getuid | getgid | setsid =>
      obtain ⟨h₁, h₂⟩ := h
      first | rw [h₂] | rw [h₁]
  | fork => rw [show t = _ from h]
  | _ => rw [show t = s from h]

/-- A program without such calls leaves the descriptors as they are. -/
theorem leads_fds {p : Sys α} (hp : Avoids Rewires p) : Leads (fun t _ => t.fds = s.fds) s p :=
  Safe.keeps still_processWorld hp (fun _ _ _ _ => trivial)
    (fun _ _ _ _ hm hc hans => (answers_fds hc hans).trans hm) rfl

/-- The notifications of resizes come in at a descriptor that was free. -/
theorem leads_sessionSigwinchFd :
    Leads (fun _ winchFd => 0 ≤ winchFd → s.fds winchFd = none) s sessionSigwinchFd := by
  refine .bind (leads_idle (by simp)) fun t set ht => ?_
  subst ht
  refine Safe.ite (fun _ h => absurd h (by decide)) fun _ => ?_
  refine Safe.ask_bind still_processWorld trivial fun old s₁ hmask => ?_
  refine Safe.call still_processWorld trivial fun r s₂ htakes hpos => ?_
  rcases htakes with ⟨hneg, -⟩ | ⟨-, hfree, -⟩
  · omega
  · rwa [answers_fds (c := .sigprocmask _ _) (by simp) hmask] at hfree

theorem holds_sessionRelay (hon : 0 ≤ ports.sink st) (hmaster : s.fds ports.master ≠ none)
    (hstdin : s.fds 0 ≠ none)
    (hrun : Completed processWorld s
      (sessionRelay fuel ports.master ports.logfd ports.inlogfd) h t rc) :
    ports.Holds st [] [] (h.map Moment.event) := by
  obtain ⟨h₁, h₂, m₁, _, rfl, hsize, k₁⟩ := completed_bind_iff.mp hrun
  obtain rfl : m₁ = s := (leads_idle (by simp)).completed hsize
  obtain ⟨h₃, h₄, m₂, winchFd, rfl, hwinch, k₂⟩ := completed_bind_iff.mp k₁
  have hfree := leads_sessionSigwinchFd.completed hwinch
  have hfd : 0 ≤ winchFd → winchFd ≠ ports.master ∧ winchFd ≠ 0 := fun hpos =>
    ⟨fun heq => hmaster (heq ▸ hfree hpos), fun heq => hstdin (heq ▸ hfree hpos)⟩
  have hrest : Forwards ports st [] (do
      let buf : Bool ← sys (.alloc 4096)
      if !buf then Pure.pure (-1)
      else do
        let pfds : Bool ← sys (.alloc 24)
        if !pfds then Pure.pure (-1)
        else sessionRelayLoop ports.master ports.logfd ports.inlogfd winchFd fuel true) := by
    refine Aside.later (by simp) fun buf => Owes.ite (fun _ => Owes.pure _) fun _ => ?_
    refine Aside.later (by simp) fun pfds => Owes.ite (fun _ => Owes.pure _) fun _ => ?_
    exact forwards_sessionRelayLoop hon hfd fuel true
  have haside : Aside ports st sessionSigwinchFd := by simp [sessionSigwinchFd]
  simp only [List.map_append]
  refine (aside_sessionCopyWinsize 0 ports.master).append_holds hsize.steps ?_
  exact haside.append_holds hwinch.steps (hrest.holds k₂.steps)

/-- What stands behind the text of a sink. -/
def closingText (rc start finish : Int) : Sink → Bytes
  | .transcript | .keystrokes => sessionFooter rc start finish
  | .terminal | .input => []

theorem aside_closeLog {fd : Int} (hfd : 0 ≤ fd → fd ≠ ports.sink st) (rc start finish : Int) :
    Aside ports st (closeLog fd rc start finish) := by
  refine .bind (avoids_ite.mpr ⟨by simp, fun hon => ?_⟩) fun _ => by simp
  exact aside_fullWrite (hfd (by omega)) _

theorem RelayPorts.Holds.closeLog {tr tr' : Trace} {u : Unit} {start finish : Int}
    (h' : ports.Holds st [] [] tr) (hon : 0 ≤ ports.sink st)
    (h : Returns (closeLog (ports.sink st) rc start finish) tr' u) :
    ports.Holds st [] (sessionFooter rc start finish) (tr ++ tr') := by
  obtain ⟨t₁, t₂, _, rfl, hfoot, hclose⟩ := returns_bind_iff.mp h
  rw [sessionLogFooter_eq hon] at hfoot
  rw [← List.append_assoc]
  have haside : Aside ports st (sys (.close (ports.sink st)) >>= fun _ => Pure.pure ()) := by simp
  exact (h'.closed hfoot).append_aside haside hclose

/-- The end of `_exec_target_pty`, from the footers on. -/
theorem holds_closing {tr tr' : Trace} {start finish rc' : Int} (h' : ports.Holds st [] [] tr)
    (hon : 0 ≤ ports.sink st)
    (h : Returns (do
      Shakti.closeLog ports.logfd rc start finish
      (if 0 ≤ ports.inlogfd then Shakti.closeLog ports.inlogfd rc start finish else Pure.pure ())
      let _ ← sys (.close ports.master)
      Pure.pure rc : Sys Int) tr' rc') :
    ports.Holds st [] (closingText rc start finish st) (tr ++ tr') := by
  obtain ⟨t₁, t₂, _, rfl, hlog, h₂⟩ := returns_bind_iff.mp h
  obtain ⟨t₃, t₄, _, rfl, hinlog, h₃⟩ := returns_bind_iff.mp h₂
  have hmaster : Aside ports st (sys (.close ports.master) >>= fun _ => Pure.pure rc) := by simp
  have hout : Sink.transcript ≠ st → Aside ports st (Shakti.closeLog ports.logfd rc start finish) :=
    fun hne => aside_closeLog (fun hpos => sink_ne .transcript hpos hne) ..
  have hin : Sink.keystrokes ≠ st → Aside ports st (if 0 ≤ ports.inlogfd then
      Shakti.closeLog ports.inlogfd rc start finish else Pure.pure ()) := fun hne =>
    avoids_ite.mpr ⟨fun _ => aside_closeLog (fun hpos => sink_ne .keystrokes hpos hne) .., by simp⟩
  rw [← List.append_assoc, ← List.append_assoc]
  refine RelayPorts.Holds.append_aside ?_ hmaster h₃
  cases st with
  | terminal => exact (h'.append_aside (hout nofun) hlog).append_aside (hin nofun) hinlog
  | input => exact (h'.append_aside (hout nofun) hlog).append_aside (hin nofun) hinlog
  | transcript => exact (h'.closeLog hon hlog).append_aside (hin nofun) hinlog
  | keystrokes =>
      rw [if_pos (show 0 ≤ ports.inlogfd from hon)] at hinlog
      exact (h'.append_aside (hout nofun) hlog).closeLog hon hinlog

/-- The exit status is the one the child was waited for with, where there was memory to keep it
in; else it is 0. -/
def Reaped (pid rc : Int) (tr : Trace) : Prop :=
  ∃ r status, (⟨.waitpid pid, (r, status)⟩ : Event sysSig) ∈ tr ∧
    (rc = waitStatusCode status ∨ rc = 0 ∧ (⟨.alloc 8, false⟩ : Event sysSig) ∈ tr)

theorem leads_close (fd : Int) : Leads (fun t _ => t = s.closed fd) s (sys (.close fd)) :=
  Safe.call still_processWorld trivial fun _ _ hans => hans

theorem completed_ptyParent (ports : RelayPorts) {slave pid start : Int}
    (hmaster : s.fds ports.master ≠ none) (hstdin : s.fds 0 ≠ none)
    (hslave : ports.master ≠ slave ∧ 0 ≠ slave)
    (hrun : Completed processWorld s
      (ptyParent fuel slave ports.master pid ports.logfd ports.inlogfd start) h t rc) :
    ∃ finish, Reaped pid rc (h.map Moment.event) ∧ ∀ st, 0 ≤ ports.sink st →
      ports.Holds st [] (closingText rc start finish st) (h.map Moment.event) := by
  obtain ⟨h₁, g₁, m₁, x, rfl, hclose, k₁⟩ := completed_bind_iff.mp hrun
  obtain ⟨h₂, g₂, m₂, orig, rfl, hsave, k₂⟩ := completed_bind_iff.mp k₁
  obtain ⟨h₃, g₃, m₃, _, rfl, hraw, k₃⟩ := completed_bind_iff.mp k₂
  obtain ⟨h₄, g₄, m₄, _, rfl, hrelay, k₄⟩ := completed_bind_iff.mp k₃
  obtain ⟨h₅, g₅, m₅, stbuf, rfl, hbuf, k₅⟩ := completed_bind_iff.mp k₄
  obtain ⟨h₆, g₆, m₆, ⟨r, status⟩, rfl, hwait, k₆⟩ := completed_bind_iff.mp k₅
  obtain ⟨h₇, g₇, m₇, _, rfl, hback, k₇⟩ := completed_bind_iff.mp k₆
  obtain ⟨h₈, g₈, m₈, finish, rfl, hnow, k₈⟩ := completed_bind_iff.mp k₇
  -- What was open when the relay starts.
  obtain rfl := (leads_close slave).completed hclose
  have hfds₂ : m₂.fds = (s.closed slave).fds :=
    (leads_fds (by simp [saveTermios])).completed hsave
  have hfds₃ : m₃.fds = m₂.fds := (leads_fds (by cases orig <;> simp [enterRawMode])).completed hraw
  have hkept (fd : Int) (hfd : fd ≠ slave) : m₃.fds fd = s.fds fd := by
    rw [hfds₃, hfds₂]
    exact Function.update_of_ne hfd ..
  have hmaster₃ : m₃.fds ports.master ≠ none := by
    rw [hkept _ hslave.1]
    exact hmaster
  have hstdin₃ : m₃.fds 0 ≠ none := by
    rw [hkept _ hslave.2]
    exact hstdin
  have hrc : rc = waitStatusCode (if stbuf then status else 0) := by
    obtain ⟨_, _, _, -, -, l₁⟩ := returns_bind_iff.mp k₈.steps
    obtain ⟨_, _, _, -, -, l₂⟩ := returns_bind_iff.mp l₁
    obtain ⟨_, _, _, -, -, l₃⟩ := returns_bind_iff.mp l₂
    exact (returns_pure_iff.mp l₃).2
  have hwaited : h₆.map Moment.event = [⟨.waitpid pid, (r, status)⟩] :=
    returns_ask_iff.mp hwait.steps
  have hkeep : h₅.map Moment.event = [⟨.alloc 8, stbuf⟩] := returns_ask_iff.mp hbuf.steps
  simp only [List.map_append]
  refine ⟨finish, ⟨r, status, by simp [hwaited], ?_⟩, fun st hon => ?_⟩
  · cases stbuf with
    | true => exact Or.inl hrc
    | false => exact Or.inr ⟨hrc.trans (show waitStatusCode 0 = 0 by decide), by simp [hkeep]⟩
  · have hrelayed := holds_sessionRelay hon hmaster₃ hstdin₃ hrelay
    have hreaped := (hrelayed.append_aside (p := sys (.alloc 8)) (by simp) hbuf.steps).append_aside
      (p := sys (.waitpid pid)) (by simp) hwait.steps
    have hended := (hreaped.append_aside (p := restoreTermios orig)
      (by cases orig <;> simp [restoreTermios]) hback.steps).append_aside (p := shkNowSecs)
      (by simp [shkNowSecs]) hnow.steps
    have hclosed := holds_closing hended hon k₈.steps
    rw [← hrc] at hclosed
    simp only [List.append_assoc] at hclosed
    refine Aside.append_holds (p := sys (.close slave)) (by simp) hclose.steps ?_
    refine Aside.append_holds (p := saveTermios) (by simp [saveTermios]) hsave.steps ?_
    exact Aside.append_holds (p := enterRawMode orig)
      (by cases orig <;> simp [enterRawMode]) hraw.steps hclosed

/-! ### Opening a session -/

/-- What stands before the text of a sink. -/
def openingText (caller : CStr) (req : ExecRequest) (tty : CStr) (start : Int) : Sink → Bytes
  | .transcript | .keystrokes => sessionHeader caller req.targetUser req.resolved tty start
  | .terminal | .input => []

theorem Looking.aside {p : Sys α} (hp : Looking p) : Aside ports st p :=
  hp.mono fun c hc => by cases c <;> simp_all

section Opening

variable {caller : CStr} {req : ExecRequest} {start : Int} {closing : Bytes} {tr tr' : Trace}

theorem aside_openTranscript {fd : Int} (hfd : 0 ≤ fd → fd ≠ ports.sink st) :
    Aside ports st (openTranscript fd caller req start) := by
  refine avoids_ite.mpr ⟨fun hon => .bind (Looking.aside (by simp)) fun tty => ?_, by simp⟩
  rw [sessionLogHeader_eq hon]
  exact aside_fullWrite (hfd hon) _

theorem RelayPorts.Holds.openTranscript {u : Unit} (h' : ports.Holds st [] closing tr')
    (hon : 0 ≤ ports.sink st)
    (h : Returns (Shakti.openTranscript (ports.sink st) caller req start) tr u) :
    ∃ tty, ports.Holds st (sessionHeader caller req.targetUser req.resolved tty start) closing
      (tr ++ tr') := by
  rw [Shakti.openTranscript, if_pos hon] at h
  obtain ⟨t₁, t₂, tty, rfl, htty, hhead⟩ := returns_bind_iff.mp h
  rw [sessionLogHeader_eq hon] at hhead
  rw [List.append_assoc]
  exact ⟨tty, (Looking.aside (by simp)).append_holds htty (RelayPorts.Holds.opened hhead h')⟩

/-- Both headers, before the rest of the session. -/
theorem holds_opening {t₁ t₂ : Trace} {u v : Unit} (h' : ports.Holds st [] closing tr)
    (hon : 0 ≤ ports.sink st)
    (hlog : Returns (openTranscript ports.logfd caller req start) t₁ u)
    (hinlog : Returns (openTranscript ports.inlogfd caller req start) t₂ v) :
    ∃ tty, ports.Holds st (openingText caller req tty start st) closing (t₁ ++ (t₂ ++ tr)) := by
  have hout : Sink.transcript ≠ st → Aside ports st (openTranscript ports.logfd caller req start) :=
    fun hne => aside_openTranscript fun hpos => sink_ne .transcript hpos hne
  have hin : Sink.keystrokes ≠ st →
      Aside ports st (openTranscript ports.inlogfd caller req start) :=
    fun hne => aside_openTranscript fun hpos => sink_ne .keystrokes hpos hne
  cases st with
  | terminal =>
      exact ⟨cstr "", (hout nofun).append_holds hlog ((hin nofun).append_holds hinlog h')⟩
  | input => exact ⟨cstr "", (hout nofun).append_holds hlog ((hin nofun).append_holds hinlog h')⟩
  | transcript =>
      exact RelayPorts.Holds.openTranscript ((hin nofun).append_holds hinlog h') hon hlog
  | keystrokes =>
      obtain ⟨tty, hopened⟩ := h'.openTranscript hon hinlog
      exact ⟨tty, (hout nofun).append_holds hlog hopened⟩

end Opening

/-- No child was forked. -/
def Childless (tr : Trace) : Prop :=
  ∀ pid : Int, (⟨.fork, pid⟩ : Event sysSig) ∈ tr → pid < 0

/-- The call that makes a child. -/
@[simp] def MakesChild : SysCall → Prop
  | .fork => True
  | _ => False

theorem childless_of_avoids {p : Sys α} (hp : Avoids MakesChild p) {tr : Trace} {a : α}
    (h : Returns p tr a) : Childless tr :=
  fun _ hmem => absurd trivial (hp.returns h _ hmem)

@[simp] theorem Telling.avoidsMakesChild {p : Sys α} (hp : Telling p) : Avoids MakesChild p :=
  hp.mono fun c hc => by cases c <;> simp_all

theorem Telling.childless {p : Sys α} (hp : Telling p) {tr : Trace} {a : α}
    (h : Returns p tr a) : Childless tr :=
  childless_of_avoids hp.avoidsMakesChild h

theorem Childless.append {tr tr' : Trace} (h : Childless tr) (h' : Childless tr') :
    Childless (tr ++ tr') :=
  fun pid hmem => (List.mem_append.mp hmem).elim (h pid) (h' pid)

/-- A way out of the session before there is a child. -/
theorem gaveUp {p : Sys α} (hp : Avoids MakesChild p) {tr : Trace}
    (h : Returns (p >>= fun _ => Pure.pure (1 : Int)) tr rc) : rc = 1 ∧ Childless tr := by
  obtain ⟨a, hrun, hrc⟩ := returns_map_iff.mp h
  exact ⟨hrc, childless_of_avoids hp hrun⟩

@[simp] theorem avoidsMakesChild_sessionOpenSlave (master : Int) :
    Avoids MakesChild (sessionOpenSlave master) := by
  apply avoids_sessionOpenSlave <;> simp

/-- A session that took place: a child was forked and waited for, and every sink that is on holds
what came in for it, the logs between a header and a footer with the exit status. -/
structure SessionHeld (caller : CStr) (req : ExecRequest) (ports : RelayPorts) (rc : Int)
    (tr : Trace) (pid start finish : Int) : Prop where
  forked : 0 < pid ∧ (⟨.fork, pid⟩ : Event sysSig) ∈ tr
  reaped : Reaped pid rc tr
  sinks : ∀ st, 0 ≤ ports.sink st → ∃ tty,
    ports.Holds st (openingText caller req tty start st) (closingText rc start finish st) tr

/-- What a session leaves: no child and the status 1, or what was shown and typed. -/
def SessionRecorded (caller : CStr) (req : ExecRequest) (logfd inlogfd rc : Int) (tr : Trace) :
    Prop :=
  (rc = 1 ∧ Childless tr) ∨
    ∃ (ports : RelayPorts) (pid start finish : Int), ports.logfd = logfd ∧
      ports.inlogfd = inlogfd ∧ SessionHeld caller req ports rc tr pid start finish

theorem aside_sessionOpenSlave (master : Int) : Aside ports st (sessionOpenSlave master) := by
  apply avoids_sessionOpenSlave <;> simp

theorem Reaped.after {pid : Int} {tr tr' : Trace} (h : Reaped pid rc tr') :
    Reaped pid rc (tr ++ tr') := by
  obtain ⟨r, status, hmem, hrc⟩ := h
  refine ⟨r, status, List.mem_append_right _ hmem, hrc.imp id fun hnull => ?_⟩
  exact ⟨hnull.1, List.mem_append_right _ hnull.2⟩

/-- What is left once there is a master: no child and the status 1, or a child that was waited for
and sinks that hold what came in for them, without the headers. -/
def SessionEnded (ports : RelayPorts) (start rc : Int) (tr : Trace) : Prop :=
  (rc = 1 ∧ Childless tr) ∨
    ∃ pid finish, (0 < pid ∧ (⟨.fork, pid⟩ : Event sysSig) ∈ tr) ∧ Reaped pid rc tr ∧
      ∀ st, 0 ≤ ports.sink st → ports.Holds st [] (closingText rc start finish st) tr

/-- Before the child is there, what passes nothing on leaves the rest as it is. -/
theorem SessionEnded.after {p : Sys α} {start : Int} {tr tr' : Trace} {a : α}
    (h' : SessionEnded ports start rc tr') (hp : Avoids MakesChild p)
    (haside : ∀ st, Aside ports st p) (h : Returns p tr a) :
    SessionEnded ports start rc (tr ++ tr') := by
  rcases h' with ⟨hrc, hnone⟩ | ⟨pid, finish, hforked, hreaped, hsinks⟩
  · exact Or.inl ⟨hrc, (childless_of_avoids hp h).append hnone⟩
  refine Or.inr ⟨pid, finish, ?_, hreaped.after, fun st hon => ?_⟩
  · exact ⟨hforked.1, List.mem_append_right _ hforked.2⟩
  · exact (haside st).append_holds h (hsinks st hon)

/-- `_exec_target_pty` from the fork on. -/
def ptyFork (fuel : Nat) (nss : NssState) (req : ExecRequest)
    (slave master logfd inlogfd start : Int) : Sys Int := do
  let pid : Int ← sys .fork
  if pid < 0 then do
    writeLine 2 (cstr "shakti: fork failed; aborting\n")
    let _ ← sys (.close slave)
    let _ ← sys (.close master)
    Pure.pure 1
  else if pid = 0 then ptyChild slave nss req
  else ptyParent fuel slave master pid logfd inlogfd start

/-- `_exec_target_pty` once it has a master. -/
def ptySlave (fuel : Nat) (nss : NssState) (req : ExecRequest)
    (master logfd inlogfd start : Int) : Sys Int := do
  let slave ← sessionOpenSlave master
  if slave < 0 then do
    writeLine 2 (cstr "shakti: could not open pty slave; aborting\n")
    let _ ← sys (.close master)
    Pure.pure 1
  else ptyFork fuel nss req slave master logfd inlogfd start

theorem completed_ptyFork (ports : RelayPorts) {nss : NssState} {req : ExecRequest}
    {slave start : Int} (hmaster : s.fds ports.master ≠ none) (hstdin : s.fds 0 ≠ none)
    (hslave : ports.master ≠ slave ∧ 0 ≠ slave)
    (hrun : Completed processWorld s
      (ptyFork fuel nss req slave ports.master ports.logfd ports.inlogfd start) h t rc) :
    SessionEnded ports start rc (h.map Moment.event) := by
  obtain ⟨h₁, h₂, m, pid, rfl, hfork, hrest⟩ := completed_bind_iff.mp hrun
  have hforked : h₁.map Moment.event = [⟨.fork, pid⟩] := returns_ask_iff.mp hfork.steps
  rw [List.map_append]
  split at hrest
  · -- No child.
    rename_i hneg
    have hnone : Childless (h₁.map Moment.event) := by
      rw [hforked]
      intro pid' hmem
      cases List.mem_singleton.mp hmem
      exact hneg
    obtain ⟨hrc, hquiet⟩ := gaveUp (p := do
      writeLine 2 (cstr "shakti: fork failed; aborting\n")
      let _ ← sys (.close slave)
      let _ ← sys (.close ports.master)
      Pure.pure ()) (by simp) hrest.steps
    exact Or.inl ⟨hrc, hnone.append hquiet⟩
  rename_i hnonneg
  split at hrest
  · exact absurd hrest.steps not_returns_ptyChild
  rename_i hchild
  have hpos : 0 < pid := lt_of_le_of_ne (Int.not_lt.mp hnonneg) (Ne.symm hchild)
  have hfds : m.fds = s.fds := (leads_fds (by simp)).completed hfork
  obtain ⟨finish, hreaped, hsinks⟩ :=
    completed_ptyParent ports (hfds ▸ hmaster) (hfds ▸ hstdin) hslave hrest
  refine Or.inr ⟨pid, finish, ⟨hpos, by simp [hforked]⟩, hreaped.after, fun st hon => ?_⟩
  have haside : Aside ports st (sys .fork) := by simp
  exact haside.append_holds hfork.steps (hsinks st hon)

theorem completed_ptySlave (ports : RelayPorts) {nss : NssState} {req : ExecRequest}
    {start : Int} {n : Nat} (hmaster : s.fds ports.master = some (.ptyMaster n))
    (hn : n ∈ s.ptys) (hstdin : s.fds 0 ≠ none)
    (hrun : Completed processWorld s
      (ptySlave fuel nss req ports.master ports.logfd ports.inlogfd start) h t rc) :
    SessionEnded ports start rc (h.map Moment.event) := by
  obtain ⟨h₁, h₂, m, slave, rfl, hopen, hrest⟩ := completed_bind_iff.mp hrun
  rw [List.map_append]
  refine SessionEnded.after ?_ (avoidsMakesChild_sessionOpenSlave _)
    (fun _ => aside_sessionOpenSlave _) hopen.steps
  split at hrest
  · exact Or.inl (gaveUp (p := do
      writeLine 2 (cstr "shakti: could not open pty slave; aborting\n")
      let _ ← sys (.close ports.master)
      Pure.pure ()) (by simp) hrest.steps)
  obtain ⟨hfree, rfl⟩ := (leads_sessionOpenSlave hmaster hn).completed hopen (by omega)
  have hne : ports.master ≠ slave := by
    rintro rfl
    rw [hmaster] at hfree
    cases hfree
  have hzero : 0 ≠ slave := by
    rintro rfl
    exact hstdin hfree
  refine completed_ptyFork ports ?_ ?_ ⟨hne, hzero⟩ hrest
  · rw [opened_fds_of_ne hne, hmaster]
    exact Option.some_ne_none _
  · rwa [opened_fds_of_ne hzero]

theorem completed_execTargetPty {nss : NssState} {req : ExecRequest} {logfd inlogfd : Int}
    {caller : CStr} (hstdin : s.fds 0 ≠ none) (hstdout : s.fds 1 ≠ none)
    (hlog : 0 ≤ logfd → s.fds logfd ≠ none ∧ logfd ≠ 1)
    (hinlog : 0 ≤ inlogfd → s.fds inlogfd ≠ none ∧ inlogfd ≠ 1 ∧ inlogfd ≠ logfd)
    (hrun : Completed processWorld s (execTargetPty fuel nss req logfd inlogfd caller) h t rc) :
    SessionRecorded caller req logfd inlogfd rc (h.map Moment.event) := by
  obtain ⟨h₁, g₁, m₁, start, rfl, hstart, k₁⟩ := completed_bind_iff.mp hrun
  obtain ⟨h₂, g₂, m₂, _, rfl, hhead, k₂⟩ := completed_bind_iff.mp k₁
  obtain ⟨h₃, g₃, m₃, _, rfl, hinhead, k₃⟩ := completed_bind_iff.mp k₂
  obtain ⟨h₄, g₄, m₄, master, rfl, hopen, k₄⟩ := completed_bind_iff.mp k₃
  obtain rfl : m₁ = s := (leads_idle (by simp)).completed hstart
  obtain rfl : m₂ = m₁ := (leads_idle (by simp)).completed hhead
  obtain rfl : m₃ = m₂ := (leads_idle (by simp)).completed hinhead
  have c₁ : Childless (h₁.map Moment.event) := Telling.childless (by simp) hstart.steps
  have c₂ : Childless (h₂.map Moment.event) := Telling.childless (by simp) hhead.steps
  have c₃ : Childless (h₃.map Moment.event) := Telling.childless (by simp) hinhead.steps
  have c₄ : Childless (h₄.map Moment.event) :=
    childless_of_avoids (by simp [sessionOpenpt]) hopen.steps
  have hbefore {tr : Trace} (hnone : Childless tr) : Childless (h₁.map Moment.event ++
      (h₂.map Moment.event ++ (h₃.map Moment.event ++ (h₄.map Moment.event ++ tr)))) :=
    c₁.append (c₂.append (c₃.append (c₄.append hnone)))
  simp only [List.map_append]
  split at k₄
  · obtain ⟨hrc, hnone⟩ := gaveUp (p := writeLine 2 _) (by simp) k₄.steps
    exact Or.inl ⟨hrc, hbefore hnone⟩
  rename_i hpos
  obtain ⟨hfree, n, hnew, rfl⟩ := leads_sessionOpenpt.completed hopen (by omega)
  have hzero : 0 ≠ master := fun heq => hstdin (heq ▸ hfree)
  -- The master is apart from what was open before it.
  let ports : RelayPorts :=
    { master := master
      logfd := logfd
      inlogfd := inlogfd
      distinct := fun hon =>
        ⟨(hinlog hon).2.1, fun heq => (hinlog hon).1 (heq ▸ hfree), (hinlog hon).2.2⟩
      masterOpen := by omega
      masterOwn := fun heq => hstdout (heq ▸ hfree)
      logOwn := fun hon => ⟨(hlog hon).2, fun heq => (hlog hon).1 (heq ▸ hfree)⟩ }
  have hended : SessionEnded ports start rc (g₄.map Moment.event) :=
    completed_ptySlave ports opened_fds_self (List.mem_cons_self ..)
      (by rwa [opened_fds_of_ne hzero]) k₄
  rcases hended with ⟨hrc, hnone⟩ | ⟨pid, finish, hforked, hreaped, hsinks⟩
  · exact Or.inl ⟨hrc, hbefore hnone⟩
  refine Or.inr ⟨ports, pid, start, finish, rfl, rfl, ⟨hforked.1, by simp [hforked.2]⟩,
    hreaped.after.after.after.after, fun st hon => ?_⟩
  have haside : Aside ports st sessionOpenpt := by simp [sessionOpenpt]
  obtain ⟨tty, hholds⟩ :=
    holds_opening (haside.append_holds hopen.steps (hsinks st hon)) hon hhead.steps hinhead.steps
  exact ⟨tty, (Looking.aside (by simp)).append_holds hstart.steps hholds⟩

/-! ### The run -/

theorem aside_auditLog (action : AuditAction) (caller target command : CStr) (success : Bool)
    (reason : CStr) : Aside ports st (auditLog action caller target command success reason) := by
  refine .bind (Looking.aside (by simp [buildFileLine])) fun line => .bind (by simp) fun _ => ?_
  exact avoids_ite.mpr ⟨by simp, by simp⟩

/-- The record of the command's start is no part of the session. -/
theorem SessionRecorded.after_auditLog {caller : CStr} {req : ExecRequest} {logfd inlogfd : Int}
    {tr tr' : Trace} {action : AuditAction} {who target command reason : CStr} {success : Bool}
    {u : Unit} (h' : SessionRecorded caller req logfd inlogfd rc tr')
    (h : Returns (auditLog action who target command success reason) tr u) :
    SessionRecorded caller req logfd inlogfd rc (tr ++ tr') := by
  rcases h' with ⟨hrc, hnone⟩ | ⟨ports, pid, start, finish, hlogfd, hinlogfd, hheld⟩
  · exact Or.inl ⟨hrc, (Telling.childless (by simp) h).append hnone⟩
  refine Or.inr ⟨ports, pid, start, finish, hlogfd, hinlogfd, ?_, hheld.reaped.after,
    fun st hon => ?_⟩
  · exact ⟨hheld.forked.1, List.mem_append_right _ hheld.forked.2⟩
  · obtain ⟨tty, hholds⟩ := hheld.sinks st hon
    exact ⟨tty, (aside_auditLog ..).append_holds h hholds⟩

/-- **What a session leaves.** A run that was started with stdin and stdout open and has returned
first came to a plan. Where the plan was to execute a command, no child was made and the run
returns 1; or the status it returns is that of the child it forked and waited for (0 if there was
no memory for it), what the child was given and the terminal was shown is, byte for byte and in
order, what was typed and what came from the pseudo-terminal, and each log that is kept has a
header, the same bytes, and a footer with that status. A sink that lost some of this saw a write
fail, or is the keystroke log and was not told of an echo; it has the rest in order. -/
theorem shkRun_records {args : List CStr} (hstdin : s.fds 0 ≠ none) (hstdout : s.fds 1 ≠ none)
    (hrun : Completed processWorld s (shkRun fuel args) h t rc) :
    ∃ plan rest, Begins (planRun fuel args) (h.map Moment.event) plan rest ∧
      (∀ code, plan = .exit code → rc = code ∧ rest = []) ∧
      ∀ x, plan = .execute x →
        (x.logs.doLog = true ↔ 0 ≤ x.logs.logfd) ∧ (x.logs.doInput = true ↔ 0 ≤ x.logs.inlogfd) ∧
        SessionRecorded x.caller x.req x.logs.logfd x.logs.inlogfd rc rest := by
  rw [shkRun_eq_plan] at hrun
  obtain ⟨h₁, h₂, m, plan, rfl, hplan, hexec⟩ := completed_bind_iff.mp hrun
  have hleft : PlanLeaves s m plan := (safe_planRun fuel args).completed hplan
  refine ⟨plan, h₂.map Moment.event, ⟨h₁.map Moment.event, by simp, hplan.steps⟩, ?_, ?_⟩
  · rintro code rfl
    obtain ⟨rfl, -, rfl⟩ := completed_pure_iff.mp hexec
    exact ⟨rfl, rfl⟩
  · rintro x rfl
    have hlogs := hleft.opened x rfl
    refine ⟨hlogs.logOn, hlogs.inputOn, ?_⟩
    obtain ⟨h₃, h₄, m', _, rfl, haudit, hpath⟩ := completed_bind_iff.mp hexec
    obtain rfl : m' = m := (leads_idle (by simp)).completed haudit
    rw [List.map_append]
    refine SessionRecorded.after_auditLog ?_ haudit.steps
    split at hpath
    · refine completed_execTargetPty ?_ ?_ (fun hon => ?_) (fun hon => ?_) hpath
      · rw [hlogs.kept 0 hstdin]
        exact hstdin
      · rw [hlogs.kept 1 hstdout]
        exact hstdout
      · obtain ⟨hfree, hopen⟩ := hlogs.log hon
        exact ⟨hopen, fun heq => hstdout (heq ▸ hfree)⟩
      · obtain ⟨hfree, hopen, hne⟩ := hlogs.input hon
        exact ⟨hopen, fun heq => hstdout (heq ▸ hfree), hne⟩
    · -- The direct path does not come back.
      obtain ⟨_, _, _, _, -, hdirect, -⟩ := completed_bind_iff.mp hpath
      exact absurd hdirect.steps not_returns_execTarget

/-- Answers to a process that finds the files of the view, may open session logs and one
pseudo-terminal, and relays one typed line to a command that puts nothing out and succeeds. -/
def FileView.records (v : FileView) (s : Process) : (c : SysCall) → Option (c.Answer × Process)
  | .openat dir name _ _ =>
      let fd : Int := if dir < 0 then 3 else 4
      if (s.fds fd).isNone then some (fd, s.opened fd (.member (s.fds dir) name)) else none
  | .fstatat _ => some (some ⟨16832, 0, 0⟩, s)
  | .close fd => if 0 < fd then some (0, s.closed fd) else none
  | .poll _ => some ((1, [17, 1]), s)
  | .read fd _ => some (if fd = 0 then some [10] else none, s)
  | .signalfd _ => some (-1, s)
  | .waitpid pid => some ((pid, 0), s)
  | c => v.forks 7 s c

theorem records_answers (v : FileView) {held : Set ℕ} (s : Process) (c : SysCall) (r : c.Answer)
    (s' : Process) (hs : s.Granted held) (h : v.records s c = some (r, s')) :
    processWorld.answers s c r s' ∧ s'.Granted held := by
  cases c with
  | openat dir name flags mode =>
      obtain ⟨hfree, h⟩ := Option.ite_none_right_eq_some.mp h
      cases h
      have hpos : (0 : Int) < if dir < 0 then 3 else 4 := by split <;> decide
      exact ⟨Or.inr ⟨hpos.le, by simpa using hfree, rfl⟩, hs.opened hpos.ne' _⟩
  | close fd =>
      obtain ⟨hpos, h⟩ := Option.ite_none_right_eq_some.mp h
      cases h
      exact ⟨rfl, hs.closed hpos.ne'⟩
  | signalfd =>
      cases h
      exact ⟨Or.inl ⟨show (-1 : Int) < 0 by decide, rfl⟩, hs⟩
  | fstatat | poll | read | waitpid =>
      cases h
      exact ⟨rfl, hs⟩
  | _ => exact forks_answers v 7 s _ r s' hs h

/-- A machine on which the session of `al` is logged. -/
def loggedMachine : FileView := rootFiles
  [(cstr "/etc/passwd", 420, twoUsers),
    (defaultPolicyPath, 384,
      utf8 "[[rules]]\nuser=\"al\"\nrequire_auth=false\nlog_session=true\n"),
    (cstr "/bin/id", 493, [])]

theorem shkRun_records_id :
    ∃ (h : List (Moment sysSig Process)) (plan : Plan) (rest : Trace),
      SysCall.fork ∈ h.map (fun m => m.event.call) ∧
      Begins (planRun 3 [cstr "shakti", cstr "/bin/id"]) (h.map Moment.event) plan rest ∧
      (∀ code, plan = .exit code → 0 = code ∧ rest = []) ∧
      ∀ x, plan = .execute x →
        (x.logs.doLog = true ↔ 0 ≤ x.logs.logfd) ∧ (x.logs.doInput = true ↔ 0 ≤ x.logs.inlogfd) ∧
        SessionRecorded x.caller x.req x.logs.logfd x.logs.inlogfd 0 rest := by
  obtain ⟨h, hrun, hevents⟩ := Completed.of_play_value (records_answers loggedMachine)
    (setuidProcess_granted 1000 (Set.empty_subset _))
    (p := shkRun 3 [cstr "shakti", cstr "/bin/id"]) (a := 0)
    (by decide)
  obtain ⟨plan, rest, hrecords⟩ := shkRun_records (Option.some_ne_none (OpenFile.inherited 0))
    (Option.some_ne_none (OpenFile.inherited 1)) hrun
  refine ⟨h, plan, rest, ?_, hrecords⟩
  have hfork : SysCall.fork ∈ (h.map Moment.event).map Event.call := by
    rw [hevents]
    decide
  simpa using hfork

end Shakti
