import Mathlib.Data.List.ModifyLast
import Shakti.Keystrokes
import Shakti.RelayBuffer

/-!
# Shakti.RelayStreams

What the relay copies where.

The relay has two sources, the master and stdin, and four sinks: the terminal and the
transcript for what the master delivers, the master and the keystroke log for what is typed.

* `RelayPorts` — the descriptors of the relay, each of a file of its own.
* `PtyMaster`, `masterWorld` — the master as the kernel keeps it: output the child has written
  and the relay has not read, and whether the child is gone. Reads deliver what is held, in
  pieces of any size; writes take pieces of any size; `poll` reports input while output is
  held.
* `RelayPorts.source` — what is to come out at a sink, as a function of what was read.
* `Behind` — how far the sinks are behind their sources. Every function of the relay returns
  with no sink behind (`copies_relayMaster`, `copies_relayStdin`).

`sessionRelay_copies` puts this together with what a hang-up leads to (`sessionRelay_drains`).
-/

namespace Shakti

open Effects Effects.World

/-! ### Reads, writes and echo queries of a run -/

/-- What an event read from a descriptor. -/
def readBy (fd : Int) : Event sysSig → Bytes
  | ⟨.read fd' count, r⟩ => if fd' = fd then (Option.getD r []).take count else []
  | _ => []

/-- What an event wrote to a descriptor. -/
def writtenBy (fd : Int) : Event sysSig → Bytes
  | ⟨.write fd' data, w⟩ => if fd' = fd then data.take (Int.toNat w) else []
  | _ => []

/-- All bytes read from a descriptor, in order. -/
def readFrom (fd : Int) (tr : Trace) : Bytes := tr.flatMap (readBy fd)

/-- All bytes written to a descriptor, in order. -/
def writtenTo (fd : Int) (tr : Trace) : Bytes := tr.flatMap (writtenBy fd)

/-- The answer of an echo query says that the echo is on. -/
def ReportsEcho (r : Option Bytes) : Prop := ∃ t, r = some t ∧ load32 t 12 &&& echoFlag ≠ 0

instance (r : Option Bytes) : Decidable (ReportsEcho r) :=
  match r with
  | none => isFalse (by simp [ReportsEcho])
  | some t => decidable_of_iff (load32 t 12 &&& echoFlag ≠ 0) (by simp [ReportsEcho])

/-- The chunks read from stdin, each with whether an echo query after it, and before the
next, reported the echo on. -/
def noteTyped (master : Int) (chunks : List (Bytes × Bool)) : Event sysSig → List (Bytes × Bool)
  | ⟨.read fd count, r⟩ =>
      if fd = 0 ∧ (Option.getD r []).take count ≠ [] then
        chunks ++ [((Option.getD r []).take count, false)]
      else chunks
  | ⟨.ioctl fd request _, r⟩ =>
      if fd = master ∧ request = tcgets ∧ ReportsEcho r then
        chunks.modifyLast (fun chunk => (chunk.1, true))
      else chunks
  | _ => chunks

/-- The chunks read from stdin in a run. -/
def typedChunks (master : Int) (tr : Trace) : List (Bytes × Bool) := tr.foldl (noteTyped master) []

/-- The chunks with the echo on, joined. -/
def echoed (chunks : List (Bytes × Bool)) : Bytes := (chunks.filter (·.2)).flatMap (·.1)

theorem readFrom_append (fd : Int) (tr tr' : Trace) :
    readFrom fd (tr ++ tr') = readFrom fd tr ++ readFrom fd tr' := List.flatMap_append

@[simp] theorem readFrom_snoc (fd : Int) (tr : Trace) (e : Event sysSig) :
    readFrom fd (tr ++ [e]) = readFrom fd tr ++ readBy fd e := by
  simp [readFrom]

@[simp] theorem writtenTo_snoc (fd : Int) (tr : Trace) (e : Event sysSig) :
    writtenTo fd (tr ++ [e]) = writtenTo fd tr ++ writtenBy fd e := by
  simp [writtenTo]

@[simp] theorem typedChunks_snoc (master : Int) (tr : Trace) (e : Event sysSig) :
    typedChunks master (tr ++ [e]) = noteTyped master (typedChunks master tr) e := by
  simp [typedChunks]

/-! ### The ports of the relay -/

/-- The descriptors of a relay, each of a file of its own, and none of them stdin's. A log
that is off has a negative one. -/
structure RelayPorts extends RelayFds where
  masterOpen : 0 < master
  masterOwn : master ≠ 1
  logOwn : 0 ≤ logfd → logfd ≠ 1 ∧ logfd ≠ master

/-- Where the relay writes. -/
inductive Sink
  | terminal
  | transcript
  | input
  | keystrokes
  deriving DecidableEq

/-- The descriptor of a sink. -/
def RelayPorts.sink (ports : RelayPorts) : Sink → Int
  | .terminal => 1
  | .transcript => ports.logfd
  | .input => ports.master
  | .keystrokes => ports.inlogfd

/-- What a run is to write to a sink: what it has read from the master, or from stdin; and to
the keystroke log whole chunks of stdin for which the query reported the echo on. -/
def RelayPorts.source (ports : RelayPorts) : Sink → Trace → Bytes
  | .terminal, tr | .transcript, tr => readFrom ports.master tr
  | .input, tr => readFrom 0 tr
  | .keystrokes, tr => echoed (typedChunks ports.master tr)

/-- The sinks that are on have descriptors of their own. -/
theorem RelayPorts.sink_inj (ports : RelayPorts) {a b : Sink} (ha : 0 ≤ ports.sink a)
    (h : ports.sink a = ports.sink b) : a = b := by
  have hmaster := ports.masterOwn
  have hlog := ports.logOwn
  have hinlog := ports.distinct
  cases a <;> cases b <;> simp only [sink] at ha h <;> first | rfl | omega

/-! ### How far the sinks are behind -/

/-- After the run `tr`, every sink that is on is to write `lag` still, and `typed` are the chunks
of stdin. -/
structure Behind (ports : RelayPorts) (lag : Sink → Bytes) (typed : List (Bytes × Bool))
    (tr : Trace) : Prop where
  behind : ∀ st, 0 ≤ ports.sink st →
    ports.source st tr = writtenTo (ports.sink st) tr ++ lag st
  typed_eq : typedChunks ports.master tr = typed

/-- Every sink that is on has written what it is to write. -/
def CaughtUp (ports : RelayPorts) (tr : Trace) : Prop :=
  ∀ st, 0 ≤ ports.sink st → writtenTo (ports.sink st) tr = ports.source st tr

/-- No sink has written anything else than what it is to write, or in another order. -/
def InOrder (ports : RelayPorts) (tr : Trace) : Prop :=
  ∀ st, 0 ≤ ports.sink st → writtenTo (ports.sink st) tr <+: ports.source st tr

variable {ports : RelayPorts} {lag : Sink → Bytes} {typed : List (Bytes × Bool)} {tr : Trace}

theorem Behind.inOrder (h : Behind ports lag typed tr) : InOrder ports tr :=
  fun st hst => ⟨lag st, (h.behind st hst).symm⟩

theorem Behind.caughtUp (h : Behind ports lag typed tr)
    (hlag : ∀ st, 0 ≤ ports.sink st → lag st = []) : CaughtUp ports tr := by
  intro st hst
  rw [h.behind st hst, hlag st hst, List.append_nil]

theorem CaughtUp.behind (h : CaughtUp ports tr) :
    Behind ports (fun _ => []) (typedChunks ports.master tr) tr :=
  ⟨fun st hst => by rw [List.append_nil, h st hst], rfl⟩

/-! ### One event -/

/-- An event that reads from no source, writes nothing and finds no echo. -/
structure Neutral (ports : RelayPorts) (e : Event sysSig) : Prop where
  readsNothing : readBy ports.master e = [] ∧ readBy 0 e = []
  writesNothing : ∀ fd, writtenBy fd e = []
  typesNothing : ∀ chunks, noteTyped ports.master chunks e = chunks

/-- The calls that move no text and ask for no echo. -/
def SysCall.MovesNothing : SysCall → Prop
  | .read _ _ | .write _ _ | .ioctl _ _ _ => False
  | _ => True

theorem SysCall.MovesNothing.neutral {c : SysCall} (hc : c.MovesNothing) (r : c.Answer) :
    Neutral ports ⟨c, r⟩ := by
  cases c with
  | read | write | ioctl => exact hc.elim
  | _ => exact ⟨⟨rfl, rfl⟩, fun _ => rfl, fun _ => rfl⟩

theorem Behind.neutral {e : Event sysSig} (h : Behind ports lag typed tr) (he : Neutral ports e) :
    Behind ports lag typed (tr ++ [e]) := by
  obtain ⟨⟨hmaster, hstdin⟩, hwrites, htypes⟩ := he
  refine ⟨fun st hst => ?_, ?_⟩
  · have hlag := h.behind st hst
    rw [writtenTo_snoc, hwrites, List.append_nil, ← hlag]
    cases st <;> simp [RelayPorts.source, hmaster, hstdin, htypes]
  · rw [typedChunks_snoc, htypes, h.typed_eq]

theorem CaughtUp.neutral {e : Event sysSig} (h : CaughtUp ports tr) (he : Neutral ports e) :
    CaughtUp ports (tr ++ [e]) :=
  (h.behind.neutral he).caughtUp fun _ _ => rfl

/-- A write takes from what its sink is to write, and leaves the other sinks alone. -/
theorem Behind.write {st : Sink} {data : Bytes} {w : Int} (h : Behind ports lag typed tr)
    (hon : 0 ≤ ports.sink st) (hdata : lag st = data) :
    Behind ports (Function.update lag st (data.drop w.toNat)) typed
      (tr ++ [⟨.write (ports.sink st) data, w⟩]) := by
  refine ⟨fun st' hst' => ?_, by rw [typedChunks_snoc, ← h.typed_eq]; rfl⟩
  have hsource : ports.source st' (tr ++ [⟨.write (ports.sink st) data, w⟩]) =
      ports.source st' tr := by
    cases st' <;> simp [RelayPorts.source, readBy, noteTyped]
  rw [hsource, h.behind st' hst', writtenTo_snoc, List.append_assoc]
  congr 1
  by_cases heq : st' = st
  · subst heq
    rw [Function.update_self, hdata, writtenBy, if_pos rfl, List.take_append_drop]
  · have hfd : ports.sink st ≠ ports.sink st' := fun hfd => heq (ports.sink_inj hon hfd).symm
    rw [Function.update_of_ne heq, writtenBy, if_neg hfd, List.nil_append]

/-- How far the sinks are behind after a chunk came from the master. -/
def outputLag (chunk : Bytes) : Sink → Bytes
  | .terminal | .transcript => chunk
  | .input | .keystrokes => []

/-- How far the sinks are behind after a chunk was typed, and not logged. -/
def inputLag (chunk : Bytes) : Sink → Bytes
  | .input => chunk
  | .terminal | .transcript | .keystrokes => []

theorem CaughtUp.readMaster (h : CaughtUp ports tr) (count : Nat) (r : Option Bytes) :
    Behind ports (outputLag ((r.getD []).take count)) (typedChunks ports.master tr)
      (tr ++ [⟨.read ports.master count, r⟩]) := by
  have hstdin : ports.master ≠ 0 := (Int.ne_of_lt ports.masterOpen).symm
  refine ⟨fun st hst => ?_, by simp [noteTyped, hstdin]⟩
  rw [writtenTo_snoc, h st hst]
  cases st <;> simp [RelayPorts.source, outputLag, readBy, writtenBy, noteTyped, hstdin]

theorem CaughtUp.readStdin {count : Nat} {r : Option Bytes} (h : CaughtUp ports tr)
    (hne : (r.getD []).take count ≠ []) :
    Behind ports (inputLag ((r.getD []).take count))
      (typedChunks ports.master tr ++ [((r.getD []).take count, false)])
      (tr ++ [⟨.read 0 count, r⟩]) := by
  have hmaster : 0 ≠ ports.master := Int.ne_of_lt ports.masterOpen
  have htyped : typedChunks ports.master (tr ++ [⟨.read 0 count, r⟩]) =
      typedChunks ports.master tr ++ [((r.getD []).take count, false)] := by
    rw [typedChunks_snoc, noteTyped, if_pos ⟨rfl, hne⟩]
  refine ⟨fun st hst => ?_, htyped⟩
  rw [writtenTo_snoc, h st hst]
  cases st with
  | keystrokes =>
      rw [RelayPorts.source, htyped]
      simp [RelayPorts.source, echoed, inputLag, writtenBy]
  | _ => simp [RelayPorts.source, inputLag, readBy, writtenBy, hmaster]

/-- A read that delivers nothing. -/
theorem neutral_read (fd : Int) (count : Nat) (r : Option Bytes)
    (h : (r.getD []).take count = [] ∨ fd ≠ ports.master ∧ fd ≠ 0) :
    Neutral ports ⟨.read fd count, r⟩ := by
  rcases h with hnil | ⟨hmaster, hstdin⟩
  · exact ⟨by simp [readBy, hnil], fun _ => rfl, fun _ => by simp [noteTyped, hnil]⟩
  · exact ⟨by simp [readBy, hmaster, hstdin], fun _ => rfl, fun _ => by simp [noteTyped, hstdin]⟩

/-- A query that reports the echo on makes the last chunk one to log. -/
theorem Behind.echoOn {chunk : Bytes} {r : Option Bytes} (arg : Bytes)
    (h : Behind ports lag (typed ++ [(chunk, false)]) tr) (hlag : lag .keystrokes = [])
    (hr : ReportsEcho r) :
    Behind ports (Function.update lag .keystrokes chunk) (typed ++ [(chunk, true)])
      (tr ++ [⟨.ioctl ports.master tcgets arg, r⟩]) := by
  have htyped : typedChunks ports.master (tr ++ [⟨.ioctl ports.master tcgets arg, r⟩]) =
      typed ++ [(chunk, true)] := by
    rw [typedChunks_snoc, noteTyped, if_pos ⟨rfl, rfl, hr⟩, h.typed_eq, List.modifyLast_concat]
  refine ⟨fun st hst => ?_, htyped⟩
  have hbehind := h.behind st hst
  cases st with
  | keystrokes =>
      rw [RelayPorts.source, h.typed_eq, hlag, List.append_nil] at hbehind
      rw [RelayPorts.source, htyped, writtenTo_snoc, ← hbehind, Function.update_self]
      simp [echoed, writtenBy]
  | _ =>
      rw [writtenTo_snoc, Function.update_of_ne (by simp)]
      simpa [RelayPorts.source, readBy, writtenBy] using hbehind

theorem neutral_ioctl (fd : Int) (request : Nat) (arg : Bytes) (r : Option Bytes)
    (h : fd = ports.master → request = tcgets → ¬ ReportsEcho r) :
    Neutral ports ⟨.ioctl fd request arg, r⟩ := by
  refine ⟨⟨rfl, rfl⟩, fun _ => rfl, fun chunks => if_neg ?_⟩
  intro ⟨hfd, hrequest, hecho⟩
  exact h hfd hrequest hecho

/-! ### The master as a world -/

/-- The master: the output it holds, and whether the child has closed its side. -/
structure PtyMaster where
  held : Bytes
  gone : Bool

/-- A step of the child. -/
inductive PtyStep : PtyMaster → PtyMaster → Prop
  | output (pty : PtyMaster) (data : Bytes) :
      pty.gone = false → PtyStep pty { pty with held := pty.held ++ data }
  | close (pty : PtyMaster) : PtyStep pty { pty with gone := true }

/-- What the kernel answers to the relay, and what becomes of the master. A read of the master
delivers what is held, some of it at least; a write takes some of its bytes at least; `poll`
reports input while output is held, and a hang-up only when the child has closed its side. The
descriptor of a `signalfd` is a new one. -/
def PtyMaster.Answers (master : Int) (pty : PtyMaster) : Event sysSig → PtyMaster → Prop
  | ⟨.read fd count, r⟩, pty' =>
      if fd = master then
        (Option.getD r []).take count <+: pty.held ∧
          (pty.held ≠ [] → (Option.getD r []).take count ≠ []) ∧
          pty' = { pty with held := pty.held.drop ((Option.getD r []).take count).length }
      else pty' = pty
  | ⟨.write _ data, w⟩, pty' => pty' = pty ∧ w ≤ data.length ∧ (data ≠ [] → (0 : Int) < w)
  | ⟨.poll fds, r⟩, pty' => pty' = pty ∧ (0 ≤ r.1 → fds.head? = some master →
      (pty.held ≠ [] → r.2.getD 0 0 &&& pollin ≠ 0) ∧
      (r.2.getD 0 0 &&& (pollhup ||| pollerr) ≠ 0 → pty.gone = true))
  | ⟨.signalfd _, fd⟩, pty' => pty' = pty ∧ fd ≠ master ∧ fd ≠ (0 : Int)
  | _, pty' => pty' = pty

/-- The relay's calls are answered by the kernel; the child moves in between. -/
def masterWorld (master : Int) : World sysSig PtyMaster where
  answers pty c r pty' := pty.Answers master ⟨c, r⟩ pty'
  other _ := PtyStep

/-- The events of a history. -/
def events (h : List (Moment sysSig PtyMaster)) : Trace := h.map (·.event)

/-! ### The relay, one function at a time -/

/-- After the run `tr` the program keeps the sinks in order, and returns what meets `post`. -/
abbrev Copies {α : Type} (ports : RelayPorts) (post : Trace → α → Prop) (tr : Trace)
    (p : Sys α) : Prop :=
  Guards (masterWorld ports.master) (fun tr m => tr ++ [m.event]) (fun _ _ => True)
    (fun tr m => InOrder ports (tr ++ [m.event])) post tr p

/-- No sink is behind when the program returns. -/
abbrev CatchesUp {α : Type} (ports : RelayPorts) (tr : Trace) (p : Sys α) : Prop :=
  Copies ports (fun tr _ => CaughtUp ports tr) tr p

theorem CatchesUp.seq {α β : Type} {post : Trace → β → Prop} {p : Sys α} {f : α → Sys β}
    (hp : CatchesUp ports tr p)
    (hf : ∀ tr a, CaughtUp ports tr → Copies ports post tr (f a)) :
    Copies ports post tr (p >>= f) :=
  Guards.bind hp hf

theorem CaughtUp.inOrder (h : CaughtUp ports tr) : InOrder ports tr := h.behind.inOrder

theorem Behind.done {st : Sink} (h : Behind ports lag typed tr) (hnil : lag st = []) :
    Behind ports (Function.update lag st []) typed tr := by
  rwa [← hnil, Function.update_eq_self]

/-- The loop writes what its sink is behind by. -/
theorem copies_sessionFullWrite (st : Sink) (hon : 0 ≤ ports.sink st) (fuel : Nat) {data : Bytes}
    (hfuel : data.length ≤ fuel) (h : Behind ports lag typed tr) (hdata : lag st = data) :
    Copies ports (fun tr' _ => Behind ports (Function.update lag st []) typed tr') tr
      (sessionFullWrite (ports.sink st) fuel data) := by
  induction fuel generalizing data lag tr with
  | zero =>
      have hnil : data = [] := List.eq_nil_of_length_eq_zero (Nat.le_zero.mp hfuel)
      exact h.done (hdata.trans hnil)
  | succ fuel ih =>
      refine Guards.ite (fun hnil => h.done (hdata.trans hnil)) fun hne => ?_
      intro pty (w : Int) pty' hans _
      have hw : 0 < w := hans.2.2 hne
      have hnext := h.write (w := w) hon hdata
      refine ⟨hnext.inOrder, Guards.ite (fun hle => absurd hw (Int.not_lt.mpr hle)) fun _ => ?_⟩
      have hrest : (data.drop w.toNat).length ≤ fuel := by
        have hpos : 0 < data.length := List.length_pos_iff.mpr hne
        rw [List.length_drop]
        omega
      have hrun := ih hrest hnext (Function.update_self ..)
      rwa [Function.update_idem] at hrun

theorem copies_fullWrite (st : Sink) (hon : 0 ≤ ports.sink st) {data : Bytes}
    (h : Behind ports lag typed tr) (hdata : lag st = data) :
    Copies ports (fun tr' _ => Behind ports (Function.update lag st []) typed tr') tr
      (fullWrite (ports.sink st) data) :=
  (copies_sessionFullWrite st hon _ (Nat.le_refl _) h hdata).bind fun _ _ hpost => hpost

/-- A call that is neutral whatever it answers. -/
theorem CaughtUp.call {α : Type} {post : Trace → α → Prop} {c : SysCall} {k : c.Answer → Sys α}
    (h : CaughtUp ports tr)
    (hneutral : ∀ pty r pty', (masterWorld ports.master).answers pty c r pty' →
      Neutral ports ⟨c, r⟩)
    (hk : ∀ pty r pty' tr, (masterWorld ports.master).answers pty c r pty' → CaughtUp ports tr →
      Copies ports post tr (k r)) : Copies ports post tr (.call c k) := by
  intro pty r pty' hans _
  have hnext := h.neutral (hneutral pty r pty' hans)
  exact ⟨hnext.inOrder, hk pty r pty' _ hans hnext⟩

/-- A call that moves no text. -/
theorem CaughtUp.quiet {α : Type} {post : Trace → α → Prop} {c : SysCall} {k : c.Answer → Sys α}
    (h : CaughtUp ports tr) (hc : c.MovesNothing)
    (hk : ∀ pty r pty' tr, (masterWorld ports.master).answers pty c r pty' → CaughtUp ports tr →
      Copies ports post tr (k r)) : Copies ports post tr (.call c k) :=
  h.call (fun _ r _ _ => hc.neutral r) hk

/-- What the master delivered goes to the terminal, and to the transcript when it is on. -/
theorem catchesUp_relayMaster (hup : Bool) (fuel : Nat) (h : CaughtUp ports tr) :
    CatchesUp ports tr (relayMaster ports.master ports.logfd hup fuel) := by
  induction fuel generalizing tr with
  | zero => exact fun _ r => r.elim
  | succ fuel ih =>
      intro pty r pty' hans _
      have hread := h.readMaster 4096 r
      refine ⟨hread.inOrder, ?_⟩
      refine Guards.ite (fun hnil => h.neutral (neutral_read _ _ r (Or.inl hnil))) fun _ => ?_
      have hscreen : 0 ≤ ports.sink .terminal := Int.one_nonneg
      refine (copies_fullWrite .terminal hscreen hread rfl).bind fun tr _ hshown => ?_
      refine CatchesUp.seq (Guards.ite (fun hon => ?_) fun hoff => ?_) fun tr _ hdone => ?_
      · refine (copies_fullWrite .transcript hon hshown rfl).mono fun tr _ hlogged => ?_
        refine hlogged.caughtUp fun st _ => ?_
        cases st <;> simp [Function.update, outputLag]
      · refine hshown.caughtUp fun st hst => ?_
        cases st with
        | transcript => exact absurd hst hoff
        | _ => simp [Function.update, outputLag]
      · exact Guards.ite (fun _ => ih hdone) fun _ => hdone

/-- The keystroke log gets the chunk when the query reports the echo on. -/
theorem catchesUp_logKeystrokes {chunk : Bytes} (hlag : ∀ st, lag st = [])
    (h : Behind ports lag (typed ++ [(chunk, false)]) tr) :
    CatchesUp ports tr (logKeystrokes ports.master ports.inlogfd chunk) := by
  have hup : ∀ {tr}, Behind ports lag (typed ++ [(chunk, false)]) tr → CaughtUp ports tr :=
    fun h => h.caughtUp fun st _ => hlag st
  refine Guards.ite (fun hon => ?_) fun _ => hup h
  intro pty ok pty' _ _
  replace h : Behind ports lag (typed ++ [(chunk, false)]) (tr ++ [⟨.alloc termiosSize, ok⟩]) :=
    h.neutral (SysCall.MovesNothing.neutral (c := .alloc termiosSize) trivial ok)
  refine ⟨h.inOrder, ?_⟩
  cases ok with
  | false => exact hup h
  | true =>
      intro pty r pty' _ _
      by_cases hecho : ReportsEcho r
      · have hnext := h.echoOn (List.replicate termiosSize 0) (hlag _) hecho
        refine ⟨hnext.inOrder, ?_⟩
        obtain ⟨t, rfl, hbit⟩ := hecho
        refine Guards.ite (fun _ => ?_) fun hoff => absurd (decide_eq_true hbit) hoff
        refine (copies_fullWrite .keystrokes hon hnext (Function.update_self ..)).mono ?_
        intro tr _ hlogged
        refine hlogged.caughtUp fun st _ => ?_
        rw [Function.update_idem]
        cases st <;> simp [Function.update, hlag]
      · have hnext := h.neutral (neutral_ioctl ports.master tcgets
          (List.replicate termiosSize 0) r fun _ _ => hecho)
        refine ⟨hnext.inOrder, ?_⟩
        cases r with
        | none => exact hup hnext
        | some t =>
            have hbit : ¬ (load32 t 12 &&& echoFlag ≠ 0) := fun hbit => hecho ⟨t, rfl, hbit⟩
            exact Guards.ite (fun hon => absurd (of_decide_eq_true hon) hbit) fun _ => hup hnext

/-- What was typed goes to the master, and maybe to the keystroke log. -/
theorem catchesUp_relayStdin (h : CaughtUp ports tr) :
    CatchesUp ports tr (relayStdin ports.master ports.inlogfd) := by
  intro pty r pty' _ _
  by_cases hnil : (Option.getD r []).take 4096 = []
  · have hnext := h.neutral (neutral_read 0 4096 r (Or.inl hnil))
    refine ⟨hnext.inOrder, Guards.ite (fun _ => hnext) fun hne => absurd hnil hne⟩
  · have hread := h.readStdin hnil
    refine ⟨hread.inOrder, Guards.ite (fun hnil' => absurd hnil' hnil) fun _ => ?_⟩
    have hopen : 0 ≤ ports.sink .input := Int.le_of_lt ports.masterOpen
    refine (copies_fullWrite .input hopen hread rfl).bind fun tr _ hdelivered => ?_
    refine CatchesUp.seq (catchesUp_logKeystrokes (fun st => ?_) hdelivered) fun _ _ => id
    cases st <;> simp [Function.update, inputLag]

/-- The resize notifications come from a descriptor of their own. -/
theorem catchesUp_drainWinch {winchFd : Int} (hfd : winchFd ≠ ports.master ∧ winchFd ≠ 0)
    (fuel : Nat) (h : CaughtUp ports tr) : CatchesUp ports tr (drainWinch winchFd fuel) := by
  induction fuel generalizing tr with
  | zero => exact fun _ r => r.elim
  | succ fuel ih =>
      refine h.call (fun _ r _ _ => neutral_read _ _ r (Or.inr hfd)) fun _ _ _ tr _ h => ?_
      exact Guards.ite (fun _ => h) fun _ => ih h

theorem catchesUp_sessionCopyWinsize (toFd : Int) (h : CaughtUp ports tr) :
    CatchesUp ports tr (sessionCopyWinsize 0 toFd) := by
  have hneutral : ∀ {fd : Int} {request : Nat} {arg : Bytes} {r : Option Bytes},
      request ≠ tcgets → Neutral ports ⟨.ioctl fd request arg, r⟩ :=
    fun hne => neutral_ioctl _ _ _ _ fun _ heq => absurd heq hne
  refine h.quiet trivial fun _ _ _ tr _ h => ?_
  refine Guards.ite (fun _ => h) fun _ => ?_
  refine h.call (fun _ _ _ _ => hneutral (by decide)) fun _ r _ tr _ h => ?_
  cases r with
  | none => exact h
  | some size => exact h.call (fun _ _ _ _ => hneutral (by decide)) fun _ _ _ tr _ h => h

theorem copies_sessionSigwinchFd (h : CaughtUp ports tr) :
    Copies ports (fun tr fd => CaughtUp ports tr ∧ (0 ≤ fd → fd ≠ ports.master ∧ fd ≠ 0)) tr
      sessionSigwinchFd := by
  refine h.quiet trivial fun _ _ _ tr _ h => ?_
  refine Guards.ite (fun _ => ⟨h, fun hle => absurd hle (by decide)⟩) fun _ => ?_
  refine h.quiet trivial fun _ _ _ tr _ h => ?_
  refine h.quiet trivial fun _ _ _ tr hans h => ?_
  exact ⟨h, fun _ => hans.2⟩

theorem catchesUp_relayResize {winchFd : Int}
    (hfd : 0 ≤ winchFd → winchFd ≠ ports.master ∧ winchFd ≠ 0) (revents fuel : Nat)
    (h : CaughtUp ports tr) :
    CatchesUp ports tr (relayResize ports.master winchFd revents fuel) := by
  refine Guards.ite (fun hon => ?_) fun _ => h
  exact (catchesUp_drainWinch (hfd hon.1) fuel h).seq fun _ _ h =>
    catchesUp_sessionCopyWinsize ports.master h

theorem catchesUp_sessionRelayLoop {winchFd : Int}
    (hfd : 0 ≤ winchFd → winchFd ≠ ports.master ∧ winchFd ≠ 0) (fuel : Nat) (stdinOpen : Bool)
    (h : CaughtUp ports tr) :
    CatchesUp ports tr
      (sessionRelayLoop ports.master ports.logfd ports.inlogfd winchFd fuel stdinOpen) := by
  induction fuel generalizing stdinOpen tr with
  | zero => exact fun _ r => r.elim
  | succ fuel ih =>
      refine h.quiet trivial ?_
      intro _ ⟨pr, revents⟩ _ tr _ h
      refine Guards.ite (fun _ => Guards.ite (fun _ => ih _ h) fun _ => h) fun _ => ?_
      refine (catchesUp_relayResize hfd _ fuel h).seq fun tr _ h => ?_
      refine CatchesUp.seq (Guards.ite (fun _ => catchesUp_relayMaster _ fuel h) fun _ => h) ?_
      intro tr ended h
      refine CatchesUp.seq (Guards.ite (fun _ => catchesUp_relayStdin h) fun _ => h) ?_
      intro tr stdinOpen h
      refine Guards.ite (fun _ => Guards.ite (fun _ => ?_) fun _ => h) fun _ => ih _ h
      exact h.quiet trivial fun _ _ _ _ _ h => h

theorem catchesUp_sessionRelay (fuel : Nat) (h : CaughtUp ports tr) :
    CatchesUp ports tr (sessionRelay fuel ports.master ports.logfd ports.inlogfd) := by
  refine (catchesUp_sessionCopyWinsize ports.master h).seq fun tr _ h => ?_
  refine (copies_sessionSigwinchFd h).bind fun tr winchFd ⟨h, hfd⟩ => ?_
  refine h.quiet trivial fun _ _ _ tr _ h => ?_
  refine Guards.ite (fun _ => h) fun _ => ?_
  refine h.quiet trivial fun _ _ _ tr _ h => ?_
  exact Guards.ite (fun _ => h) fun _ => catchesUp_sessionRelayLoop hfd fuel true h

/-! ### Hang-up -/

/-- The child has closed its side, and the master holds nothing. -/
def PtyMaster.Drained (pty : PtyMaster) : Prop := pty.gone = true ∧ pty.held = []

/-- `poll` reports a hang-up of the master. -/
def ReportsHangup (master : Int) : Event sysSig → Prop
  | ⟨.poll fds, r⟩ => 0 ≤ r.1 ∧ fds.head? = some master ∧
      r.2.getD 0 0 &&& (pollhup ||| pollerr) ≠ 0
  | _ => False

section Hangup

variable {master : Int} {s t : PtyMaster} {h : List (Moment sysSig PtyMaster)}

/-- An answer leaves the master alone, but for a read of what it holds. -/
theorem PtyMaster.Answers.held {pty pty' : PtyMaster} {e : Event sysSig}
    (hans : pty.Answers master e pty') :
    pty'.gone = pty.gone ∧ pty.held = readBy master e ++ pty'.held := by
  obtain ⟨c, r⟩ := e
  cases c with
  | read fd count =>
      simp only [Answers, readBy] at hans ⊢
      split at hans
      case isTrue hfd =>
        obtain ⟨⟨rest, hrest⟩, -, rfl⟩ := hans
        rw [if_pos hfd, ← hrest, List.drop_left]
        exact ⟨rfl, rfl⟩
      case isFalse hfd =>
        rw [if_neg hfd, hans]
        exact ⟨rfl, rfl⟩
  | write _ _ | poll _ | signalfd _ =>
      obtain ⟨rfl, -⟩ := hans
      exact ⟨rfl, rfl⟩
  | _ =>
      cases hans
      exact ⟨rfl, rfl⟩

/-- The child stays gone. -/
theorem PtyStep.gone {pty pty' : PtyMaster} (hstep : PtyStep pty pty') (hgone : pty.gone = true) :
    pty'.gone = true ∧ pty'.held = pty.held := by
  cases hstep with
  | output data hopen => simp [hgone] at hopen
  | close => exact ⟨rfl, rfl⟩

/-- Without the child, what the master held is what was read from it since, and what it still
holds. -/
theorem held_of_runs_gone {α : Type} {p q : Sys α} (hrun : Runs (masterWorld master) s p h t q)
    (hgone : s.gone = true) : t.gone = true ∧ s.held = readFrom master (events h) ++ t.held := by
  induction hrun with
  | nil => exact ⟨hgone, rfl⟩
  | other hstep _ ih =>
      obtain ⟨hgone', hheld⟩ := hstep.gone hgone
      rw [← hheld]
      exact ih hgone'
  | call hans _ ih =>
      obtain ⟨hgone', hheld⟩ := PtyMaster.Answers.held hans
      obtain ⟨hend, hrest⟩ := ih (hgone'.trans hgone)
      refine ⟨hend, ?_⟩
      rw [hheld, hrest, ← List.append_assoc]
      rfl

theorem PtyMaster.Drained.runs {α : Type} {p q : Sys α} (hs : s.Drained)
    (hrun : Runs (masterWorld master) s p h t q) : t.Drained := by
  obtain ⟨hgone, hheld⟩ := held_of_runs_gone hrun hs.1
  rw [hs.2] at hheld
  exact ⟨hgone, (List.append_eq_nil_iff.mp hheld.symm).2⟩

/-- A read waits, delivers a chunk, and the program goes on with it. -/
theorem completed_fileRead_bind_iff {W : World sysSig PtyMaster} {β : Type} {fd : Int} {count : Nat}
    {f : Bytes → Sys β} {b : β} :
    Completed W s (fileRead fd count >>= f) h t b ↔
      ∃ m r s' h', W.Waits (.read fd count) s m ∧ W.answers m (.read fd count) r s' ∧
        h = ⟨m, ⟨.read fd count, r⟩⟩ :: h' ∧
        Completed W s' (f ((Option.getD r []).take count)) h' t b :=
  completed_call_iff

/-- After a hang-up, the master is read until it holds nothing. -/
theorem relayMaster_drains {logfd : Int} {fuel : Nat} {ended : Bool}
    (hrun : Completed (masterWorld master) s (relayMaster master logfd true fuel) h t ended)
    (hgone : s.gone = true) : t.Drained := by
  induction fuel generalizing s h with
  | zero =>
      obtain ⟨_, r, _⟩ := completed_call_iff.mp hrun
      exact r.elim
  | succ fuel ih =>
      obtain ⟨m, r, s', h', hwait, hans, rfl, hrest⟩ := completed_fileRead_bind_iff.mp hrun
      replace hans : m.Answers master ⟨.read master 4096, r⟩ s' := hans
      have hm := (held_of_runs_gone (Runs.waits hwait (Runs.nil m
        (relayMaster master logfd true (fuel + 1)))) hgone).1
      have hs' : s'.gone = true := hans.held.1.trans hm
      obtain ⟨-, hpiece, heq⟩ : _ ∧ _ ∧ _ := by
        simpa only [PtyMaster.Answers, if_true] using hans
      split at hrest
      case isTrue hnil =>
        obtain ⟨-, rfl, -⟩ := completed_pure_iff.mp hrest
        have hheld : m.held = [] := by
          by_contra hne
          exact hpiece hne hnil
        exact ⟨hs', by rw [heq]; simp [hheld]⟩
      case isFalse =>
        obtain ⟨h₁, h₂, s₁, _, rfl, hshow, hrest⟩ := completed_bind_iff.mp hrest
        obtain ⟨h₃, h₄, s₂, _, rfl, hlog, hrest⟩ := completed_bind_iff.mp hrest
        exact ih hrest (held_of_runs_gone hlog (held_of_runs_gone hshow hs').1).1

end Hangup

/-! ### Polls and writes -/

/-- A `poll`, or a write to a negative descriptor. -/
@[simp] def OffPort : SysCall → Prop
  | .poll _ => True
  | .write fd _ => fd < 0
  | _ => False

section OffPort

variable {fd : Int}

theorem offPort_fullWrite (hfd : 0 ≤ fd) (data : Bytes) :
    Prog.Avoids OffPort (fullWrite fd data) :=
  avoids_fullWrite (by simp [hfd]) data

@[simp] theorem offPort_fileRead (fd : Int) (count : Nat) :
    Prog.Avoids OffPort (fileRead fd count) :=
  avoids_fileRead (by simp)

@[simp] theorem offPort_drainWinch (winchFd : Int) (fuel : Nat) :
    Prog.Avoids OffPort (drainWinch winchFd fuel) :=
  avoids_drainWinch (by simp) (by simp) fuel

@[simp] theorem offPort_sessionCopyWinsize (fromFd toFd : Int) :
    Prog.Avoids OffPort (sessionCopyWinsize fromFd toFd) := by
  apply avoids_sessionCopyWinsize <;> simp

@[simp] theorem offPort_sessionSigwinchFd : Prog.Avoids OffPort sessionSigwinchFd := by
  simp [sessionSigwinchFd]

@[simp] theorem offPort_relayResize (master winchFd : Int) (revents fuel : Nat) :
    Prog.Avoids OffPort (relayResize master winchFd revents fuel) := by
  simp [relayResize]

@[simp] theorem offPort_sessionSlaveEchoOn (master : Int) :
    Prog.Avoids OffPort (sessionSlaveEchoOn master) := by
  apply avoids_sessionSlaveEchoOn <;> simp

theorem offPort_relayMaster (master logfd : Int) (hup : Bool) (fuel : Nat) :
    Prog.Avoids OffPort (relayMaster master logfd hup fuel) :=
  avoids_relayMaster (by simp) (by simp) (by simp) (by simp +contextual) fuel

theorem offPort_relayStdin {master : Int} (hmaster : 0 ≤ master) (inlogfd : Int) :
    Prog.Avoids OffPort (relayStdin master inlogfd) := by
  simp +contextual [relayStdin, logKeystrokes, offPort_fullWrite, hmaster]

end OffPort

/-- A write to a negative descriptor. -/
@[simp] def WritesNegative : SysCall → Prop
  | .write fd _ => fd < 0
  | _ => False

theorem WritesNegative.offPort {c : SysCall} (hc : WritesNegative c) : OffPort c := by
  cases c <;> simp_all

/-- The relay writes to descriptors that are on. -/
theorem avoids_writesNegative_sessionRelayLoop (ports : RelayPorts) (winchFd : Int) (fuel : Nat)
    (stdinOpen : Bool) :
    Prog.Avoids WritesNegative
      (sessionRelayLoop ports.master ports.logfd ports.inlogfd winchFd fuel stdinOpen) := by
  have hresize := fun revents fuel => (offPort_relayResize ports.master winchFd revents fuel).mono
    fun _ => WritesNegative.offPort
  have hmaster := fun hup fuel => (offPort_relayMaster ports.master ports.logfd hup fuel).mono
    fun _ => WritesNegative.offPort
  have hstdin := (offPort_relayStdin (Int.le_of_lt ports.masterOpen) ports.inlogfd).mono
    fun _ => WritesNegative.offPort
  induction fuel generalizing stdinOpen with
  | zero => exact ⟨by simp, fun r => r.elim⟩
  | succ fuel ih => simp [sessionRelayLoop, ih, hresize, hmaster, hstdin]

theorem avoids_writesNegative_sessionRelay (ports : RelayPorts) (fuel : Nat) :
    Prog.Avoids WritesNegative
      (sessionRelay fuel ports.master ports.logfd ports.inlogfd) := by
  have hwinsize := (offPort_sessionCopyWinsize 0 ports.master).mono
    fun _ => WritesNegative.offPort
  have hwinch := offPort_sessionSigwinchFd.mono fun _ => WritesNegative.offPort
  simp [sessionRelay, hwinsize, hwinch, avoids_writesNegative_sessionRelayLoop]

/-! ### The relay -/

/-- Only a `poll` reports a hang-up. -/
theorem ReportsHangup.offPort {master : Int} {e : Event sysSig} (h : ReportsHangup master e) :
    OffPort e.call := by
  obtain ⟨c, r⟩ := e
  cases c with
  | poll _ => exact trivial
  | _ => exact absurd h (by simp [ReportsHangup])

/-- A hang-up that a sequence reports, its second part does, when the first never polls. -/
theorem reportsHangup_bind {α β : Type} {master : Int} {p : Sys α} {f : α → Sys β}
    {s t : PtyMaster} {h : List (Moment sysSig PtyMaster)} {b : β}
    (hrun : Completed (masterWorld master) s (p >>= f) h t b) (hp : Prog.Avoids OffPort p)
    (hhup : ∃ m ∈ h, ReportsHangup master m.event) :
    ∃ h' s' a, Completed (masterWorld master) s' (f a) h' t b ∧
      ∃ m ∈ h', ReportsHangup master m.event := by
  obtain ⟨h₁, h₂, s', a, rfl, hfirst, hsecond⟩ := completed_bind_iff.mp hrun
  obtain ⟨m, hm, hr⟩ := hhup
  rcases List.mem_append.mp hm with hm | hm
  · exact absurd hr.offPort (Runs.avoids hfirst hp m hm)
  · exact ⟨h₂, s', a, hsecond, m, hm, hr⟩

/-- The turn of the loop that reports a hang-up is its last, and leaves nothing in the
master. -/
theorem sessionRelayLoop_drains {ports : RelayPorts} {winchFd : Int} {fuel : Nat}
    {stdinOpen : Bool} {s t : PtyMaster} {h : List (Moment sysSig PtyMaster)} {rc : Int}
    (hrun : Completed (masterWorld ports.master) s
      (sessionRelayLoop ports.master ports.logfd ports.inlogfd winchFd fuel stdinOpen) h t rc)
    (hhup : ∃ m ∈ h, ReportsHangup ports.master m.event) : t.Drained := by
  induction fuel generalizing s h stdinOpen with
  | zero =>
      obtain ⟨_, r, _⟩ := completed_call_iff.mp hrun
      exact r.elim
  | succ fuel ih =>
      rw [sessionRelayLoop] at hrun
      obtain ⟨m, ⟨pr, revents⟩, s', h', hwait, hans, rfl, hrest⟩ := completed_ask_bind_iff.mp hrun
      obtain ⟨rfl, hpoll⟩ := hans
      dsimp only at hrest hpoll
      rw [List.exists_mem_cons_iff] at hhup
      split at hrest
      case isTrue hneg =>
        -- An interrupted or failed `poll` reports nothing.
        have hlater := hhup.resolve_left fun hr => absurd hneg (Int.not_lt.mpr hr.1)
        split at hrest
        · exact ih hrest hlater
        · obtain ⟨rfl, -, -⟩ := completed_pure_iff.mp hrest
          simp at hlater
      case isFalse hpos =>
        obtain ⟨hpollin, hpollhup⟩ := hpoll (Int.not_lt.mp hpos) rfl
        by_cases hreport : revents.getD 0 0 &&& (pollhup ||| pollerr) ≠ 0
        · have hgone := hpollhup hreport
          obtain ⟨h₁, rest₁, s₁, _, rfl, hresize, hrest⟩ := completed_bind_iff.mp hrest
          obtain ⟨h₂, rest₂, s₂, ended, rfl, hmaster, hrest⟩ := completed_bind_iff.mp hrest
          have hdrained : s₂.Drained := by
            split at hmaster
            case isTrue =>
              rw [decide_eq_true hreport] at hmaster
              exact relayMaster_drains hmaster (held_of_runs_gone hresize hgone).1
            case isFalse hidle =>
              obtain ⟨-, rfl, -⟩ := completed_pure_iff.mp hmaster
              have hnil : s'.held = [] := by
                by_contra hne
                exact hidle (hpollin hne)
              exact PtyMaster.Drained.runs ⟨hgone, hnil⟩ hresize
          exact hdrained.runs hrest
        · have hlater := hhup.resolve_left fun hr => hreport hr.2.2
          obtain ⟨_, _, _, hrest, hlater⟩ :=
            reportsHangup_bind hrest (offPort_relayResize ..) hlater
          obtain ⟨_, _, ended, hrest, hlater⟩ := reportsHangup_bind hrest
            (Prog.avoids_ite.mpr ⟨fun _ => offPort_relayMaster .., fun _ => Prog.avoids_pure _⟩)
            hlater
          obtain ⟨_, _, stdinOpen', hrest, hlater⟩ := reportsHangup_bind hrest
            (Prog.avoids_ite.mpr ⟨fun _ => offPort_relayStdin (Int.le_of_lt ports.masterOpen) _,
              fun _ => Prog.avoids_pure _⟩) hlater
          rw [decide_eq_false hreport, Bool.or_false] at hrest
          cases ended with
          | true =>
              obtain ⟨m, hm, hr⟩ := hlater
              exact absurd hr.offPort (Runs.avoids hrest (by simp) m hm)
          | false => exact ih hrest hlater

/-- A relay whose `poll` reports a hang-up returns with nothing left in the master. -/
theorem sessionRelay_drains {ports : RelayPorts} {fuel : Nat} {s t : PtyMaster}
    {h : List (Moment sysSig PtyMaster)} {rc : Int}
    (hrun : Completed (masterWorld ports.master) s
      (sessionRelay fuel ports.master ports.logfd ports.inlogfd) h t rc)
    (hhup : ∃ m ∈ h, ReportsHangup ports.master m.event) : t.Drained := by
  obtain ⟨_, _, _, hrest, hhup⟩ := reportsHangup_bind hrun (offPort_sessionCopyWinsize ..) hhup
  obtain ⟨_, _, winchFd, hrest, hhup⟩ := reportsHangup_bind hrest offPort_sessionSigwinchFd hhup
  obtain ⟨_, _, ok, hrest, hhup⟩ := reportsHangup_bind hrest (by simp) hhup
  cases ok with
  | false =>
      obtain ⟨rfl, -, -⟩ := completed_pure_iff.mp hrest
      simp at hhup
  | true =>
      obtain ⟨_, _, pfds, hrest, hhup⟩ := reportsHangup_bind hrest (by simp) hhup
      cases pfds with
      | false =>
          obtain ⟨rfl, -, -⟩ := completed_pure_iff.mp hrest
          simp at hhup
      | true => exact sessionRelayLoop_drains hrest hhup

/-- After a report of a hang-up, what the master held then is read until the end of the
run. -/
theorem read_of_reportsHangup {ports : RelayPorts} {s t : PtyMaster} {p q : Sys Int}
    {h₁ h₂ : List (Moment sysSig PtyMaster)} {m : Moment sysSig PtyMaster}
    (hrun : Runs (masterWorld ports.master) s p (h₁ ++ m :: h₂) t q)
    (hr : ReportsHangup ports.master m.event) (hend : t.held = []) :
    readFrom ports.master (events h₂) = m.state.held := by
  obtain ⟨s', p', hans, hrest⟩ := hrun.split
  obtain ⟨pty, c, r⟩ := m
  cases c with
  | poll fds =>
      obtain ⟨rfl, hpoll⟩ := hans
      obtain ⟨hpos, hfd, hbits⟩ := hr
      obtain ⟨-, hheld⟩ := held_of_runs_gone hrest ((hpoll hpos hfd).2 hbits)
      rw [hheld, hend, List.append_nil]
  | _ => exact absurd hr (by simp [ReportsHangup])

theorem foldl_events (h : List (Moment sysSig PtyMaster)) (tr : Trace) :
    h.foldl (fun tr m => tr ++ [m.event]) tr = tr ++ events h := by
  induction h generalizing tr with
  | nil => simp [events]
  | cons m h ih => simp [events, ih]

/-- **The relay copies every byte once, in order.** At every moment of a run the sinks have
written a beginning of what was read for them, and nothing went to a descriptor that is off.
When the relay returns, they have written all of it; and if a hang-up was reported, everything
the master held then has been read since, and it holds nothing any more. -/
theorem sessionRelay_copies (ports : RelayPorts) (fuel : Nat) (buf : RelayBuffer)
    {s t : PtyMaster} {h : List (Moment sysSig PtyMaster)} {q : Sys Int}
    (hrun : Runs (masterWorld ports.master) s
      (sessionRelayBuf fuel buf ports.master ports.logfd ports.inlogfd) h t q) :
    InOrder ports (events h) ∧
    (∀ m ∈ h, ¬ WritesNegative m.event.call) ∧
    ∀ rc, q = Prog.pure rc →
      CaughtUp ports (events h) ∧
      ∀ h₁ m h₂, h = h₁ ++ m :: h₂ → ReportsHangup ports.master m.event →
        t.held = [] ∧ readFrom ports.master (events h₂) = m.state.held := by
  rw [sessionRelayBuf_eq] at hrun
  have hstart : CaughtUp ports [] := fun st _ => by cases st <;> rfl
  have hguards := catchesUp_sessionRelay fuel hstart
  have horder := Always.foldl hstart.inOrder (hguards.always hrun (always_true _ _ _))
  rw [foldl_events] at horder
  refine ⟨horder, hrun.avoids (avoids_writesNegative_sessionRelay ports fuel), ?_⟩
  rintro rc rfl
  have hdone := hguards.completed hrun (always_true _ _ _)
  rw [foldl_events] at hdone
  refine ⟨hdone, ?_⟩
  rintro h₁ m h₂ rfl hr
  have hend := (sessionRelay_drains hrun ⟨m, by simp, hr⟩).2
  exact ⟨hend, read_of_reportsHangup hrun hr hend⟩

/-! ### A burst and a hang-up -/

/-- A relay with a transcript, and no keystroke log. -/
def burstPorts : RelayPorts := ⟨⟨5, 6, -1, by decide⟩, by decide, by decide, by decide⟩

/-- The child has written `hi`; then it closes its side, and the relay reads the output. -/
def burstOpen : PtyMaster := ⟨[104, 105], false⟩
def burstGone : PtyMaster := ⟨[104, 105], true⟩
def burstRead : PtyMaster := ⟨[], true⟩

/-- The relay is told of the output and of the hang-up at once. The terminal takes the output
byte by byte. -/
def burstHistory : List (Moment sysSig PtyMaster) :=
  [⟨burstOpen, ⟨.alloc 8, true⟩⟩,
    ⟨burstOpen, ⟨.ioctl 0 tiocgwinsz (List.replicate 8 0), none⟩⟩,
    ⟨burstOpen, ⟨.alloc 8, true⟩⟩,
    ⟨burstOpen, ⟨.sigprocmask sigBlock (1 <<< (sigwinch - 1)), (0 : Nat)⟩⟩,
    ⟨burstOpen, ⟨.signalfd (1 <<< (sigwinch - 1)), (-1 : Int)⟩⟩,
    ⟨burstOpen, ⟨.alloc 4096, true⟩⟩,
    ⟨burstOpen, ⟨.alloc 24, true⟩⟩,
    ⟨burstGone, ⟨.poll [5, 0, -1], ((1 : Int), [17, 0, 0])⟩⟩,
    ⟨burstGone, ⟨.read 5 4096, some [104, 105]⟩⟩,
    ⟨burstRead, ⟨.write 1 [104, 105], (1 : Int)⟩⟩,
    ⟨burstRead, ⟨.write 1 [105], (1 : Int)⟩⟩,
    ⟨burstRead, ⟨.write 6 [104, 105], (2 : Int)⟩⟩,
    ⟨burstRead, ⟨.read 5 4096, none⟩⟩]

theorem completed_burst :
    Completed (masterWorld 5) burstOpen (sessionRelay 3 5 6 (-1)) burstHistory burstRead 0 := by
  refine Runs.call rfl ?_
  refine Runs.call rfl ?_
  refine Runs.call rfl ?_
  refine Runs.call rfl ?_
  refine Runs.call ⟨rfl, by decide⟩ ?_
  refine Runs.call rfl ?_
  refine Runs.call rfl ?_
  refine Runs.other (PtyStep.close burstOpen) ?_
  refine Runs.call ⟨rfl, by decide⟩ ?_
  have hburst : burstGone.Answers 5 ⟨.read 5 4096, some [104, 105]⟩ burstRead :=
    ⟨⟨[], rfl⟩, by decide, rfl⟩
  have hend : burstRead.Answers 5 ⟨.read 5 4096, none⟩ burstRead := ⟨⟨[], rfl⟩, by decide, rfl⟩
  have hwrite : ∀ {fd : Int} {data : Bytes} {w : Int}, w ≤ data.length → 0 < w →
      burstRead.Answers 5 ⟨.write fd data, w⟩ burstRead := fun hle hpos => ⟨rfl, hle, fun _ => hpos⟩
  refine Runs.call hburst ?_
  refine Runs.call (hwrite (by decide) (by decide)) ?_
  refine Runs.call (hwrite (by decide) (by decide)) ?_
  refine Runs.call (hwrite (by decide) (by decide)) ?_
  exact Runs.call hend (Runs.nil _ _)

/-- The burst is on the terminal and in the transcript. -/
theorem sessionRelay_copies_burst :
    writtenTo 1 (events burstHistory) = [104, 105] ∧
      writtenTo 6 (events burstHistory) = [104, 105] := by
  have hrun := completed_burst
  rw [← sessionRelayBuf_eq 3 ⟨List.replicate 4096 0, List.length_replicate⟩] at hrun
  obtain ⟨-, -, hreturns⟩ := sessionRelay_copies burstPorts 3 _ hrun
  have hcopied := (hreturns 0 rfl).1
  exact ⟨(hcopied .terminal (by decide)).trans (by decide),
    (hcopied .transcript (by decide)).trans (by decide)⟩

end Shakti
