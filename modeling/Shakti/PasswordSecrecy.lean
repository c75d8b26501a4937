import Mathlib.Data.List.Forall2
import Shakti.Lib.Twins
import Shakti.TerminalRun

/-!
# Shakti.PasswordSecrecy

Nothing of a password but its length gets out of the program.

Two runs are compared that are given the same answers, but for the keys typed at a password prompt:
one key may be another, as long as neither ends the line or the string. An observer sees every call
of both, and cannot look into the password that a backend is handed (`LooksAlike`).

* `blind_shkRun` — to such an observer `shk_run` is alike to itself.
* `shkRun_hidesPassword` — the two runs make calls that look alike from beginning to end, and end
  alike: with the same exit status, the same program executed, or waiting on the same call.
-/

namespace Shakti

open Effects Effects.Prog

/-! ### The observer -/

/-- A key of a password: it ends neither the line nor the string. -/
def Ordinary (c : UInt8) : Prop := c ≠ 10 ∧ c ≠ 0

instance (c : UInt8) : Decidable (Ordinary c) := inferInstanceAs (Decidable (_ ∧ _))

/-- One byte for another, both of a password. -/
def KeyAlike (c d : UInt8) : Prop := c = d ∨ (Ordinary c ∧ Ordinary d)

/-- What an observer remembers: where a password may go, and whether stdin is a file that the
program has opened itself. -/
structure Conduit where
  /-- The write end of the pipe to `su`. -/
  pipe : Option Int
  taken : Bool

/-- The calls are the same, or hand passwords of the same length to the same backend. -/
inductive LooksAlike (w : Conduit) : SysCall → SysCall → Prop
  | same (c : SysCall) : LooksAlike w c c
  | checked {username p p' : CStr} : p.length = p'.length →
      LooksAlike w (.pamUnixAuthenticate username p) (.pamUnixAuthenticate username p')
  | piped {fd : Int} {d d' : Bytes} : w.pipe = some fd → d.length = d'.length →
      LooksAlike w (.write fd d) (.write fd d')

/-- The answers are the same, or typed keys. The verdict on a password is not kept secret. -/
inductive AnsweredAlike (w : Conduit) : Event sysSig → Event sysSig → Prop
  /-- The ends of a pipe are two descriptors. -/
  | same {e : Event sysSig} : (∀ fds, e = ⟨.pipe, some fds⟩ → fds.1 ≠ fds.2) → AnsweredAlike w e e
  | typed {r r' : Option Bytes} : w.taken = false →
      List.Forall₂ KeyAlike (r.getD []) (r'.getD []) →
      AnsweredAlike w ⟨.read 0 1, r⟩ ⟨.read 0 1, r'⟩
  | checked {username p p' : CStr} {r : PamResult} :
      AnsweredAlike w ⟨.pamUnixAuthenticate username p, r⟩ ⟨.pamUnixAuthenticate username p', r⟩
  | piped {fd r : Int} {d d' : Bytes} :
      AnsweredAlike w ⟨.write fd d, r⟩ ⟨.write fd d', r⟩

/-- What is remembered after a call. -/
def Conduit.next (w : Conduit) : Event sysSig → Conduit
  | ⟨.pipe, some fds⟩ => { w with pipe := some fds.2 }
  | ⟨.close fd, _⟩ => if w.pipe = some fd then { w with pipe := none } else w
  | ⟨.open _ _ _, r⟩ => { w with taken := w.taken || decide (r = 0) }
  | _ => w

/-- The observer of passwords. -/
def observer : View sysSig Conduit where
  call := LooksAlike
  answer := AnsweredAlike
  next := Conduit.next

/-- The calls that may be answered with a key. -/
@[simp] def Typed : SysCall → Prop
  | .read fd count => fd = 0 ∧ count = 1
  | _ => False

/-- No run of the program asks for a single byte of stdin. -/
abbrev Unread {α : Type} (p : Sys α) : Prop := Avoids Typed p

theorem answer_eq {w : Conduit} {c : SysCall} {r r' : c.Answer} (hc : w.taken = false → ¬ Typed c)
    (h : AnsweredAlike w ⟨c, r⟩ ⟨c, r'⟩) : r = r' := by
  cases h with
  | same => rfl
  | typed htaken => exact absurd ⟨rfl, rfl⟩ (hc htaken)
  | checked => rfl
  | piped => rfl

variable {α : Type} {w : Conduit}

theorem Unread.blind {p : Sys α} (hp : Unread p) : Blind observer p :=
  blind_of_avoids hp (fun _ c => .same c) fun _ _ _ _ hc h => answer_eq (fun _ => hc) h

/-- What leaves the process alone reads no key. -/
@[simp] theorem Idle.unread {p : Sys α} (hp : Idle p) : Unread p :=
  hp.mono fun c hc => by cases c <;> simp_all

@[simp] theorem Filing.unread {p : Sys α} (hp : Filing p) : Unread p :=
  hp.mono fun c hc => by cases c <;> simp_all

@[simp] theorem Dropping.unread {p : Sys α} (hp : Dropping p) : Unread p :=
  hp.mono fun c hc => by cases c <;> simp_all

@[simp] theorem Writing.unread {p : Sys α} (hp : Writing p) : Unread p := hp.filing.unread

@[simp] theorem Telling.unread {p : Sys α} (hp : Telling p) : Unread p := hp.idle.unread

@[simp] theorem Asking.unread {p : Sys α} (hp : Asking p) : Unread p := hp.telling.unread

@[simp] theorem Looking.unread {p : Sys α} (hp : Looking p) : Unread p := hp.asking.unread

theorem Telling.blind {p : Sys α} (hp : Telling p) : Blind observer p := hp.unread.blind

/-- Once stdin is a file of the program, no key is typed. -/
theorem alike_of_taken (hw : w.taken = true) (p : Sys α) : Alike observer Eq w p p := by
  refine alike_self (I := fun w => w.taken = true) p hw (fun _ c => .same c)
    (fun w c r r' hw h => answer_eq (fun hno => absurd (hw.symm.trans hno) (by decide)) h) ?_
  intro w e hw
  show (w.next e).taken = true
  unfold Conduit.next
  split
  · exact hw
  · split
    · exact hw
    · exact hw
  · simp [hw]
  · exact hw

/-! ### Passwords in a buffer -/

/-- The buffers differ in the keys of a password. -/
abbrev BytesAlike : Bytes → Bytes → Prop := List.Forall₂ KeyAlike

instance : Std.Refl KeyAlike := ⟨fun _ => Or.inl rfl⟩

theorem BytesAlike.refl (bs : Bytes) : BytesAlike bs bs := List.forall₂_refl bs

/-- A byte that ends a line or a string is the same in both. -/
theorem KeyAlike.eq_iff {c d : UInt8} (h : KeyAlike c d) {e : UInt8} (he : e = 10 ∨ e = 0) :
    c = e ↔ d = e := by
  rcases h with rfl | ⟨hc, hd⟩
  · exact Iff.rfl
  · rcases he with rfl | rfl
    · exact iff_of_false hc.1 hd.1
    · exact iff_of_false hc.2 hd.2

theorem BytesAlike.store {buf buf' bs bs' : Bytes} (hbuf : BytesAlike buf buf')
    (hbs : BytesAlike bs bs') (off : Nat) :
    BytesAlike (store buf off bs) (store buf' off bs') := by
  unfold Shakti.store
  rw [hbs.length_eq]
  exact List.rel_append (List.rel_append (List.forall₂_take off hbuf) hbs)
    (List.forall₂_drop _ hbuf)

/-- A prefix up to a byte that ends a line or a string is as long in both. -/
theorem BytesAlike.takeWhile {stop : UInt8 → Bool} (hstop : ∀ c, stop c = false → c = 10 ∨ c = 0)
    {bs bs' : Bytes} (h : BytesAlike bs bs') :
    BytesAlike (bs.takeWhile stop) (bs'.takeWhile stop) := by
  induction h with
  | nil => exact .nil
  | @cons c d cs ds hcd _ ih =>
      have hsame : stop c = stop d := by
        cases hc : stop c with
        | false => rw [(hcd.eq_iff (hstop c hc)).mp rfl, hc]
        | true =>
            cases hd : stop d with
            | false =>
                rw [(hcd.eq_iff (hstop d hd)).mpr rfl, hd] at hc
                exact hc.symm
            | true => rfl
      rw [List.takeWhile_cons, List.takeWhile_cons, hsame]
      split
      · exact .cons hcd ih
      · exact .nil

theorem BytesAlike.passwordIn {buf buf' : Bytes} (h : BytesAlike buf buf') (limit : Nat) :
    (passwordIn buf limit).length = (passwordIn buf' limit).length := by
  refine (BytesAlike.takeWhile (fun c hc => ?_) (List.forall₂_take limit h)).length_eq
  by_contra hno
  simp [not_or.mp hno] at hc

theorem BytesAlike.read {buf buf' : Bytes} (h : BytesAlike buf buf') :
    (CStr.read buf).length = (CStr.read buf').length :=
  (BytesAlike.takeWhile (fun c hc => Or.inr (by simpa using hc)) h).length_eq

/-! ### The prompt -/

theorem alike_fileRead : Alike observer BytesAlike w (fileRead 0 1) (fileRead 0 1) := by
  refine .ask_bind (.same _) fun r r' h => .pure (List.forall₂_take 1 ?_)
  cases h with
  | same => exact BytesAlike.refl _
  | typed _ h => exact h

theorem alike_readPasswordLoop {buf buf' : Bytes} (h : BytesAlike buf buf') (left pos : Nat) :
    Alike observer BytesAlike w (readPasswordLoop left pos buf)
      (readPasswordLoop left pos buf') := by
  induction left generalizing w pos buf buf' with
  | zero => exact .pure h
  | succ left ih =>
      refine alike_fileRead.bind fun w got got' hgot => ?_
      cases hgot with
      | nil => exact .pure h
      | @cons c c' _ _ hc _ =>
          have hstore := h.store (List.Forall₂.cons hc .nil) pos
          dsimp only
          by_cases hend : c = 10
          · rw [if_pos hend, if_pos ((hc.eq_iff (Or.inl rfl)).mp hend)]
            exact .pure hstore
          · rw [if_neg hend, if_neg fun h => hend ((hc.eq_iff (Or.inl rfl)).mpr h)]
            exact ih hstore _

theorem alike_readPasswordInto (buf : Bytes) (cap : Nat) :
    Alike observer BytesAlike w (readPasswordInto buf cap) (readPasswordInto buf cap) := by
  -- What both parts end with: the newline on the terminal, and the string in the buffer.
  have hend (w : Conduit) (bs bs' : Bytes) (h : BytesAlike bs bs') :
      Alike observer BytesAlike w
        (fileWrite 2 (utf8 "\n") >>= fun _ =>
          Pure.pure (store bs (passwordIn bs (cap - 1)).length [0]))
        (fileWrite 2 (utf8 "\n") >>= fun _ =>
          Pure.pure (store bs' (passwordIn bs' (cap - 1)).length [0])) := by
    refine ((Telling.blind (by simp)).alike w).bind fun w _ _ _ => .pure ?_
    rw [h.passwordIn]
    exact h.store (BytesAlike.refl _) _
  refine ((Unread.blind (by simp)).alike w).bind fun w termios termios' ht => ?_
  subst ht
  cases termios with
  | none => exact (alike_readPasswordLoop (BytesAlike.refl buf) _ _).bind hend
  | some orig =>
      refine ((Unread.blind (by simp)).alike w).bind fun w _ _ _ => ?_
      refine (alike_readPasswordLoop (BytesAlike.refl buf) _ _).bind fun w bs bs' h => ?_
      exact ((Unread.blind (by simp)).alike w).bind fun w _ _ _ => hend w bs bs' h

/-! ### The backends -/

theorem unread_suChild (rfd wfd : Int) (username : CStr) : Unread (suChild rfd wfd username) := by
  simp [suChild, suChild.suExec, sysExit]

theorem blind_write (fd : Int) (data : Bytes) : Blind observer (fileWrite fd data) :=
  Telling.blind (by simp)

/-- The password goes into the pipe, and into nothing else. -/
theorem alike_suParent {rfd wfd pid : Int} {p p' : CStr} (hpipe : w.pipe = some wfd)
    (hends : rfd ≠ wfd) (hlength : p.length = p'.length) :
    Alike observer Eq w (suParent rfd wfd pid p) (suParent rfd wfd pid p') := by
  refine .ask_bind (.same _) fun r r' _ => ?_
  have hkept : (observer.next w ⟨.close rfd, r⟩).pipe = some wfd := by
    show (if w.pipe = some rfd then { w with pipe := none } else w).pipe = some wfd
    rw [if_neg (by rw [hpipe, Option.some.injEq]; exact hends.symm), hpipe]
  have hwrite : Alike observer Eq (observer.next w ⟨.close rfd, r⟩)
      (if 0 < p.length then fileWrite wfd p.bytes else Pure.pure ())
      (if 0 < p'.length then fileWrite wfd p'.bytes else Pure.pure ()) := by
    rw [← hlength]
    refine .ite (fun _ => ?_) fun _ => .pure rfl
    exact .ask_bind (.piped hkept hlength) fun _ _ _ => .pure rfl
  refine hwrite.bind fun w _ _ _ => ?_
  exact (Unread.blind (by simp)).alike w

theorem alike_suAuthenticate (username : CStr) {p p' : CStr} (hlength : p.length = p'.length) :
    Alike observer Eq w (suAuthenticate username p) (suAuthenticate username p') := by
  refine ((Unread.blind (by simp)).alike w).bind fun w pfd pfd' h => ?_
  subst h
  refine .ite (fun _ => .pure rfl) fun _ => ?_
  refine .ask_bind (.same _) fun fds fds' h => ?_
  cases h with
  | same hends =>
      cases fds with
      | none => exact .pure rfl
      | some fds =>
          obtain ⟨rfd, wfd⟩ := fds
          refine .ask_bind (.same _) fun pid pid' h => ?_
          obtain rfl := answer_eq (by simp) h
          refine .ite (fun _ => (Unread.blind (by simp)).alike _) fun _ => ?_
          refine .ite (fun _ => (Unread.blind (unread_suChild ..)).alike _) fun _ => ?_
          exact alike_suParent rfl (hends _ rfl) hlength

theorem alike_authenticate (username : CStr) {p p' : CStr} (hlength : p.length = p'.length) :
    Alike observer Eq w (authenticate username p) (authenticate username p') := by
  have hpam : Alike observer Eq w (pamAuthenticate username p) (pamAuthenticate username p') := by
    refine .ask_bind (.checked hlength) fun r r' h => ?_
    cases h with
    | same => exact (Unread.blind (by cases r <;> simp)).alike _
    | checked => exact (Unread.blind (by cases r <;> simp)).alike _
  refine hpam.bind fun w pam pam' h => ?_
  subst h
  cases pam with
  | none => exact alike_suAuthenticate username hlength
  | some ok => cases ok <;> exact .pure rfl

theorem blind_promptLoop (username : CStr) (left attempt : Nat) :
    Blind observer (promptLoop username left attempt) := by
  induction left generalizing attempt with
  | zero => exact blind_pure false
  | succ left ih =>
      refine .bind (blind_write ..) fun _ => .bind (blind_write ..) fun _ => ?_
      refine .bind (blind_write ..) fun _ => ⟨fun w => ?_⟩
      refine (alike_readPasswordInto _ _).bind fun w buf buf' hbuf => ?_
      dsimp only
      rw [hbuf.read]
      refine .ite (fun _ => ?_) fun _ => ?_
      · exact (blind_ite (fun _ => .bind (blind_write ..) fun _ => ih _) fun _ =>
          blind_pure _).alike w
      · refine (alike_authenticate username hbuf.read).bind fun w r r' h => ?_
        subst h
        refine .ite (fun _ => .pure rfl) fun _ => ?_
        exact (Blind.bind (blind_ite (fun _ => blind_write ..) fun _ => blind_pure _)
          fun _ => ih _).alike w

/-! ### The other parts -/

theorem unread_openLogs (dir caller target resolved : CStr) (doLog logInput usePty : Bool) :
    Unread (openLogs dir caller target resolved doLog logInput usePty) := by
  simp [openLogs]

theorem unread_dropAndExec (site : ExecSite) (nss : NssState) (req : ExecRequest) :
    Unread (dropAndExec site nss req) := by
  simp [dropAndExec, applyLsmOrDie]

theorem unread_execTarget (nss : NssState) (req : ExecRequest) : Unread (execTarget nss req) := by
  simp [execTarget, sysExit, unread_dropAndExec]

theorem unread_ptyChild (slave : Int) (nss : NssState) (req : ExecRequest) :
    Unread (ptyChild slave nss req) := by
  simp [ptyChild, sysExit, unread_dropAndExec]

theorem unread_sessionRelayLoop (master logfd inlogfd winchFd : Int) (fuel : Nat)
    (stdinOpen : Bool) :
    Unread (sessionRelayLoop master logfd inlogfd winchFd fuel stdinOpen) := by
  apply avoids_sessionRelayLoop <;> simp

theorem unread_ptyParent (fuel : Nat) (slave master pid logfd inlogfd start : Int) :
    Unread (ptyParent fuel slave master pid logfd inlogfd start) := by
  refine .bind (by simp) fun _ => .bind (by simp [saveTermios]) fun orig => ?_
  refine .bind (by cases orig <;> simp [enterRawMode]) fun _ => ?_
  refine .bind (by simp [sessionRelay, sessionSigwinchFd, unread_sessionRelayLoop]) fun _ => ?_
  refine .bind (by simp) fun stbuf => .bind (by simp) fun st => ?_
  refine .bind (by cases orig <;> simp [restoreTermios]) fun _ => ?_
  simp [closeLog]

theorem unread_sessionOpenSlave (master : Int) : Unread (sessionOpenSlave master) := by
  apply avoids_sessionOpenSlave <;> simp

theorem unread_execTargetPty (fuel : Nat) (nss : NssState) (req : ExecRequest)
    (logfd inlogfd : Int) (caller : CStr) :
    Unread (execTargetPty fuel nss req logfd inlogfd caller) := by
  simp [execTargetPty, sessionOpenpt, unread_sessionOpenSlave, unread_ptyChild, unread_ptyParent]

theorem unread_shkReadEnvironLoop {fd : Int} (hfd : fd ≠ 0) (fuel cap : Nat) (buf : Bytes) :
    Unread (shkReadEnvironLoop fd fuel cap buf) :=
  avoids_shkReadEnvironLoop (by simp) (by simp) (by simp [hfd]) fuel cap buf

/-- If the environment is opened as stdin, what is read of it is not typed. -/
theorem blind_shkReadEnviron (fuel : Nat) : Blind observer (shkReadEnviron fuel) := by
  refine ⟨fun w => .ask_bind (.same _) fun fd fd' h => ?_⟩
  obtain rfl := answer_eq (by simp) h
  by_cases hfd : fd = 0
  · refine alike_of_taken ?_ _
    show (w.taken || decide (fd = 0)) = true
    simp [hfd]
  · exact (Unread.blind (by simp [unread_shkReadEnvironLoop hfd])).alike _

/-! ### The run -/

theorem blind_evaluateAllowed (fuel : Nat) (config : Config) (defaults : Defaults) (caller : CStr)
    (callerUid callerGid : Nat) (authz : AuthzResult) (e : Evaluation) :
    Blind observer
      (evaluateAllowed fuel config defaults caller callerUid callerGid authz e) := by
  refine .bind (Unread.blind (by simp)) fun tsValid => blind_ite (fun _ => blind_pure _) fun _ => ?_
  refine .bind (Unread.blind (by simp)) fun home => .bind (Unread.blind (by simp)) fun shell => ?_
  refine .bind
    (.bind (.bind (blind_shkReadEnviron fuel) fun _ => blind_pure _) fun _ => ?_) fun _ => ?_
  · exact blind_pure _
  · exact blind_pure _

theorem blind_evaluateWithPolicy (fuel : Nat) (config : Config) (policy : Policy) (caller : CStr)
    (callerUid callerGid : Nat) (groups : Option (List CStr)) (argv : List CStr) :
    Blind observer
      (evaluateWithPolicy fuel config policy caller callerUid callerGid groups argv) := by
  unfold evaluateWithPolicy
  split
  · split
    · refine .bind (Unread.blind (by simp)) fun r => ?_
      obtain ⟨rl, pathBuf⟩ := r
      cases rl with
      | error code => exact blind_pure _
      | ok n =>
          refine blind_ite (fun _ => blind_pure _) fun _ => ?_
          exact .bind (blind_evaluateAllowed ..) fun _ => blind_pure _
    · exact blind_pure _
  · exact blind_pure _

theorem blind_runAuth (caller target resolved : CStr) (eval : Evaluation) :
    Blind observer (runAuth caller target resolved eval) := by
  refine blind_ite (fun _ => ?_) fun _ => blind_pure _
  refine .bind (Unread.blind (by simp [maskAuthSignals])) fun saved => ?_
  refine .bind (blind_promptLoop ..) fun ok => ?_
  refine .bind (Unread.blind (by simp [restoreSignals])) fun _ => ?_
  exact blind_ite (fun _ => Telling.blind (by simp)) fun _ =>
    Unread.blind (by simp)

theorem blind_runAuthorized (fuel : Nat) (nss : NssState) (policy : Policy) (caller : CStr)
    (callerUid : Nat) (target : CStr) (eval : Evaluation) (argv : List CStr) :
    Blind observer (runAuthorized fuel nss policy caller callerUid target eval argv) := by
  unfold runAuthorized
  dsimp only
  cases capsParseSet eval.capabilities with
  | none => exact Telling.blind (by simp)
  | some capMask =>
      refine .bind (blind_runAuth ..) fun ok => blind_ite (fun _ => blind_pure _) fun _ => ?_
      refine .bind (Telling.blind (by simp)) fun user => ?_
      cases user with
      | notFound => exact Telling.blind (by simp)
      | ioError => exact Telling.blind (by simp)
      | found ids =>
          refine .bind (Unread.blind (unread_openLogs ..)) fun logs => ?_
          cases logs with
          | none => exact blind_pure _
          | some logs =>
              refine .bind (Telling.blind (by simp)) fun _ => blind_ite (fun _ => ?_) fun _ => ?_
              · exact Unread.blind (unread_execTargetPty ..)
              · exact .bind (Unread.blind (unread_execTarget ..)) fun _ => blind_pure _

theorem blind_runPolicy (fuel : Nat) (cli : CliArgs) (policy : Policy) (caller : CStr)
    (callerUid callerGid : Nat) :
    Blind observer (runPolicy fuel cli policy caller callerUid callerGid) := by
  refine blind_ite (fun _ => Telling.blind (by simp)) fun _ => ?_
  refine .bind (Telling.blind (by simp)) fun _ => .bind (Telling.blind (by simp)) fun _ => ?_
  refine .bind (Telling.blind (by simp)) fun _ => blind_ite (fun _ => Telling.blind (by simp)) ?_
  intro _
  refine .bind (blind_evaluateWithPolicy ..) fun _ => ?_
  exact blind_ite (fun _ => Telling.blind (by simp)) fun _ => blind_runAuthorized ..

theorem blind_runModes (fuel : Nat) (cli : CliArgs) (caller : CStr) (callerUid callerGid : Nat) :
    Blind observer (runModes fuel cli caller callerUid callerGid) := by
  refine blind_ite (fun _ => Unread.blind (idle_runInvalidate cli caller).unread) fun _ => ?_
  refine blind_ite (fun _ => Telling.blind (by simp)) fun _ => ?_
  refine .bind (Telling.blind (by simp)) fun policy => ?_
  cases policy with
  | none => exact Telling.blind (by simp)
  | some policy => exact blind_runPolicy ..

/-- An observer learns nothing of a password from `shk_run`. -/
theorem blind_shkRun (fuel : Nat) (args : List CStr) : Blind observer (shkRun fuel args) := by
  refine .bind (Telling.blind (by simp)) fun _ => .bind (Telling.blind (by simp)) fun cli => ?_
  cases cli with
  | none => exact Telling.blind (by simp)
  | some cli =>
      refine blind_ite (fun _ => Telling.blind (by simp)) fun _ => ?_
      refine blind_ite (fun _ => Telling.blind (by simp)) fun _ => ?_
      refine .bind (Telling.blind (by simp)) fun _ => .bind (Telling.blind (by simp)) fun _ => ?_
      refine .bind (Telling.blind (by simp)) fun user => ?_
      cases user with
      | found ids => exact blind_runModes ..
      | notFound => exact Telling.blind (by simp)
      | ioError => exact Telling.blind (by simp)

/-- **Nothing of a password but its length gets out.** Two runs of `shk_run` on the same command
line, of which the answers are the same but for the keys typed at a prompt, make the same calls,
but for the password that is handed to a backend, which is as long in both; and they have come to
the same exit status, or to the same call. -/
theorem shkRun_hidesPassword {fuel : Nat} {args : List CStr} {tr tr' : Trace} {q q' : Sys Int}
    (hrun : Steps (shkRun fuel args) tr q) (hrun' : Steps (shkRun fuel args) tr' q')
    (hlength : tr.length = tr'.length) (hfed : Fed observer ⟨none, false⟩ tr tr') :
    Twins observer ⟨none, false⟩ tr tr' ∧
    ((∃ code, q = .pure code ∧ q' = .pure code) ∨
      ∃ c c' k k', q = .call c k ∧ q' = .call c' k' ∧
        LooksAlike (tr.foldl Conduit.next ⟨none, false⟩) c c') := by
  obtain ⟨htwins, hrest⟩ :=
    ((blind_shkRun fuel args).alike ⟨none, false⟩).twins hrun hrun' hlength hfed
  refine ⟨htwins, ?_⟩
  rcases hrest.outcome with ⟨code, code', hq, hq', hcode⟩ | hcalls
  · exact Or.inl ⟨code, hq, hcode ▸ hq'⟩
  · exact Or.inr hcalls

/-- A machine at whose keyboard these keys are typed. -/
def FileView.typing (v : FileView) :
    Process × Bytes → (c : SysCall) → Option (c.Answer × (Process × Bytes))
  | (s, keys), .read fd count =>
      if fd = 0 ∧ count = 1 then some (some (keys.take 1), (s, keys.drop 1)) else none
  | s, .pamUnixAuthenticate _ _ => some (.authOk, s)
  | _, .pipe => none
  | (s, keys), c => (v.grants s c).map fun r => (r.1, (r.2, keys))

/-- The keyboards differ in the keys of passwords. -/
structure SameBut (w : Conduit) (t t' : Process × Bytes) : Prop where
  conduit : w = ⟨none, false⟩
  process : t.1 = t'.1
  keys : BytesAlike t.2 t'.2

/-- The calls after which a password may go elsewhere. -/
def Routes : SysCall → Prop
  | .pipe | .close _ | .open _ _ _ => True
  | _ => False

theorem next_of_not_routes {c : SysCall} {r : c.Answer} (hc : ¬ Routes c) :
    w.next ⟨c, r⟩ = w := by
  cases c with
  | pipe | close | «open» => exact absurd trivial hc
  | _ => rfl

/-- Keys that look alike are answers that look alike. -/
theorem typing_alike (v : FileView) (w : Conduit) (t t' : Process × Bytes) (c c' : SysCall)
    (ht : SameBut w t t') (hc : LooksAlike w c c') :
    (v.typing t c = none ∧ v.typing t' c' = none) ∨
    ∃ r r' u u', v.typing t c = some (r, u) ∧ v.typing t' c' = some (r', u') ∧
      AnsweredAlike w ⟨c, r⟩ ⟨c', r'⟩ ∧ SameBut (w.next ⟨c, r⟩) u u' := by
  obtain ⟨s, keys⟩ := t
  obtain ⟨s', keys'⟩ := t'
  obtain ⟨rfl, rfl, hkeys⟩ := ht
  cases hc with
  | checked => exact Or.inr ⟨_, _, _, _, rfl, rfl, .checked, rfl, rfl, hkeys⟩
  | piped hpipe => cases hpipe
  | same =>
      cases c with
      | read fd count =>
          simp only [FileView.typing]
          by_cases htyped : fd = 0 ∧ count = 1
          · obtain ⟨rfl, rfl⟩ := htyped
            exact Or.inr ⟨_, _, _, _, rfl, rfl, .typed rfl (List.forall₂_take 1 hkeys), rfl, rfl,
              List.forall₂_drop 1 hkeys⟩
          · rw [if_neg htyped, if_neg htyped]
            exact Or.inl ⟨rfl, rfl⟩
      | pipe | close => exact Or.inl ⟨rfl, rfl⟩
      | «open» | pamUnixAuthenticate =>
          exact Or.inr ⟨_, _, _, _, rfl, rfl, .same (by simp), rfl, rfl, hkeys⟩
      | _ =>
          simp only [FileView.typing]
          cases v.grants s _ with
          | none => exact Or.inl ⟨rfl, rfl⟩
          | some r =>
              exact Or.inr
                ⟨_, _, _, _, rfl, rfl, .same (by simp), next_of_not_routes id, rfl, hkeys⟩

/-- Who has typed `ab` for a password does what they do who have typed `xy`. -/
theorem shkRun_hidesPassword_id :
    ∃ tr tr' : Trace,
      SysCall.pamUnixAuthenticate (cstr "al") (cstr "ab") ∈ tr.map Event.call ∧
      SysCall.pamUnixAuthenticate (cstr "al") (cstr "xy") ∈ tr'.map Event.call ∧
      Twins observer ⟨none, false⟩ tr tr' := by
  have hstart : SameBut ⟨none, false⟩ (setuidProcess 1000, utf8 "ab\n")
      (setuidProcess 1000, utf8 "xy\n") :=
    ⟨rfl, rfl, .cons (Or.inr (by decide)) (.cons (Or.inr (by decide)) (BytesAlike.refl _))⟩
  obtain ⟨hlength, hfed⟩ := ((blind_shkRun 1 [cstr "shakti", cstr "/bin/id"]).alike
    ⟨none, false⟩).play (typing_alike authMachine) hstart
  refine ⟨_, _, ?_, ?_, (shkRun_hidesPassword (play_steps _ _ _) (play_steps _ _ _) hlength hfed).1⟩
  · decide
  · decide

end Shakti
