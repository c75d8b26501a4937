import Shakti.Process
import Shakti.TimestampConfinement

/-!
# Shakti.Terminal

Planning a run leaves the process as it was found, apart from the session logs it opens; and
while it asks for a password it does so on a silent terminal, with the signals of the keyboard
blocked.

* `Guarded` — what holds of the process at each of its calls.
* `Leaves` — a program that leaves the process as it finds it, and makes guarded calls only.
-/

namespace Shakti

open Effects Effects.World

/-! ### Terminal modes -/

theorem length_store_eq {buf bs : Bytes} {off : Nat} (h : off + bs.length ≤ buf.length) :
    (store buf off bs).length = buf.length := by
  simp only [store, List.length_append, List.length_take, List.length_drop]
  omega

theorem getD_store {buf bs : Bytes} {off i : Nat} (h : off + bs.length ≤ buf.length) :
    (store buf off bs).getD i 0 =
      if off ≤ i ∧ i < off + bs.length then bs.getD (i - off) 0 else buf.getD i 0 := by
  have htake : (buf.take off).length = off := List.length_take_of_le (by omega)
  unfold store
  by_cases hlow : i < off
  · rw [if_neg (by omega), List.append_assoc, List.getD_append _ _ _ _ (by omega),
      List.getD_eq_getElem?_getD, List.getElem?_take_of_lt hlow, ← List.getD_eq_getElem?_getD]
  · rw [List.append_assoc, List.getD_append_right _ _ _ _ (by omega), htake]
    by_cases hmid : i - off < bs.length
    · rw [if_pos (by omega), List.getD_append _ _ _ _ hmid]
    · rw [if_neg (by omega), List.getD_append_right _ _ _ _ (by omega),
        List.getD_eq_getElem?_getD, List.getElem?_drop, ← List.getD_eq_getElem?_getD]
      congr 1
      omega

theorem length_store32 {buf : Bytes} {off v : Nat} (h : off + 4 ≤ buf.length) :
    (store32 buf off v).length = buf.length :=
  length_store_eq h

theorem getD_store32 {buf : Bytes} {off v i : Nat} (h : off + 4 ≤ buf.length) (hi : i < 4) :
    (store32 buf off v).getD (off + i) 0 = (v >>> (8 * i)).toUInt8 := by
  refine (getD_store h).trans ?_
  simp only [List.length_cons, List.length_nil]
  rw [if_pos (by omega), Nat.add_sub_cancel_left]
  match i, hi with
  | 0, _ | 1, _ | 2, _ | 3, _ => rfl

/-- A word is the sum of its bytes. -/
theorem word_of_bytes {v : Nat} (hv : v < 4294967296) :
    (v >>> (8 * 0)).toUInt8.toNat + (v >>> (8 * 1)).toUInt8.toNat <<< 8
      + (v >>> (8 * 2)).toUInt8.toNat <<< 16 + (v >>> (8 * 3)).toUInt8.toNat <<< 24 = v := by
  simp only [Nat.toUInt8, UInt8.toNat_ofNat', Nat.shiftRight_eq_div_pow, Nat.shiftLeft_eq]
  omega

theorem load32_eq {buf : Bytes} {off : Nat} {b0 b1 b2 b3 : UInt8} (h0 : buf.getD off 0 = b0)
    (h1 : buf.getD (off + 1) 0 = b1) (h2 : buf.getD (off + 2) 0 = b2)
    (h3 : buf.getD (off + 3) 0 = b3) :
    load32 buf off = b0.toNat + b1.toNat <<< 8 + b2.toNat <<< 16 + b3.toNat <<< 24 := by
  subst h0 h1 h2 h3
  exact rfl

theorem load32_store32 {buf : Bytes} {off v : Nat} (h : off + 4 ≤ buf.length)
    (hv : v < 4294967296) : load32 (store32 buf off v) off = v :=
  (load32_eq (getD_store32 h (Nat.zero_lt_succ 3)) (getD_store32 h (by omega))
    (getD_store32 h (by omega)) (getD_store32 h (by omega))).trans (word_of_bytes hv)

/-- A store elsewhere is not seen. -/
theorem load32_store {buf bs : Bytes} {off pos : Nat} (h : pos + bs.length ≤ buf.length)
    (hapart : pos + bs.length ≤ off ∨ off + 4 ≤ pos) :
    load32 (store buf pos bs) off = load32 buf off := by
  have hbyte : ∀ i, off ≤ i → i < off + 4 → (store buf pos bs).getD i 0 = buf.getD i 0 := by
    intro i hlow hhigh
    rw [getD_store h, if_neg (by omega)]
  exact load32_eq (hbyte _ (by omega) (by omega)) (hbyte _ (by omega) (by omega))
    (hbyte _ (by omega) (by omega)) (hbyte _ (by omega) (by omega))

theorem load32_store32_apart {buf : Bytes} {off pos v : Nat} (h : pos + 4 ≤ buf.length)
    (hapart : pos + 4 ≤ off ∨ off + 4 ≤ pos) :
    load32 (store32 buf pos v) off = load32 buf off :=
  load32_store h hapart

theorem clearBits_lt (x mask : Nat) : clearBits x mask < 4294967296 :=
  Nat.lt_succ_of_le (Nat.and_le_right.trans (Nat.sub_le _ _))

/-- Cleared bits are clear. -/
theorem clearBits_and {x mask bits : Nat} (h : (4294967295 - mask) &&& bits = 0) :
    clearBits x mask &&& bits = 0 := by
  rw [clearBits, Nat.and_assoc, h, Nat.and_zero]

/-- The modes in which a password is read. -/
theorem not_echoes_silenced {orig : Bytes} (h : orig.length = termiosSize) :
    ¬ (Termios.of (store32 orig 12 (clearBits (load32 orig 12) echoFlag))).Echoes := by
  have hlen : 12 + 4 ≤ orig.length := by
    rw [h]
    decide
  have hbytes := Termios.of_bytes ((length_store32 (v := clearBits (load32 orig 12) echoFlag)
    hlen).trans h)
  rw [Termios.Echoes, Termios.lflag, hbytes, load32_store32 hlen (clearBits_lt ..), not_not]
  exact clearBits_and (by decide)

/-- The modes in which a terminal is relayed. -/
theorem not_signals_raw {orig : Bytes} (h : orig.length = termiosSize) :
    (sessionTermiosMakeRaw orig).length = termiosSize ∧
      ¬ (Termios.of (sessionTermiosMakeRaw orig)).Signals := by
  have h64 : orig.length = 64 := h
  let t0 := store32 orig 0 (clearBits (load32 orig 0) 1515)
  have l0 : t0.length = 64 := (length_store32 (by omega)).trans h64
  let t1 := store32 t0 4 (clearBits (load32 t0 4) 1)
  have l1 : t1.length = 64 := (length_store32 (by omega)).trans l0
  let t2 := store32 t1 12 (clearBits (load32 t1 12) 32843)
  have l2 : t2.length = 64 := (length_store32 (by omega)).trans l1
  let t3 := store32 t2 8 (clearBits (load32 t2 8) 48 ||| 48)
  have l3 : t3.length = 64 := (length_store32 (by omega)).trans l2
  let t4 := store t3 23 [1]
  have l4 : t4.length = 64 := (length_store_eq (by rw [l3]; decide)).trans l3
  have l5 : (store t4 22 [0]).length = 64 := (length_store_eq (by rw [l4]; decide)).trans l4
  have hflags : load32 (store t4 22 [0]) 12 = clearBits (load32 t1 12) 32843 := by
    rw [load32_store (by rw [l4]; decide) (by decide),
      load32_store (by rw [l3]; decide) (by decide)]
    refine (load32_store32_apart (by omega) (by omega)).trans ?_
    exact load32_store32 (by omega) (clearBits_lt ..)
  refine ⟨l5, ?_⟩
  show ¬ load32 (Termios.of (store t4 22 [0])).bytes 12 &&& 1 ≠ 0
  rw [Termios.of_bytes l5, hflags, not_not]
  exact clearBits_and (by decide)

/-- SIGINT, SIGQUIT and SIGTSTP are blocked. -/
def Process.Shielded (s : Process) : Prop := s.mask &&& buildAuthSigmask = buildAuthSigmask

/-- The calls that have a password checked. -/
@[simp] def Confirms : SysCall → Prop
  | .pamUnixAuthenticate _ _ | .execve .suAuthenticate _ _ _ => True
  | _ => False

/-- The calls with which the program is over. -/
@[simp] def Leaving : SysCall → Prop
  | .exit _ | .execve _ _ _ _ => True
  | _ => False

/-- The terminal has the modes `tty`, or the keyboard cannot end the process. -/
def Process.Kept (tty : Option Termios) (m : Process) : Prop :=
  m.tty = tty ∨ m.Shielded ∨ ∃ modes, m.tty = some modes ∧ ¬ modes.Signals

/-- What holds at a call of a process that found the modes `tty` on its terminal. -/
structure Guarded (tty : Option Termios) (m : Process) (c : SysCall) : Prop where
  /-- Nothing the user types ends the process while the modes are others. -/
  kept : m.Kept tty
  /-- A single byte, as of a password, is read from a silent terminal. -/
  silent : c = .read 0 1 → m.OwnStdin → ∀ modes, m.tty = some modes → ¬ modes.Echoes
  shielded : Confirms c → m.Shielded
  restored : Leaving c → m.tty = tty

theorem guarded_of_not_touches {tty : Option Termios} {m : Process} {c : SysCall}
    (hkept : m.Kept tty) (hc : ¬ Touches c) : Guarded tty m c where
  kept := hkept
  silent := by
    intro h
    subst h
    exact absurd ⟨rfl, rfl⟩ hc
  shielded h := by cases c <;> simp_all
  restored h := by cases c <;> simp_all

/-- The program leaves the process as it finds it. -/
abbrev Leaves {α : Type} (tty : Option Termios) (s : Process) (p : Sys α) : Prop :=
  Safe processWorld (Guarded tty) (fun t _ => t = s) s p

variable {α : Type} {tty : Option Termios} {s : Process}

theorem Idle.leaves_kept {p : Sys α} (hp : Idle p) (hkept : s.Kept tty) : Leaves tty s p :=
  .frame still_processWorld hp (fun _ hc => guarded_of_not_touches hkept hc)
    fun _ _ _ hc hans => answers_of_not_touches hc hans

theorem Idle.leaves {p : Sys α} (hp : Idle p) (htty : s.tty = tty) : Leaves tty s p :=
  hp.leaves_kept (Or.inl htty)

theorem Leaves.bind {β : Type} {p : Sys α} {f : α → Sys β} {post : Process → β → Prop}
    (hp : Leaves tty s p) (hf : ∀ a, Safe processWorld (Guarded tty) post s (f a)) :
    Safe processWorld (Guarded tty) post s (p >>= f) := by
  refine Safe.bind hp fun t a ht => ?_
  subst ht
  exact hf a

/-! ### Files opened and closed -/

theorem Process.closed_opened {r : Int} {f : OpenFile} (hfree : s.fds r = none) :
    (s.opened r f).closed r = s := by
  have hfds : ((s.opened r f).closed r).fds = s.fds := by
    show Function.update (Function.update s.fds r (some f)) r none = s.fds
    rw [Function.update_idem, ← hfree, Function.update_eq_self]
  exact congrArg (fun fds => { s with fds := fds }) hfds

theorem Process.Opens.stays {path : CStr} {flags : Nat} {f : OpenFile} {s' : Process}
    (h : s.Opens path flags f s') (hpath : path ≠ cstr "/dev/ptmx") : s' = s := by
  cases h with
  | master => exact absurd rfl hpath
  | slave => rfl
  | other => rfl

/-- What is opened is not what the process was started with. -/
theorem Process.Opens.ne_inherited {path : CStr} {flags : Nat} {f : OpenFile} {s' : Process}
    (h : s.Opens path flags f s') (fd : Int) : f ≠ .inherited fd := by
  cases h <;> exact fun heq => by cases heq

/-- A call that leaves the modes alone and is none of those a guarantee is given for. -/
theorem safe_call {c : SysCall} {k : c.Answer → Sys α} {post : Process → α → Prop}
    (htty : s.tty = tty) (hread : c ≠ .read 0 1) (hconf : ¬ Confirms c) (hleaving : ¬ Leaving c)
    (hk : ∀ r s', s.Answers ⟨c, r⟩ s' → Safe processWorld (Guarded tty) post s' (k r)) :
    Safe processWorld (Guarded tty) post s (sys c >>= k) :=
  Safe.ask_bind still_processWorld
    ⟨Or.inl htty, fun h => absurd h hread, fun h => absurd h hconf, fun h => absurd h hleaving⟩ hk

/-- A file is opened. -/
theorem safe_open {path : CStr} {flags mode : Nat} {k : Int → Sys α}
    {post : Process → α → Prop} (hpath : path ≠ cstr "/dev/ptmx") (htty : s.tty = tty)
    (hfail : ∀ r < 0, Safe processWorld (Guarded tty) post s (k r))
    (hopen : ∀ r f, 0 ≤ r → s.fds r = none → (∀ fd, f ≠ .inherited fd) →
      Safe processWorld (Guarded tty) post (s.opened r f) (k r)) :
    Safe processWorld (Guarded tty) post s (sys (.open path flags mode) >>= k) := by
  refine safe_call htty (by simp) (by simp) (by simp) fun r s' hans => ?_
  rcases hans with ⟨hr, rfl⟩ | ⟨hr, hfree, f, mid, hopens, rfl⟩
  · exact hfail r hr
  · rw [hopens.stays hpath]
    exact hopen r f hr hfree hopens.ne_inherited

/-- A file that was opened is closed. -/
theorem safe_close {r : Int} {f : OpenFile} {k : Int → Sys α} {post : Process → α → Prop}
    (htty : s.tty = tty) (hfree : s.fds r = none)
    (hk : ∀ x, Safe processWorld (Guarded tty) post s (k x)) :
    Safe processWorld (Guarded tty) post (s.opened r f) (sys (.close r) >>= k) := by
  refine safe_call htty (by simp) (by simp) (by simp) fun x s' hans => ?_
  have hs' : s' = s := hans.trans (Process.closed_opened hfree)
  exact hs' ▸ hk x

theorem leaves_sysBlocked (htty : s.tty = tty) : Leaves tty s (sysBlocked : Sys α) :=
  safe_call htty (by simp) (by simp) (by simp) fun r => r.elim

/-- A read, of a password byte on a silent terminal or of something else. -/
theorem leaves_fileRead {fd : Int} {count : Nat} (hkept : s.tty = tty ∨ s.Shielded)
    (hsilent : fd = 0 → s.OwnStdin → ∀ modes, s.tty = some modes → ¬ modes.Echoes) :
    Leaves tty s (fileRead fd count) := by
  refine Safe.call still_processWorld
    ⟨hkept.imp_right Or.inl, fun h => ?_, by simp, by simp⟩ fun r s' hans => hans
  cases h
  exact hsilent rfl

/-! ### The caller's environment -/

theorem leaves_shkReadEnvironLoop {fd : Int} (hown : fd = 0 → ¬ s.OwnStdin) (htty : s.tty = tty)
    (fuel cap : Nat) (buf : Bytes) : Leaves tty s (shkReadEnvironLoop fd fuel cap buf) := by
  induction fuel generalizing cap buf with
  | zero => exact leaves_sysBlocked htty
  | succ fuel ih =>
      refine Leaves.bind (leaves_fileRead (Or.inl htty) fun h h' => absurd h' (hown h))
        fun got => ?_
      refine Safe.ite (fun _ => rfl) fun _ => Safe.ite (fun _ => ?_) fun _ => ih ..
      refine Leaves.bind (Idle.leaves (by simp) htty) fun grown => ?_
      exact Safe.ite (fun _ => rfl) fun _ => ih ..

theorem leaves_shkReadEnviron (htty : s.tty = tty) (fuel : Nat) :
    Leaves tty s (shkReadEnviron fuel) := by
  refine safe_open (by decide) htty (fun r hr => ?_) fun r f hr hfree hf => ?_
  · exact Safe.ite (fun _ => rfl) fun h => absurd hr h
  refine Safe.ite (fun h => by omega) fun _ => ?_
  have hown : r = 0 → ¬ (s.opened r f).OwnStdin := by
    rintro rfl h
    exact hf 0 (Process.ownStdin_opened_zero.mp h)
  refine Leaves.bind (Idle.leaves (by simp) htty) fun buf => Safe.ite (fun _ => ?_) fun _ => ?_
  · exact safe_close htty hfree fun _ => rfl
  · refine Leaves.bind (leaves_shkReadEnvironLoop hown htty ..) fun block => ?_
    exact safe_close htty hfree fun _ => rfl

/-! ### The evaluation -/

theorem leaves_evaluateAllowed (htty : s.tty = tty) (fuel : Nat) (config : Config)
    (defaults : Defaults) (caller : CStr) (callerUid callerGid : Nat) (authz : AuthzResult)
    (e : Evaluation) :
    Leaves tty s (evaluateAllowed fuel config defaults caller callerUid callerGid authz e) := by
  refine Leaves.bind (Idle.leaves (by simp) htty) fun tsValid => ?_
  refine Safe.ite (fun _ => rfl) fun _ => ?_
  refine Leaves.bind (Idle.leaves (by simp) htty) fun home => ?_
  refine Leaves.bind (Idle.leaves (by simp) htty) fun shell => ?_
  refine Leaves.bind ?_ fun env => rfl
  exact Leaves.bind (Leaves.bind (leaves_shkReadEnviron htty fuel) fun _ => rfl) fun _ => rfl

theorem leaves_evaluateWithPolicy (htty : s.tty = tty) (fuel : Nat) (config : Config)
    (policy : Policy) (caller : CStr) (callerUid callerGid : Nat) (groups : Option (List CStr))
    (argv : List CStr) :
    Leaves tty s
      (evaluateWithPolicy fuel config policy caller callerUid callerGid groups argv) := by
  unfold evaluateWithPolicy
  split
  · split
    · refine Leaves.bind (Idle.leaves (by simp) htty) fun r => ?_
      rcases r with ⟨_ | n, buf⟩
      · exact rfl
      · refine Safe.ite (fun _ => rfl) fun _ => ?_
        exact Leaves.bind (leaves_evaluateAllowed htty ..) fun e => rfl
    · exact rfl
  · exact rfl

/-! ### Asking for a password -/

theorem leaves_readPasswordLoop (hkept : s.tty = tty ∨ s.Shielded)
    (hsilent : s.OwnStdin → ∀ modes, s.tty = some modes → ¬ modes.Echoes) (left pos : Nat)
    (buf : Bytes) : Leaves tty s (readPasswordLoop left pos buf) := by
  induction left generalizing pos buf with
  | zero => exact rfl
  | succ left ih =>
      refine Leaves.bind (leaves_fileRead hkept fun _ => hsilent) fun got => ?_
      cases got with
      | nil => exact rfl
      | cons c got => exact Safe.ite (fun _ => rfl) fun _ => ih ..

/-- The modes are silenced, and put back. -/
theorem leaves_readPasswordInto (htty : s.tty = tty) (hmask : s.Shielded) (buf : Bytes)
    (cap : Nat) : Leaves tty s (readPasswordInto buf cap) := by
  refine safe_call htty (by simp) (by simp) (by simp) fun r s₁ hget => ?_
  obtain rfl : s₁ = s := hget.stays fun h => by cases h.2.1
  cases r with
  | none =>
      -- The process was started on no terminal.
      have hsilent : s₁.OwnStdin → ∀ modes, s₁.tty = some modes → ¬ modes.Echoes := by
        intro hown modes hmodes
        have hnone := hget.gets rfl rfl hown
        rw [hmodes] at hnone
        cases hnone
      refine Leaves.bind (leaves_readPasswordLoop (Or.inl htty) hsilent ..) fun buf => ?_
      exact Leaves.bind (Idle.leaves (by simp) htty) fun _ => rfl
  | some orig =>
      refine safe_call htty (by simp) (by simp) (by simp) fun x s₂ hset => ?_
      by_cases hown : s₁.OwnStdin
      · have hfound : s₁.tty = some (Termios.of orig) ∧ orig.length = termiosSize := by
          have hmodes := hget.gets rfl rfl hown
          cases htty' : s₁.tty with
          | none => simp [htty'] at hmodes
          | some modes =>
              obtain rfl : orig = modes.bytes := by simpa [htty'] using hmodes
              exact ⟨congrArg some (Termios.of_self modes).symm, modes.size⟩
        have hs₂ := hset.sets rfl rfl hown
        have hmask₂ : s₂.Shielded := by
          rw [hs₂]
          exact hmask
        refine Safe.bind (leaves_readPasswordLoop (Or.inr hmask₂) ?_ ..) fun s₃ buf hs₃ => ?_
        · intro _ modes hmodes
          rw [hs₂, hfound.1] at hmodes
          cases hmodes
          exact not_echoes_silenced hfound.2
        subst hs₃
        refine Safe.ask_bind still_processWorld
          ⟨Or.inr (Or.inl hmask₂), by simp, by simp, by simp⟩ fun x s₄ hback => ?_
        obtain rfl : s₄ = s₁ := by
          rw [hback.sets rfl rfl (hs₂ ▸ hown), hs₂]
          show { s₁ with tty := (s₁.tty.map _).map fun _ => Termios.of orig } = s₁
          rw [hfound.1]
          exact congrArg (fun tty => { s₁ with tty := tty }) hfound.1.symm
        exact Leaves.bind (Idle.leaves (by simp) htty) fun _ => rfl
      · obtain rfl := hset.stays fun h => hown h.2.2
        refine Leaves.bind
          (leaves_readPasswordLoop (Or.inl htty) (fun h => absurd h hown) ..) fun buf => ?_
        refine safe_call htty (by simp) (by simp) (by simp) fun x s₄ hback => ?_
        obtain rfl := hback.stays fun h => hown h.2.2
        exact Leaves.bind (Idle.leaves (by simp) htty) fun _ => rfl

/-! ### Checking a password -/

/-- The calls that change the modes or the mask, and the read of a password byte. -/
@[simp] def Remodes : SysCall → Prop
  | .sigprocmask _ _ => True
  | .ioctl _ request _ => request = tcsets
  | .read fd count => fd = 0 ∧ count = 1
  | _ => False

theorem Process.Credits.modes {call : Option Linux.CredCall} {r : Int} {s' : Process}
    (h : s.Credits call r s') : s'.tty = s.tty ∧ s'.mask = s.mask := by
  rcases h with ⟨-, rfl⟩ | ⟨-, c, creds, -, -, rfl⟩ <;> exact ⟨rfl, rfl⟩

theorem Process.Takes.modes {r : Int} {f : OpenFile} {s' : Process} (h : s.Takes r f s') :
    s'.tty = s.tty ∧ s'.mask = s.mask := by
  rcases h with ⟨-, rfl⟩ | ⟨-, -, rfl⟩ <;> exact ⟨rfl, rfl⟩

theorem answers_modes {s' : Process} {c : SysCall} {r : c.Answer} (hc : ¬ Remodes c)
    (h : s.Answers ⟨c, r⟩ s') : s'.tty = s.tty ∧ s'.mask = s.mask := by
  cases c with
  | setgroups | setgid | setuid | prctl | capset => exact h.modes
  | openat | signalfd => exact h.modes
  | «open» =>
      rcases h with ⟨-, rfl⟩ | ⟨-, -, f, mid, hopens, rfl⟩
      · exact ⟨rfl, rfl⟩
      · cases hopens <;> exact ⟨rfl, rfl⟩
  | pipe =>
      rcases r with _ | ⟨rfd, wfd⟩
      · exact ⟨congrArg Process.tty h, congrArg Process.mask h⟩
      · obtain ⟨-, -, -, -, -, rfl⟩ := h
        exact ⟨rfl, rfl⟩
  | close | closeRange | fork =>
      obtain rfl := h
      exact ⟨rfl, rfl⟩
  | dup2 =>
      rcases h with ⟨-, rfl⟩ | ⟨-, f, -, rfl⟩ <;> exact ⟨rfl, rfl⟩
  | ioctl fd request arg =>
      obtain rfl := h.stays fun hset => hc hset.2.1
      exact ⟨rfl, rfl⟩
  | setsid =>
      obtain ⟨-, rfl⟩ := h
      exact ⟨rfl, rfl⟩
  | sigprocmask => exact absurd trivial hc
  | getuid | getgid =>
      obtain ⟨rfl, -⟩ := h
      exact ⟨rfl, rfl⟩
  | _ =>
      obtain rfl : s' = s := h
      exact ⟨rfl, rfl⟩

/-- A program that does not change them keeps the modes found and the signals blocked. -/
theorem safe_shielded {p : Sys α} (hp : Prog.Avoids Remodes p) (htty : s.tty = tty)
    (hmask : s.Shielded) :
    Safe processWorld (Guarded tty) (fun t _ => t.tty = tty ∧ t.mask = s.mask) s p := by
  refine Safe.keeps still_processWorld hp (fun m c hm hc => ?_) (fun m c r s' hm hc hans => ?_)
    ⟨htty, rfl⟩
  · have hshield : m.Shielded := by
      rw [Process.Shielded, hm.2]
      exact hmask
    refine ⟨Or.inl hm.1, ?_, fun _ => hshield, fun _ => hm.1⟩
    rintro rfl
    exact absurd ⟨rfl, rfl⟩ hc
  · obtain ⟨htty', hmask'⟩ := answers_modes hc hans
    exact ⟨htty'.trans hm.1, hmask'.trans hm.2⟩

theorem not_returns_sysExit {code : Int} {tr : Trace} {a : α} :
    ¬ Prog.Returns (sysExit code) tr a := by
  intro h
  obtain ⟨r, -⟩ := Prog.returns_call_iff.mp h
  exact r.elim

/-- The child that runs `su` never comes back. -/
theorem not_returns_suChild {rfd wfd : Int} {username : CStr} {tr : Trace} {r : Int} :
    ¬ Prog.Returns (suChild rfd wfd username) tr r := by
  have hexec : ∀ tr, ¬ Prog.Returns (suChild.suExec username) tr r := by
    intro tr h
    obtain ⟨t₁, tr₁, argv, rfl, -, h⟩ := Prog.returns_bind_iff.mp h
    split at h
    · exact not_returns_sysExit h
    obtain ⟨t₂, tr₂, envp, rfl, -, h⟩ := Prog.returns_bind_iff.mp h
    split at h
    · exact not_returns_sysExit h
    obtain ⟨t₃, tr₃, _, rfl, -, h⟩ := Prog.returns_bind_iff.mp h
    exact not_returns_sysExit h
  intro h
  obtain ⟨t₁, tr₁, _, rfl, -, h⟩ := Prog.returns_bind_iff.mp h
  obtain ⟨t₂, tr₂, _, rfl, -, h⟩ := Prog.returns_bind_iff.mp h
  obtain ⟨t₃, tr₃, _, rfl, -, h⟩ := Prog.returns_bind_iff.mp h
  obtain ⟨t₄, tr₄, devnull, rfl, -, h⟩ := Prog.returns_bind_iff.mp h
  split at h
  · obtain ⟨t₅, tr₅, _, rfl, -, h⟩ := Prog.returns_bind_iff.mp h
    obtain ⟨t₆, tr₆, _, rfl, -, h⟩ := Prog.returns_bind_iff.mp h
    obtain ⟨t₇, tr₇, _, rfl, -, h⟩ := Prog.returns_bind_iff.mp h
    exact hexec _ h
  · exact hexec _ h

/-- Of two descriptors that were opened, the first is closed first. -/
theorem Process.closed_opened_opened {x y : Int} {f g : OpenFile} (hfree : s.fds x = none)
    (hne : x ≠ y) : ((s.opened x f).opened y g).closed x = s.opened y g := by
  have hfds : (((s.opened x f).opened y g).closed x).fds = (s.opened y g).fds := by
    show Function.update (Function.update (Function.update s.fds x (some f)) y (some g)) x none =
      Function.update s.fds y (some g)
    rw [Function.update_comm hne.symm, Function.update_idem, ← hfree, Function.update_eq_self]
  exact congrArg (fun fds => { s with fds := fds }) hfds

theorem Process.Forks.parent {r : Int} {s' : Process} (h : s.Forks r s') (hr : r ≠ 0) :
    s' = s := by
  rw [h, decide_eq_false hr, decide_eq_true hr, Bool.or_false, Bool.and_true]

theorem leaves_suParent {rfd wfd : Int} {f g : OpenFile} (htty : s.tty = tty)
    (hr : s.fds rfd = none) (hw : s.fds wfd = none) (hne : rfd ≠ wfd) (pid : Int)
    (password : CStr) :
    Safe processWorld (Guarded tty) (fun t _ => t = s) ((s.opened rfd f).opened wfd g)
      (suParent rfd wfd pid password) := by
  refine safe_call htty (by simp) (by simp) (by simp) fun x s' hans => ?_
  obtain rfl : s' = s.opened wfd g := hans.trans (Process.closed_opened_opened hr hne)
  refine Leaves.bind (Idle.leaves (by simp) htty) fun _ => ?_
  refine Leaves.bind (Idle.leaves (by simp) htty) fun _ => ?_
  exact safe_close htty hw fun x => Idle.leaves (by simp) htty

theorem leaves_suAuthenticate (htty : s.tty = tty) (hmask : s.Shielded)
    (username password : CStr) : Leaves tty s (suAuthenticate username password) := by
  refine Leaves.bind (Idle.leaves (by simp) htty) fun pfd => Safe.ite (fun _ => rfl) fun _ => ?_
  refine safe_call htty (by simp) (by simp) (by simp) fun fds s₁ hpipe => ?_
  rcases fds with _ | ⟨rfd, wfd⟩
  · exact hpipe
  obtain ⟨hne, -, -, hr, hw, rfl⟩ := hpipe
  refine safe_call htty (by simp) (by simp) (by simp) fun pid s₂ hfork => ?_
  refine Safe.ite (fun hneg => ?_) fun _ => Safe.ite (fun hzero => ?_) fun hpos => ?_
  · obtain rfl := Process.Forks.parent hfork hneg.ne
    refine safe_call htty (by simp) (by simp) (by simp) fun x s' hans => ?_
    obtain rfl : s' = s.opened wfd .pipeWrite :=
      hans.trans (Process.closed_opened_opened hr hne)
    exact safe_close htty hw fun _ => rfl
  · have hmodes := answers_modes (s := (s.opened rfd .pipeRead).opened wfd .pipeWrite)
      (c := .fork) (by simp) hfork
    obtain ⟨htty₂, hmask₂⟩ : s₂.tty = s.tty ∧ s₂.mask = s.mask := hmodes
    refine Safe.of_not_returns (safe_shielded ?_ (htty₂.trans htty) ?_)
      fun _ _ => not_returns_suChild
    · simp [suChild, suChild.suExec, sysExit]
    · rw [Process.Shielded, hmask₂]
      exact hmask
  · obtain rfl := Process.Forks.parent hfork hpos
    exact leaves_suParent htty hr hw hne _ _

theorem leaves_authenticate (htty : s.tty = tty) (hmask : s.Shielded)
    (username password : CStr) : Leaves tty s (authenticate username password) := by
  refine Leaves.bind ?_ fun pam => ?_
  · refine Safe.ask_bind still_processWorld ⟨Or.inl htty, by simp, fun _ => hmask, by simp⟩
      fun rc s' hans => ?_
    obtain rfl : s' = s := hans
    cases rc <;> exact rfl
  · rcases pam with _ | _ | _
    · exact leaves_suAuthenticate htty hmask _ _
    · exact rfl
    · exact rfl

theorem leaves_promptLoop (htty : s.tty = tty) (hmask : s.Shielded) (username : CStr)
    (left attempt : Nat) : Leaves tty s (promptLoop username left attempt) := by
  induction left generalizing attempt with
  | zero => exact rfl
  | succ left ih =>
      refine Leaves.bind (Idle.leaves (by simp) htty) fun _ => ?_
      refine Leaves.bind (Idle.leaves (by simp) htty) fun _ => ?_
      refine Leaves.bind (Idle.leaves (by simp) htty) fun _ => ?_
      refine Leaves.bind (leaves_readPasswordInto htty hmask _ _) fun buf => ?_
      refine Safe.ite (fun _ => Safe.ite (fun _ => ?_) fun _ => rfl) fun _ => ?_
      · exact Leaves.bind (Idle.leaves (by simp) htty) fun _ => ih _
      refine Leaves.bind (leaves_authenticate htty hmask _ _) fun r => ?_
      refine Safe.ite (fun _ => rfl) fun _ => ?_
      exact Leaves.bind (Idle.leaves (by simp) htty) fun _ => ih _

/-! ### The plan -/

theorem timestampPath_ne_ptmx {user path : CStr} {tr : Trace}
    (h : Prog.Returns (timestampPath user) tr path) : path ≠ cstr "/dev/ptmx" := by
  obtain ⟨t₁, t₂, tty, rfl, -, h⟩ := Prog.returns_bind_iff.mp h
  obtain ⟨-, rfl⟩ := Prog.returns_pure_iff.mp h
  intro heq
  have hbytes := congrArg (fun p : CStr => p.bytes.getD 1 0) heq
  have hdir : defaultTimestampDir.bytes.getD 1 0 = 118 := by decide
  have hlen : 1 < defaultTimestampDir.bytes.length := by decide
  simp only [timestampFile_bytes, List.append_assoc, List.getD_append _ _ _ _ hlen, hdir] at hbytes
  exact absurd hbytes (by decide)

theorem leaves_updateTimestamp (htty : s.tty = tty) (user : CStr) :
    Leaves tty s (updateTimestamp user) := by
  unfold updateTimestamp
  split
  · refine Leaves.bind (Idle.leaves ?_ htty) fun dirOk => Safe.ite (fun _ => rfl) fun _ => ?_
    · refine .bind (by simp) fun st => ?_
      cases st <;> simp
    refine Safe.bind_returns (Idle.leaves (by simp) htty) fun t path tr ht hpath => ?_
    subst ht
    refine safe_open (timestampPath_ne_ptmx hpath) htty (fun r hr => ?_) fun r f hr hfree _ => ?_
    · exact Safe.ite (fun _ => rfl) fun _ => Safe.ite (fun _ => rfl) fun h => absurd hr h
    · refine Safe.ite (fun h => ?_) fun _ => Safe.ite (fun h => by omega) fun _ => ?_
      · have := hr.trans_eq h
        exact absurd this (by decide)
      · exact safe_close htty hfree fun _ => rfl
  · exact rfl

theorem or_and_self (x y : Nat) : (x ||| y) &&& y = y := by
  refine Nat.eq_of_testBit_eq fun i => ?_
  rw [Nat.testBit_and, Nat.testBit_or]
  cases y.testBit i <;> simp

/-- The mask is put back, whatever comes of the prompt. -/
theorem leaves_runAuth (htty : s.tty = tty) (caller target resolved : CStr) (eval : Evaluation) :
    Leaves tty s (runAuth caller target resolved eval) := by
  refine Safe.ite (fun _ => ?_) fun _ => rfl
  refine safe_call htty (by simp) (by simp) (by simp) fun saved s₁ hblock => ?_
  obtain ⟨rfl, hs₁⟩ := hblock
  have htty₁ : s₁.tty = tty := by
    rw [hs₁]
    exact htty
  have hmask₁ : s₁.Shielded := by
    rw [hs₁]
    exact or_and_self s.mask buildAuthSigmask
  refine Leaves.bind (leaves_promptLoop htty₁ hmask₁ _ _ _) fun ok => ?_
  have hrestore : Safe processWorld (Guarded tty) (fun t _ => t = s) s₁
      (restoreSignals s.mask) := by
    refine safe_call htty₁ (by simp) (by simp) (by simp) fun x s₂ hset => ?_
    rw [hs₁] at hset
    exact hset.2
  refine Safe.bind hrestore fun t _ ht => ?_
  subst ht
  refine Safe.ite (fun _ => ?_) fun _ => ?_
  · refine Leaves.bind (Idle.leaves (by simp) htty) fun _ => ?_
    exact Leaves.bind (Idle.leaves (by simp) htty) fun _ => rfl
  · exact Leaves.bind (leaves_updateTimestamp htty caller) fun _ => rfl

/-- Only the descriptors of the process may be others. -/
def Process.SameBut (s t : Process) : Prop := t = { s with fds := t.fds }

theorem Process.SameBut.tty_eq {s t : Process} (h : s.SameBut t) : t.tty = s.tty :=
  (congrArg Process.tty h :)

/-- A descriptor that was opened, if it was, is a new one, and nothing that was open was closed. -/
structure Process.Gains (s t : Process) (fd : Int) : Prop where
  same : s.SameBut t
  kept : ∀ x, s.fds x ≠ none → t.fds x = s.fds x
  gained : 0 ≤ fd → s.fds fd = none ∧ t.fds fd ≠ none

theorem Process.Gains.none {s : Process} : s.Gains s (-1) :=
  ⟨rfl, fun _ _ => rfl, fun h => absurd h (by decide)⟩

theorem safe_openSessionLog (htty : s.tty = tty) (dir caller suffix : CStr) :
    Safe processWorld (Guarded tty) s.Gains s (openSessionLog dir caller suffix) := by
  refine safe_call htty (by simp) (by simp) (by simp) fun dfd s₁ htakes => ?_
  rcases htakes with ⟨hneg, rfl⟩ | ⟨hpos, hfree, rfl⟩
  · exact Safe.ite (fun _ => .none) fun h => absurd hneg h
  refine Safe.ite (fun h => by omega) fun _ => ?_
  refine Leaves.bind (Idle.leaves (by simp) htty) fun stbuf => ?_
  refine Leaves.bind (Idle.leaves (by simp) htty) fun st => ?_
  cases st with
  | none => exact safe_close htty hfree fun _ => .none
  | some st =>
      refine Safe.ite (fun _ => safe_close htty hfree fun _ => .none) fun _ => ?_
      refine Leaves.bind (Idle.leaves (by simp) htty) fun now => ?_
      refine Leaves.bind (Idle.leaves (by simp) htty) fun pid => ?_
      refine safe_call htty (by simp) (by simp) (by simp) fun fd s₂ htakes => ?_
      rcases htakes with ⟨hneg, rfl⟩ | ⟨hpos', hfree', rfl⟩
      · refine safe_close htty hfree fun _ => ⟨rfl, fun _ _ => rfl, fun h => by omega⟩
      have hne : fd ≠ dfd := fun heq => by simp [Process.opened, heq] at hfree'
      have hfd : s.fds fd = Option.none := by
        simpa [Process.opened, Function.update_of_ne hne] using hfree'
      refine safe_call htty (by simp) (by simp) (by simp) fun x s₃ hclose => ?_
      obtain rfl := hclose
      refine ⟨rfl, fun y hy => ?_, fun _ => ⟨hfd, ?_⟩⟩
      · have hydfd : y ≠ dfd := fun h => hy (h ▸ hfree)
        have hyfd : y ≠ fd := fun h => hy (h ▸ hfd)
        simp [Process.opened, Process.closed, Function.update_of_ne hydfd,
          Function.update_of_ne hyfd]
      · simp [Process.opened, Process.closed, Function.update_of_ne hne]

/-- The logs of a session: what is asked for is open, under a descriptor of its own that was
free, and nothing that was open was closed. -/
structure LogsHeld (s t : Process) (logs : SessionLogs) : Prop where
  kept : ∀ x, s.fds x ≠ none → t.fds x = s.fds x
  log : 0 ≤ logs.logfd → s.fds logs.logfd = none ∧ t.fds logs.logfd ≠ none
  input : 0 ≤ logs.inlogfd →
    s.fds logs.inlogfd = none ∧ t.fds logs.inlogfd ≠ none ∧ logs.inlogfd ≠ logs.logfd
  logOn : logs.doLog = true ↔ 0 ≤ logs.logfd
  inputOn : logs.doInput = true ↔ 0 ≤ logs.inlogfd

/-- What the logs of a run leave of the process. -/
structure LogsLeave (s t : Process) (doLog usePty : Bool) (logs : SessionLogs) : Prop where
  opened : LogsHeld s t logs
  pty : logs.usePty = usePty
  log : logs.doLog = doLog
  found : doLog = false → t = s

/-- Of the logs a run opens, nothing but descriptors stays behind. -/
theorem safe_openLogs (htty : s.tty = tty) (dir caller target resolved : CStr)
    (doLog logInput usePty : Bool) :
    Safe processWorld (Guarded tty)
      (fun t logs => s.SameBut t ∧ ∀ l, logs = some l → LogsLeave s t doLog usePty l)
      s (openLogs dir caller target resolved doLog logInput usePty) := by
  refine Safe.ite (fun hlog => ?_) fun hlog => ?_
  · refine Safe.bind (safe_openSessionLog htty dir caller _) fun t logfd ht => ?_
    have htty' : t.tty = tty := ht.same ▸ htty
    refine Safe.ite (fun _ => ?_) fun hpos => Safe.ite (fun _ => ?_) fun _ => ?_
    · refine Leaves.bind (Idle.leaves (by simp) htty') fun _ => ?_
      exact Leaves.bind (Idle.leaves (by simp) htty') fun _ => ⟨ht.same, by simp⟩
    · refine Safe.bind (safe_openSessionLog htty' dir caller _) fun u inlogfd hu => ?_
      have hsame : s.SameBut u :=
        hu.same.trans (congrArg (fun t => { t with fds := u.fds }) ht.same)
      refine Safe.ite (fun _ => ?_) fun hpos' => ?_
      · refine Leaves.bind (Idle.leaves (by simp) (hu.same ▸ htty')) fun _ => ?_
        exact Leaves.bind (Idle.leaves (by simp) (hu.same ▸ htty')) fun _ => ⟨hsame, by simp⟩
      · refine ⟨hsame, ?_⟩
        intro l hl
        cases hl
        obtain ⟨hfree, hopen⟩ := ht.gained (by omega)
        obtain ⟨hfree', hopen'⟩ := hu.gained (by omega)
        refine ⟨⟨fun x hx => ?_, fun _ => ⟨hfree, ?_⟩, fun _ => ⟨?_, hopen', ?_⟩, ?_, ?_⟩, rfl,
          hlog.symm, by simp [hlog]⟩
        · rw [hu.kept x (by rw [ht.kept x hx]; exact hx), ht.kept x hx]
        · show u.fds logfd ≠ none
          rw [hu.kept logfd hopen]
          exact hopen
        · by_contra hbusy
          rw [show t.fds inlogfd = _ from ht.kept inlogfd hbusy] at hfree'
          exact hbusy hfree'
        · exact fun heq => hopen ((show inlogfd = logfd from heq) ▸ hfree')
        · simpa using hpos
        · simpa using hpos'
    · refine ⟨ht.same, ?_⟩
      intro l hl
      cases hl
      exact ⟨⟨ht.kept, ht.gained, by simp, by simpa using hpos, by simp⟩, rfl, hlog.symm,
        by simp [hlog]⟩
  · refine ⟨rfl, ?_⟩
    intro l hl
    cases hl
    exact ⟨⟨fun _ _ => rfl, by simp, by simp, by simp, by simp⟩, rfl, by simpa using hlog,
      fun _ => rfl⟩

theorem idle_runInvalidate (cli : CliArgs) (caller : CStr) :
    Idle (runInvalidate cli caller) := by
  refine .bind ?_ fun ir => by simp
  unfold invalidateTimestamp
  split
  · refine .bind (by simp) fun path => .bind (by simp) fun st => ?_
    cases st <;> simp
  · simp

/-- What a plan leaves of the process, and when it asks for a pseudo-terminal. -/
structure PlanLeaves (s t : Process) (plan : Plan) : Prop where
  same : s.SameBut t
  pty : ∀ x, plan = .execute x →
    x.logs.usePty = sessionNeedsPty x.logs.doLog s.creds.ruid x.req.targetUid
  found : ∀ x, plan = .execute x → x.logs.doLog = false → t = s
  opened : ∀ x, plan = .execute x → LogsHeld s t x.logs

theorem planLeaves_exit {s t : Process} {code : Int} (h : s.SameBut t) :
    PlanLeaves s t (.exit code) :=
  ⟨h, by simp, by simp, by simp⟩

theorem safe_planAuthorized (htty : s.tty = tty) (nss : NssState) (policy : Policy)
    (caller target : CStr) (eval : Evaluation) (argv : List CStr) :
    Safe processWorld (Guarded tty) (PlanLeaves s) s
      (planAuthorized nss policy caller s.creds.ruid target eval argv) := by
  unfold planAuthorized
  dsimp only
  cases capsParseSet eval.capabilities with
  | none =>
      refine Leaves.bind (Idle.leaves (by simp) htty) fun _ => ?_
      exact Leaves.bind (Idle.leaves (by simp) htty) fun _ => planLeaves_exit rfl
  | some capMask =>
      refine Leaves.bind (leaves_runAuth htty _ _ _ _) fun ok => ?_
      refine Safe.ite (fun _ => planLeaves_exit rfl) fun _ => ?_
      refine Leaves.bind (Idle.leaves (by simp) htty) fun user => ?_
      cases user with
      | found ids =>
          refine Safe.bind (safe_openLogs htty _ _ _ _ _ _ _) fun t logs ht => ?_
          cases logs with
          | none => exact planLeaves_exit ht.1
          | some logs =>
              obtain ⟨hopened, hpty, hlog, hfound⟩ := ht.2 logs rfl
              refine ⟨ht.1, fun x hx => ?_, fun x hx => ?_, fun x hx => ?_⟩
              · cases hx
                rw [hpty, hlog]
              · cases hx
                rw [hlog]
                exact hfound
              · cases hx
                exact hopened
      | notFound => exact Leaves.bind (Idle.leaves (by simp) htty) fun _ => planLeaves_exit rfl
      | ioError => exact Leaves.bind (Idle.leaves (by simp) htty) fun _ => planLeaves_exit rfl

theorem safe_planRequest (htty : s.tty = tty) (fuel : Nat) (nss : NssState) (cli : CliArgs)
    (policy : Policy) (caller : CStr) (callerGid : Nat) (groups : List CStr) :
    Safe processWorld (Guarded tty) (PlanLeaves s) s
      (planRequest fuel nss cli policy caller s.creds.ruid callerGid groups) := by
  refine Leaves.bind (leaves_evaluateWithPolicy htty _ _ _ _ _ _ _ _) fun r => ?_
  obtain ⟨eval, argv⟩ := r
  refine Safe.ite (fun _ => ?_) fun _ => safe_planAuthorized htty ..
  refine Leaves.bind (Idle.leaves (by simp) htty) fun _ => ?_
  exact Leaves.bind (Idle.leaves (by simp) htty) fun _ => planLeaves_exit rfl

theorem safe_planPolicy (htty : s.tty = tty) (fuel : Nat) (cli : CliArgs) (policy : Policy)
    (caller : CStr) (callerGid : Nat) :
    Safe processWorld (Guarded tty) (PlanLeaves s) s
      (planPolicy fuel cli policy caller s.creds.ruid callerGid) := by
  unfold planPolicy
  dsimp only
  refine Safe.ite (fun _ => ?_) fun _ => ?_
  · exact Leaves.bind (Idle.leaves (by simp) htty) fun _ => planLeaves_exit rfl
  refine Leaves.bind (Idle.leaves (by simp) htty) fun r => ?_
  obtain ⟨status, nss⟩ := r
  refine Leaves.bind (Idle.leaves (by simp) htty) fun _ => ?_
  refine Leaves.bind (Idle.leaves (by simp) htty) fun r => ?_
  obtain ⟨groups, nss⟩ := r
  refine Safe.ite (fun _ => ?_) fun _ => safe_planRequest htty _ _ _ _ _ _ _
  exact Leaves.bind (Idle.leaves (by simp) htty) fun _ => planLeaves_exit rfl

theorem safe_planModes (htty : s.tty = tty) (fuel : Nat) (cli : CliArgs) (caller : CStr)
    (callerGid : Nat) :
    Safe processWorld (Guarded tty) (PlanLeaves s) s
      (planModes fuel cli caller s.creds.ruid callerGid) := by
  refine Safe.ite (fun _ => ?_) fun _ => Safe.ite (fun _ => ?_) fun _ => ?_
  · exact Leaves.bind (idle_runInvalidate cli caller |>.leaves htty) fun _ => planLeaves_exit rfl
  · exact Leaves.bind (Idle.leaves (by simp) htty) fun _ => planLeaves_exit rfl
  · refine Leaves.bind (Idle.leaves (by simp) htty) fun policy => ?_
    cases policy with
    | none => exact Leaves.bind (Idle.leaves (by simp) htty) fun _ => planLeaves_exit rfl
    | some policy => exact safe_planPolicy htty ..

/-- **A plan leaves the process as it was found**, apart from the session logs it opens. -/
theorem safe_planRun (fuel : Nat) (args : List CStr) :
    Safe processWorld (Guarded s.tty) (PlanLeaves s) s (planRun fuel args) := by
  have hexit {c : Int} {p : Sys Unit} (hp : Idle p) :
      Safe processWorld (Guarded s.tty) (PlanLeaves s) s (p >>= fun _ => Pure.pure (.exit c)) :=
    Leaves.bind (Idle.leaves hp rfl) fun _ => planLeaves_exit rfl
  refine Leaves.bind (Idle.leaves (by simp) rfl) fun _ => ?_
  refine Leaves.bind (Idle.leaves (by simp) rfl) fun cli => ?_
  cases cli with
  | none => exact hexit (by simp)
  | some cli =>
      refine Safe.ite (fun _ => hexit (by simp)) fun _ => Safe.ite (fun _ => ?_) fun _ => ?_
      · exact Leaves.bind (Idle.leaves (by simp) rfl) fun _ => hexit (by simp)
      refine safe_call rfl (by simp) (by simp) (by simp) fun callerUid s₁ hans => ?_
      obtain ⟨rfl, rfl⟩ := hans
      refine Leaves.bind (Idle.leaves (by simp) rfl) fun callerGid => ?_
      refine Leaves.bind (Idle.leaves (by simp) rfl) fun user => ?_
      cases user with
      | found ids => exact safe_planModes rfl ..
      | notFound => exact hexit (by simp)
      | ioError => exact hexit (by simp)

end Shakti
