import Mathlib.Data.Nat.Bitwise
import Mathlib.Tactic.Simps.Basic
import Shakti.Footprint
import Shakti.Lib.Credentials
import Shakti.Lib.Safe

/-!
# Shakti.Process

The process as the kernel keeps it, and what the functions of the sources leave of it.

* `Process` — the credentials, the descriptors, the terminal the process was started on, the
  signal mask, the pseudo-terminals it has opened, and whether it is a child of the original.
* `Process.Answers`, `processWorld` — what the kernel answers, and what becomes of the process.
  Any call may fail, except where a failure would say that a descriptor or a terminal is not what
  it is; `close_range` is there.
* `Keeps` — the program leaves the process as it found it, and every call it makes meets a
  guarantee.
-/

namespace Shakti

open Effects Effects.World

/-! ### The process -/

/-- What a descriptor refers to. -/
inductive OpenFile
  /-- What the process was started with. -/
  | inherited (fd : Int)
  | file (path : CStr) (flags : Nat)
  /-- A name looked up in a directory. -/
  | member (dir : Option OpenFile) (name : CStr)
  | ptyMaster (n : Nat)
  | ptySlave (n : Nat)
  | pipeRead
  | pipeWrite
  | signals

/-- The modes of a terminal, as `TCGETS` delivers them. -/
@[ext] structure Termios where
  bytes : Bytes
  size : bytes.length = termiosSize

namespace Termios

/-- The modes in the memory `TCSETS` is pointed to. -/
def of (arg : Bytes) : Termios where
  bytes := (arg ++ List.replicate termiosSize 0).take termiosSize
  size := by simp

/-- The local flags. -/
def lflag (modes : Termios) : Nat := load32 modes.bytes 12

/-- `ECHO`: what is typed is shown. -/
def Echoes (modes : Termios) : Prop := modes.lflag &&& echoFlag ≠ 0

/-- `ISIG`: the keyboard sends signals. -/
def Signals (modes : Termios) : Prop := modes.lflag &&& 1 ≠ 0

theorem of_bytes {arg : Bytes} (h : arg.length = termiosSize) : (of arg).bytes = arg := by
  show (arg ++ List.replicate termiosSize 0).take termiosSize = arg
  rw [List.take_append_of_le_length h.ge, ← h, List.take_length]

@[simp] theorem of_self (modes : Termios) : of modes.bytes = modes :=
  Termios.ext (of_bytes modes.size)

end Termios

/-- A process. -/
structure Process where
  creds : Linux.Creds
  fds : Int → Option OpenFile
  /-- The modes of the terminal the process was started on, if it is one. -/
  tty : Option Termios
  mask : Nat
  ptys : List Nat
  /-- Whether this is a forked child, and whether it leads a session of its own. -/
  child : Bool
  leader : Bool

namespace Process

/-- A descriptor is opened. -/
@[simps] def opened (s : Process) (fd : Int) (f : OpenFile) : Process :=
  { s with fds := Function.update s.fds fd (some f) }

/-- A descriptor is closed. -/
@[simps] def closed (s : Process) (fd : Int) : Process :=
  { s with fds := Function.update s.fds fd none }

/-- Every descriptor from `first` on is closed. -/
@[simps] def closedFrom (s : Process) (first : Int) : Process :=
  { s with fds := fun fd => if first ≤ fd then none else s.fds fd }

/-- The process with other credentials. -/
@[simps] def withCreds (s : Process) (creds : Linux.Creds) : Process := { s with creds := creds }

/-- Stdin is still what it was when the process started. -/
def OwnStdin (s : Process) : Prop := s.fds 0 = some (.inherited 0)

theorem ownStdin_opened_zero {s : Process} {f : OpenFile} :
    (s.opened 0 f).OwnStdin ↔ f = .inherited 0 := by
  show Function.update s.fds 0 (some f) 0 = some (.inherited 0) ↔ _
  rw [Function.update_self, Option.some.injEq]

theorem ownStdin_opened {s : Process} {r : Int} {f : OpenFile} (hr : r ≠ 0) :
    (s.opened r f).OwnStdin ↔ s.OwnStdin := by
  show Function.update s.fds r (some f) 0 = some (.inherited 0) ↔ _
  rw [Function.update_of_ne hr.symm]
  exact Iff.rfl

theorem ownStdin_closed {s : Process} {r : Int} (hr : r ≠ 0) :
    (s.closed r).OwnStdin ↔ s.OwnStdin := by
  show Function.update s.fds r none 0 = some (.inherited 0) ↔ _
  rw [Function.update_of_ne hr.symm]
  exact Iff.rfl

/-- The path of a slave. -/
def slavePath (n : Nat) : CStr := cstr "/dev/pts/" ++ decimal n

/-- What is behind a path. -/
inductive Opens (s : Process) : CStr → Nat → OpenFile → Process → Prop
  /-- Each open of the multiplexer makes a new pair. -/
  | master {flags n : Nat} : n ∉ s.ptys →
      Opens s (cstr "/dev/ptmx") flags (.ptyMaster n) { s with ptys := n :: s.ptys }
  | slave {path : CStr} {flags n : Nat} : path = slavePath n → n ∈ s.ptys →
      Opens s path flags (.ptySlave n) s
  | other {path : CStr} {flags : Nat} : path ≠ cstr "/dev/ptmx" →
      (∀ n ∈ s.ptys, path ≠ slavePath n) → Opens s path flags (.file path flags) s

/-- A call that is to open a descriptor: it fails, or a free one is taken. -/
def Takes (s : Process) (r : Int) (f : OpenFile) (s' : Process) : Prop :=
  (r < 0 ∧ s' = s) ∨ (0 ≤ r ∧ s.fds r = none ∧ s' = s.opened r f)

/-- `open`. -/
def OpensPath (s : Process) (path : CStr) (flags : Nat) (r : Int) (s' : Process) : Prop :=
  (r < 0 ∧ s' = s) ∨
    (0 ≤ r ∧ s.fds r = none ∧ ∃ f mid, s.Opens path flags f mid ∧ s' = mid.opened r f)

/-- `dup2`. -/
def Duplicates (s : Process) (old new r : Int) (s' : Process) : Prop :=
  (r < 0 ∧ s' = s) ∨ (0 ≤ r ∧ ∃ f, s.fds old = some f ∧ s' = s.opened new f)

/-- `ioctl`: the modes of the terminal are read and set through stdin, and the number of a
pseudo-terminal through its master. -/
structure Controls (s : Process) (fd : Int) (request : Nat) (arg : Bytes) (r : Option Bytes)
    (s' : Process) : Prop where
  sets : fd = 0 → request = tcsets → s.OwnStdin →
    s' = { s with tty := s.tty.map fun _ => Termios.of arg }
  stays : ¬ (fd = 0 ∧ request = tcsets ∧ s.OwnStdin) → s' = s
  gets : fd = 0 → request = tcgets → s.OwnStdin → r = s.tty.map Termios.bytes
  numbers : ∀ n bytes, request = tiocgptn → s.fds fd = some (.ptyMaster n) → r = some bytes →
    load32 bytes 0 = n

/-- `fork`: the child is answered zero, and leads no session. -/
def Forks (s : Process) (r : Int) (s' : Process) : Prop :=
  s' = { s with child := s.child || decide (r = 0), leader := s.leader && decide (r ≠ 0) }

/-- `setsid`: a child leads no process group, which is all that can keep it from leading a
session. -/
def Leads (s : Process) (r : Int) (s' : Process) : Prop :=
  (s.child = true → 0 ≤ r) ∧ s' = { s with leader := s.leader || decide (0 ≤ r) }

/-- The capabilities in two words. -/
def wordCaps (lo hi : Nat) : Set ℕ :=
  {c | (c < 32 ∧ lo.testBit c = true) ∨ (32 ≤ c ∧ c < 64 ∧ hi.testBit (c - 32) = true)}

/-- What `prctl` asks for. -/
def prctlCall (option arg2 arg3 : Nat) : Option Linux.CredCall :=
  if option = prCapbsetDrop then some (.dropBounding arg2)
  else if option = prSetKeepcaps then some (.keepCaps (decide (arg2 ≠ 0)))
  else if option = prCapAmbient ∧ arg2 = prCapAmbientRaise then some (.raiseAmbient arg3)
  else none

/-- A call on the credentials fails, or does what it is to do. -/
def Credits (s : Process) (call : Option Linux.CredCall) (r : Int) (s' : Process) : Prop :=
  (r < 0 ∧ s' = s) ∨
    (0 ≤ r ∧ ∃ c creds, call = some c ∧ s.creds.Applies c creds ∧ s' = s.withCreds creds)

/-- What the kernel answers, and what becomes of the process. -/
def Answers (s : Process) : Event sysSig → Process → Prop
  | ⟨.getuid, r⟩, s' => s' = s ∧ r = s.creds.ruid
  | ⟨.getgid, r⟩, s' => s' = s ∧ r = s.creds.rgid
  | ⟨.setgroups gids, r⟩, s' => s.Credits (some (.setgroups gids)) r s'
  | ⟨.setgid gid, r⟩, s' => s.Credits (some (.setgid gid)) r s'
  | ⟨.setuid uid, r⟩, s' => s.Credits (some (.setuid uid)) r s'
  | ⟨.prctl option arg2 arg3, r⟩, s' => s.Credits (prctlCall option arg2 arg3) r s'
  | ⟨.capset _ _ data, r⟩, s' =>
      s.Credits (some (.capset (wordCaps (data.getD 0 0) (data.getD 3 0))
        (wordCaps (data.getD 1 0) (data.getD 4 0)) (wordCaps (data.getD 2 0) (data.getD 5 0)))) r s'
  | ⟨.open path flags _, r⟩, s' => s.OpensPath path flags r s'
  | ⟨.openat dir name _ _, r⟩, s' => s.Takes r (.member (s.fds dir) name) s'
  | ⟨.signalfd _, r⟩, s' => s.Takes r .signals s'
  | ⟨.pipe, r⟩, s' =>
      match (r : Option (Int × Int)) with
      | none => s' = s
      | some (rfd, wfd) => rfd ≠ wfd ∧ 0 ≤ rfd ∧ 0 ≤ wfd ∧ s.fds rfd = none ∧ s.fds wfd = none ∧
          s' = (s.opened rfd .pipeRead).opened wfd .pipeWrite
  | ⟨.close fd, _⟩, s' => s' = s.closed fd
  | ⟨.closeRange first, _⟩, s' => s' = s.closedFrom first
  | ⟨.dup2 old new, r⟩, s' => s.Duplicates old new r s'
  | ⟨.ioctl fd request arg, r⟩, s' => s.Controls fd request arg r s'
  | ⟨.sigprocmask how set, r⟩, s' => r = s.mask ∧
      s' = { s with mask := if how = sigBlock then s.mask ||| set
                            else if how = sigSetmask then set else s.mask }
  | ⟨.fork, r⟩, s' => s.Forks r s'
  | ⟨.setsid, r⟩, s' => s.Leads r s'
  | _, s' => s' = s

end Process

/-- The process as a world, in which nothing moves by itself. -/
def processWorld : World sysSig Process where
  answers s c r s' := s.Answers ⟨c, r⟩ s'
  other _ _ _ := False

theorem still_processWorld : processWorld.Still := fun _ _ _ => id

/-! ### Programs that leave the process alone -/

/-- The calls that may change the process, and those a guarantee is given for. -/
@[simp] def Touches : SysCall → Prop
  | .setgroups _ | .setgid _ | .setuid _ | .prctl _ _ _ | .capset _ _ _ | .open _ _ _
  | .openat _ _ _ _ | .signalfd _ | .pipe | .close _ | .closeRange _ | .dup2 _ _
  | .sigprocmask _ _ | .fork | .setsid | .exit _ | .execve _ _ _ _ | .pamUnixAuthenticate _ _ =>
      True
  | .ioctl _ request _ => request = tcsets
  | .read fd count => fd = 0 ∧ count = 1
  | _ => False

/-- No run of the program touches the process. -/
abbrev Idle {α : Type} (p : Sys α) : Prop := Prog.Avoids Touches p

theorem Touches.beyondTelling {c : SysCall} (hc : Touches c) : BeyondTelling c := by
  cases c <;> simp_all

@[simp] theorem Telling.idle {α : Type} {p : Sys α} (hp : Telling p) : Idle p :=
  hp.mono fun _ => Touches.beyondTelling

@[simp] theorem Asking.idle {α : Type} {p : Sys α} (hp : Asking p) : Idle p :=
  hp.telling.idle

@[simp] theorem Looking.idle {α : Type} {p : Sys α} (hp : Looking p) : Idle p :=
  hp.asking.idle

theorem answers_of_not_touches {s s' : Process} {c : SysCall} {r : c.Answer} (hc : ¬ Touches c)
    (h : s.Answers ⟨c, r⟩ s') : s' = s := by
  cases c with
  | getuid | getgid => exact h.1
  | ioctl fd request arg => exact h.stays fun hset => hc hset.2.1
  | setgroups | setgid | setuid | prctl | capset | «open» | openat | signalfd | pipe | close
  | closeRange | dup2 | sigprocmask | fork | setsid | exit | execve | pamUnixAuthenticate =>
      exact absurd trivial hc
  | _ => exact h

end Shakti
