import Shakti.Machine
import Shakti.Process

/-!
# Shakti.Kernel

A kernel that grants what root asks for, to play programs against.

It answers from the files of a view, changes the credentials of a process with the effective uid
of root, keeps the modes of its terminal, and delivers an empty line for everything that is read.
A kernel on top of it makes a pseudo-terminal too, and forks. What either does is what
`processWorld` allows (`grants_answers`, `forks_answers`).
-/

namespace Shakti

open Effects Effects.World

/-- Answers on a machine with the files of the view. A declined call stays pending. -/
def FileView.grants (v : FileView) (s : Process) :
    (c : SysCall) → Option (c.Answer × Process)
  | .stat path => some (v.stat path, s)
  | .lstat path => some (v.stat path, s)
  | .readFile path => some (v.content path, s)
  | .dirList path => some (v.list path, s)
  | .getuid => some (s.creds.ruid, s)
  | .getgid => some (s.creds.rgid, s)
  | .getpid => some (7, s)
  | .setgroups gids =>
      if s.creds.euid = 0 then some (0, s.withCreds { s.creds with groups := gids }) else none
  | .setgid gid =>
      if s.creds.euid = 0 then
        some (0, s.withCreds { s.creds with rgid := gid, egid := gid, sgid := gid })
      else none
  | .setuid uid =>
      if s.creds.euid = 0 then some (0, s.withCreds (s.creds.withUids uid uid uid)) else none
  | .sigprocmask how set =>
      some (s.mask, { s with mask := if how = sigBlock then s.mask ||| set
                                     else if how = sigSetmask then set else s.mask })
  | .ioctl fd request arg =>
      if fd = 0 ∧ request = tcgets then some (s.tty.map Termios.bytes, s)
      else if fd = 0 ∧ request = tcsets ∧ s.child = false then
        some (some arg, { s with tty := s.tty.map fun _ => Termios.of arg })
      else none
  | .closeRange first => if 0 < first then some (0, s.closedFrom first) else none
  | .alloc _ => some (true, s)
  | .clockGettime => some (some 1000, s)
  | .readlink _ => some (none, s)
  | .open _ _ _ => some (-2, s)
  | .openat _ _ _ _ => some (-2, s)
  | .read _ _ => some (some [10], s)
  | .write _ data => some ((data.length : Int), s)
  | .appendLocked _ _ => some (0, s)
  | .sakshiSetLevel => some ((), s)
  | .sakshiInfo _ => some ((), s)
  | .sakshiWarn _ => some ((), s)
  | .grpGetgrouplist _ _ _ => some ((0, []), s)
  | _ => none

/-- A process that has its stdin, unless it is a child; that may change its ids while it is root;
and that has the capabilities of `held` for as long as it is root, or keeps them. -/
structure Process.Granted (held : Set ℕ) (s : Process) : Prop where
  stdin : s.child = false → s.OwnStdin
  caps : s.creds.euid = 0 → Linux.capSetgid ∈ s.creds.effective ∧
    Linux.capSetuid ∈ s.creds.effective ∧ Linux.capSetpcap ∈ s.creds.effective
  held : s.creds.euid = 0 ∨ s.creds.keepCaps = true →
    held ⊆ s.creds.permitted ∧ held ⊆ s.creds.inheritable

section Grants

variable {held : Set ℕ} {s s' : Process}

/-- Descriptors are closed, but not stdin. -/
theorem Process.Granted.closedFrom (hs : s.Granted held) {first : Int} (hfirst : 0 < first) :
    (s.closedFrom first).Granted held where
  stdin hown := by
    show (if first ≤ 0 then none else s.fds 0) = _
    rw [if_neg (by omega)]
    exact hs.stdin hown
  caps := hs.caps
  held := hs.held

/-- What is opened is not stdin. -/
theorem Process.Granted.opened (hs : s.Granted held) {fd : Int} (hfd : fd ≠ 0) (f : OpenFile) :
    (s.opened fd f).Granted held where
  stdin hown := (Process.ownStdin_opened hfd).mpr (hs.stdin hown)
  caps := hs.caps
  held := hs.held

/-- Neither is what is closed. -/
theorem Process.Granted.closed (hs : s.Granted held) {fd : Int} (hfd : fd ≠ 0) :
    (s.closed fd).Granted held where
  stdin hown := (Process.ownStdin_closed hfd).mpr (hs.stdin hown)
  caps := hs.caps
  held := hs.held

/-- Root's uids are given up, with the capabilities unless they are kept. -/
theorem Process.Granted.withUids (hs : s.Granted held) (hroot : s.creds.euid = 0) (uid : Nat) :
    (s.withCreds (s.creds.withUids uid uid uid)).Granted held := by
  by_cases huid : uid = 0
  · subst huid
    rw [Linux.Creds.withUids_root hroot]
    exact ⟨hs.stdin, fun _ => hs.caps hroot, fun _ => hs.held (Or.inl hroot)⟩
  · rw [Linux.Creds.withUids_lost hroot huid]
    refine ⟨hs.stdin, fun hzero => absurd hzero huid, fun hkept => ?_⟩
    have hkeep : s.creds.keepCaps = true := hkept.resolve_left huid
    show held ⊆ (if s.creds.keepCaps = false then ∅ else s.creds.permitted) ∧ _
    rw [if_neg (by simp [hkeep])]
    exact hs.held (Or.inl hroot)

theorem grants_answers (v : FileView) (s : Process) (c : SysCall) (r : c.Answer) (s' : Process)
    (hs : s.Granted held) (h : v.grants s c = some (r, s')) :
    processWorld.answers s c r s' ∧ s'.Granted held := by
  cases c with
  | setgroups gids =>
      obtain ⟨hroot, h⟩ := Option.ite_none_right_eq_some.mp h
      cases h
      exact ⟨Or.inr ⟨le_rfl, _, _, rfl, .setgroups (hs.caps hroot).1, rfl⟩,
        hs.stdin, hs.caps, hs.held⟩
  | setgid gid =>
      obtain ⟨hroot, h⟩ := Option.ite_none_right_eq_some.mp h
      cases h
      exact ⟨Or.inr ⟨le_rfl, _, _, rfl, .setgid (hs.caps hroot).1, rfl⟩,
        hs.stdin, hs.caps, hs.held⟩
  | setuid uid =>
      obtain ⟨hroot, h⟩ := Option.ite_none_right_eq_some.mp h
      cases h
      exact ⟨Or.inr ⟨le_rfl, _, _, rfl, .setuid (hs.caps hroot).2.1, rfl⟩, hs.withUids hroot uid⟩
  | ioctl fd request arg =>
      simp only [FileView.grants] at h
      split at h
      · rename_i hget
        cases h
        obtain ⟨rfl, rfl⟩ := hget
        exact ⟨⟨fun _ h => absurd h (by decide), fun _ => rfl, fun _ _ _ => rfl,
          fun _ _ h => absurd h (by decide)⟩, hs⟩
      · split at h
        · rename_i hset
          cases h
          obtain ⟨rfl, rfl, hown⟩ := hset
          exact ⟨⟨fun _ _ _ => rfl, fun h => absurd ⟨rfl, rfl, hs.stdin hown⟩ h,
            fun _ h => absurd h (by decide), fun _ _ h => absurd h (by decide)⟩,
            hs.stdin, hs.caps, hs.held⟩
        · cases h
  | sigprocmask how set =>
      cases h
      exact ⟨⟨rfl, rfl⟩, hs.stdin, hs.caps, hs.held⟩
  | closeRange first =>
      obtain ⟨hfirst, h⟩ := Option.ite_none_right_eq_some.mp h
      cases h
      exact ⟨rfl, hs.closedFrom (by omega)⟩
  | «open» path flags mode =>
      cases h
      exact ⟨Or.inl ⟨show (-2 : Int) < 0 by decide, rfl⟩, hs⟩
  | openat =>
      cases h
      exact ⟨Or.inl ⟨show (-2 : Int) < 0 by decide, rfl⟩, hs⟩
  | getuid | getgid =>
      cases h
      exact ⟨⟨rfl, rfl⟩, hs⟩
  | _ =>
      cases h
      try exact ⟨rfl, hs⟩

/-- Answers to a process that may make one pseudo-terminal, and whose forks are answered `pid`. -/
def FileView.forks (v : FileView) (pid : Int) (s : Process) :
    (c : SysCall) → Option (c.Answer × Process)
  | .open path flags mode =>
      if path = cstr "/dev/ptmx" ∧ (s.fds 5).isNone ∧ 0 ∉ s.ptys then
        some (5, ({ s with ptys := 0 :: s.ptys } : Process).opened 5 (.ptyMaster 0))
      else if path = Process.slavePath 0 ∧ 0 ∈ s.ptys ∧ (s.fds 6).isNone then
        some (6, s.opened 6 (.ptySlave 0))
      else v.grants s (.open path flags mode)
  | .ioctl fd request arg =>
      if request = tiocgptn then
        match s.fds fd with
        | some (.ptyMaster 0) => some (some [0, 0, 0, 0], s)
        | _ => none
      else if request = tcgets ∨ request = tcsets then v.grants s (.ioctl fd request arg)
      else some (some [], s)
  | .fork =>
      some (pid, { s with child := s.child || decide (pid = 0),
                          leader := s.leader && decide (pid ≠ 0) })
  | c => v.grants s c

theorem forks_answers (v : FileView) (pid : Int) (s : Process) (c : SysCall) (r : c.Answer)
    (s' : Process) (hs : s.Granted held) (h : v.forks pid s c = some (r, s')) :
    processWorld.answers s c r s' ∧ s'.Granted held := by
  cases c with
  | «open» path flags mode =>
      simp only [FileView.forks] at h
      split at h
      · rename_i hpath
        cases h
        obtain ⟨rfl, hfree, hnew⟩ := hpath
        have hmade : ({ s with ptys := 0 :: s.ptys } : Process).Granted held :=
          ⟨hs.stdin, hs.caps, hs.held⟩
        exact ⟨Or.inr ⟨show (0 : Int) ≤ 5 by decide, by simpa using hfree, _, _,
          .master hnew, rfl⟩, hmade.opened (by decide) _⟩
      · split at h
        · rename_i hpath
          cases h
          obtain ⟨hpath, hold, hfree⟩ := hpath
          exact ⟨Or.inr ⟨show (0 : Int) ≤ 6 by decide, by simpa using hfree, _, _,
            .slave hpath hold, rfl⟩, hs.opened (by decide) _⟩
        · exact grants_answers v s _ r s' hs h
  | ioctl fd request arg =>
      simp only [FileView.forks] at h
      split at h
      · rename_i hnumber
        split at h
        · rename_i hmaster
          cases h
          subst hnumber
          refine ⟨⟨fun _ h => absurd h (by decide), fun _ => rfl, fun _ h => absurd h (by decide),
            fun n bytes _ hn hbytes => ?_⟩, hs⟩
          rw [hmaster] at hn
          cases hn
          cases hbytes
          decide
        · cases h
      · rename_i hnumber
        split at h
        · exact grants_answers v s _ r s' hs h
        · rename_i hmodes
          cases h
          obtain ⟨hget, hset⟩ := not_or.mp hmodes
          exact ⟨⟨fun _ h => absurd h hset, fun _ => rfl, fun _ h => absurd h hget,
            fun _ _ h => absurd h hnumber⟩, hs⟩
  | fork =>
      cases h
      exact ⟨rfl, fun hown => hs.stdin (Bool.or_eq_false_iff.mp hown).1, hs.caps, hs.held⟩
  | _ => exact grants_answers v s _ r s' hs h

end Grants

/-- A user's process, started from a set-uid-root file on a terminal, with every capability. -/
def setuidProcess (uid : Nat) : Process where
  creds :=
    { ruid := uid, euid := 0, suid := 0, rgid := uid, egid := uid, sgid := uid, groups := [uid]
      permitted := {c | c ≤ capLastCap}, effective := {c | c ≤ capLastCap}
      inheritable := {c | c ≤ capLastCap}, bounding := {c | c ≤ capLastCap}, ambient := ∅
      keepCaps := false }
  fds fd := if 0 ≤ fd ∧ fd ≤ 2 then some (.inherited fd) else none
  tty := some ⟨List.replicate termiosSize 255, List.length_replicate⟩
  mask := 0
  ptys := []
  child := false
  leader := false

theorem setuidProcess_granted (uid : Nat) {held : Set ℕ} (hheld : held ⊆ {c | c ≤ capLastCap}) :
    (setuidProcess uid).Granted held where
  stdin _ := rfl
  caps _ := ⟨show 6 ≤ capLastCap by decide, show 7 ≤ capLastCap by decide,
    show 8 ≤ capLastCap by decide⟩
  held _ := ⟨hheld, hheld⟩

end Shakti
