import Shakti.Sys

/-!
# Shakti.Machine

A machine whose files do not change.

* `FileView` — what `stat`, `file_read_all` and `dir_list` find on such a machine.
* `FileView.Answers` — an event of a run agrees with the view. A run all of whose
  events agree is a run on that machine; calls that are not about files may still
  answer anything.
* `FileOnly` — a program that does nothing but look at files. On such a machine it
  returns one thing (`FileView.returns_unique`).
* `FileView.machine` — an oracle that answers from the view and makes every other
  call succeed, to play a program against.
-/

namespace Shakti

open Effects Effects.Prog

/-- The files of a machine at rest. -/
structure FileView where
  stat : CStr → Option Stat
  content : CStr → Option Bytes
  list : CStr → List CStr

/-- The event agrees with the view. -/
def FileView.Answers (v : FileView) : Event sysSig → Prop
  | ⟨.stat path, r⟩ => r = v.stat path
  | ⟨.readFile path, r⟩ => r = v.content path
  | ⟨.dirList path, r⟩ => r = v.list path
  | _ => True

/-- The calls that do something else than look at files. -/
@[simp] def BeyondFiles : SysCall → Prop
  | .stat _ | .readFile _ | .dirList _ => False
  | _ => True

/-- No run of the program does more than look at files. -/
abbrev FileOnly {α : Type} (p : Sys α) : Prop := Avoids BeyondFiles p

/-- The view determines what a look at a file finds. -/
theorem FileView.Answers.unique {v : FileView} {c : SysCall} (hc : ¬ BeyondFiles c)
    {r r' : c.Answer} (h : v.Answers ⟨c, r⟩) (h' : v.Answers ⟨c, r'⟩) : r = r' := by
  cases c <;> first | exact h.trans h'.symm | exact absurd trivial hc

/-- What a program that only looks at files returns is determined by the view. -/
theorem FileView.returns_unique {α : Type} {v : FileView} {p : Sys α} (hp : FileOnly p)
    {tr tr' : Trace} {a b : α} (hv : ∀ e ∈ tr, v.Answers e) (hv' : ∀ e ∈ tr', v.Answers e)
    (h : Returns p tr a) (h' : Returns p tr' b) : a = b := by
  induction p generalizing tr tr' with
  | pure c =>
      obtain ⟨-, rfl⟩ := returns_pure_iff.mp h
      exact (returns_pure_iff.mp h').2.symm
  | call c k ih =>
      obtain ⟨hc, hk⟩ := hp
      obtain ⟨r, rest, rfl, hr⟩ := returns_call_iff.mp h
      obtain ⟨r', rest', rfl, hr'⟩ := returns_call_iff.mp h'
      obtain rfl : r = r' := Answers.unique hc (hv _ (List.mem_cons_self ..))
        (hv' _ (List.mem_cons_self ..))
      exact ih r (hk r) (fun e he => hv e (List.mem_cons_of_mem _ he))
        (fun e he => hv' e (List.mem_cons_of_mem _ he)) hr hr'

/-- On the machine, a program that only looks at files returns something. -/
theorem FileView.exists_returns {α : Type} (v : FileView) {p : Sys α} (hp : FileOnly p) :
    ∃ tr a, (∀ e ∈ tr, v.Answers e) ∧ Returns p tr a := by
  induction p with
  | pure a => exact ⟨[], a, by simp, Steps.nil _⟩
  | call c k ih =>
      obtain ⟨hc, hk⟩ := hp
      obtain ⟨r, hr⟩ : ∃ r, v.Answers ⟨c, r⟩ := by
        cases c <;> first | exact ⟨_, rfl⟩ | exact absurd trivial hc
      obtain ⟨tr, a, hv, hrun⟩ := ih r (hk r)
      exact ⟨⟨c, r⟩ :: tr, a, by simpa using ⟨hr, hv⟩, Steps.cons hrun⟩

/-- A regular file of root's: its `stat` result. -/
def rootFile (mode : Nat) : Stat := ⟨sIfreg ||| mode, 0, 0⟩

/-- The view of a list of files of root's with their permission bits. -/
def rootFiles (files : List (CStr × Nat × Bytes)) : FileView where
  stat path := (files.find? (·.1 = path)).map (fun f => rootFile f.2.1)
  content path := (files.find? (·.1 = path)).map (·.2.2)
  list _ := []

/-- The process a machine runs: its ids, and its capability sets as `capset` left
them. -/
structure Proc where
  uid : Nat
  gid : Nat
  caps : List Nat

/-- Answers to calls on the machine: files from the view, ids and capabilities from the
process, and success where nothing else is known. A declined call stays pending. -/
def FileView.machine (v : FileView) : Proc → (c : SysCall) → Option (c.Answer × Proc)
  | p, .stat path => some (v.stat path, p)
  | p, .readFile path => some (v.content path, p)
  | p, .dirList path => some (v.list path, p)
  | p, .getuid => some (p.uid, p)
  | p, .getgid => some (p.gid, p)
  | p, .getpid => some (7, p)
  | p, .setuid uid => some (0, { p with uid := uid })
  | p, .setgid gid => some (0, { p with gid := gid })
  | p, .setgroups _ => some (0, p)
  | p, .prctl _ _ _ => some (0, p)
  | p, .capset _ _ data => some (0, { p with caps := data })
  | p, .capget _ _ => some (some p.caps, p)
  | p, .alloc _ => some (true, p)
  | p, .clockGettime => some (some 1000, p)
  | p, .readlink _ => some (none, p)
  | p, .open _ _ _ => some (-2, p)
  | p, .write _ data => some ((data.length : Int), p)
  | p, .appendLocked _ _ => some (0, p)
  | p, .closeRange _ => some (0, p)
  | p, .sakshiSetLevel => some ((), p)
  | p, .sakshiInfo _ => some ((), p)
  | p, .sakshiWarn _ => some ((), p)
  | p, .grpGetgrouplist _ _ _ => some ((0, []), p)
  | _, _ => none

/-- The machine answers from its view. -/
theorem FileView.machine_answers {α : Type} (v : FileView) (p : Proc) (prog : Sys α) :
    ∀ e ∈ (play v.machine p prog).1, v.Answers e := by
  induction prog generalizing p with
  | pure a => simp [play]
  | call c k ih =>
      rw [play]
      cases hc : v.machine p c with
      | none => simp
      | some answer =>
          obtain ⟨r, p'⟩ := answer
          have hr : v.Answers ⟨c, r⟩ := by
            cases c <;> first | trivial | (cases hc; rfl)
          simpa using ⟨hr, fun e he => ih r p' e he⟩

/-- A passwd file with root and one ordinary user. -/
def twoUsers : Bytes := utf8 "root:x:0:0:root:/root:/bin/sh\nal:x:1000:1000::/home/al:/bin/sh\n"

end Shakti
