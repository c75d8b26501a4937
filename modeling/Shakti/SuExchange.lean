import Shakti.HandedOver
import Shakti.Lib.Forking

/-!
# Shakti.SuExchange

How `su_authenticate` and the `su` it starts work together: a pipe, a fork, a password, and an
exit status, in any interleaving of the two.

* `Exchange` — what the kernel keeps of the two: their descriptors, the pipe, the life of the child
  and the program it has become. `su` itself is not read here: once it is executed it may read the
  pipe, do anything with its descriptors but open the pipe for writing, and end, at any time.
* `Delivery` — nothing but the password and a newline is sent, `su` alone reads it, and it has been
  sent whole when the writing end is closed.
* `suAuthenticate_delivers` — it holds in all interleavings. The two never wait for each other, the
  verdict is the exit status of `su`, and no descriptor and no child is left behind.
-/

namespace Shakti

open Effects Effects.World

/-- What a descriptor is open on. -/
inductive End
  | read
  | write
  | other
  deriving DecidableEq

/-- The life of the child. -/
inductive Life
  | unborn
  | alive
  | dead (status : Nat)
  | reaped (status : Nat)

/-- A program that was executed. -/
structure Image where
  path : CStr
  argv : List CStr
  env : List CStr

/-- What the kernel keeps of a process and its child, and of the pipe between them. -/
structure Exchange where
  parent : Int → Option End
  child : Int → Option End
  /-- What was read from the pipe, and what is still in it. -/
  taken : Bytes
  queue : Bytes
  pid : Int
  life : Life
  /-- What the child has become. -/
  image : Option Image

namespace Exchange

/-- All that was written to the pipe. -/
def sent (s : Exchange) : Bytes := s.taken ++ s.queue

/-- The child can read from the pipe. -/
def Held (s : Exchange) : Prop := ∃ fd, s.child fd = some .read

/-- Someone can. -/
def Readable (s : Exchange) : Prop := s.Held ∨ ∃ fd, s.parent fd = some .read

/-- Someone can write to it. -/
def Writable (s : Exchange) : Prop := ∃ fd, s.parent fd = some .write ∨ s.child fd = some .write

/-- Up to this many bytes are written to a pipe at once. -/
def pipeBuf : Nat := 4096

/-- `write`: the pipe takes all of it, or a part if it is long; without a reader, none. -/
structure Writes (s : Exchange) (fd : Int) (data : Bytes) (r : Int) (t : Exchange) : Prop where
  written : s.parent fd = some .write → s.Readable → ∃ n : Nat, n ≤ data.length ∧
    (data.length ≤ pipeBuf → n = data.length) ∧ r = n ∧
      t = { s with queue := s.queue ++ data.take n }
  refused : s.parent fd = some .write → ¬ s.Readable → r < 0 ∧ t = s
  elsewhere : s.parent fd ≠ some .write → t = s

/-- `waitpid`: it delivers the status of the child, once; it fails where no such child is left. -/
inductive Reaps (s : Exchange) (pid : Int) : Int × Nat → Exchange → Prop
  | status {st : Nat} : pid = s.pid → s.life = .dead st →
      Reaps s pid (pid, st) { s with life := .reaped st }
  | noChild {r : Int} {st : Nat} : r < 0 →
      (pid ≠ s.pid ∨ s.life = .unborn ∨ ∃ st, s.life = .reaped st) → Reaps s pid (r, st) s

/-- What the parent is answered. -/
def ParentAnswers (s : Exchange) : Event sysSig → Exchange → Prop
  | ⟨.pipe, r⟩, t =>
      match (r : Option (Int × Int)) with
      | none => t = s
      | some (rfd, wfd) => rfd ≠ wfd ∧ 0 ≤ rfd ∧ 0 ≤ wfd ∧ s.parent rfd = none ∧
          s.parent wfd = none ∧ ¬ s.Readable ∧ ¬ s.Writable ∧
          t = { s with parent := Function.update (Function.update s.parent rfd (some .read)) wfd
                                   (some .write)
                       taken := [], queue := [] }
  | ⟨.fork, (r : Int)⟩, t => r < 0 ∧ t = s
  | ⟨.close fd, _⟩, t => t = { s with parent := Function.update s.parent fd none }
  | ⟨.write fd data, r⟩, t => s.Writes fd data r t
  | ⟨.waitpid pid, r⟩, t => s.Reaps pid r t
  | _, t => t = s

/-- `fork`: the child has the descriptors of the parent. -/
inductive Forks (s : Exchange) : (c : SysCall) → c.Answer → c.Answer → Exchange → Prop
  | fork {pid : Int} : 0 < pid → (s.life = .unborn ∨ ∃ st, s.life = .reaped st) →
      Forks s .fork pid (0 : Int)
        { s with child := s.parent, pid := pid, life := .alive, image := none }

/-- `dup2`: it fails where the descriptor is not open. -/
inductive Dups (s : Exchange) (old new : Int) : Int → Exchange → Prop
  | copied {f : End} : s.child old = some f →
      Dups s old new new { s with child := Function.update s.child new (some f) }
  | closed {r : Int} : r < 0 → s.child old = none → Dups s old new r s

/-- What the child is answered. -/
def ChildAnswers (s : Exchange) : Event sysSig → Exchange → Prop
  | ⟨.close fd, _⟩, t => t = { s with child := Function.update s.child fd none }
  | ⟨.dup2 old new, r⟩, t => s.Dups old new r t
  | ⟨.open _ _ _, (r : Int)⟩, t => (r < 0 ∧ t = s) ∨ (0 ≤ r ∧ s.child r = none ∧
      t = { s with child := Function.update s.child r (some .other) })
  | ⟨.execve _ _ _ _, (r : Int)⟩, t => r < 0 ∧ t = s
  | _, t => t = s

/-- The child is gone, and its descriptors with it. -/
def ended (s : Exchange) (status : Nat) : Exchange :=
  { s with child := fun _ => none, life := .dead status }

/-- What ends the program in the child: a signal, an exit, and another program. -/
inductive Ends (s : Exchange) : SysCall → Exchange → Prop
  | killed {c : SysCall} {status : Nat} : status &&& 127 ≠ 0 → Ends s c (s.ended status)
  | exit {code : Int} : Ends s (.exit code) (s.ended ((code % 256).toNat <<< 8))
  | execve {site : ExecSite} {path : CStr} {argv env : List CStr} :
      Ends s (.execve site path argv env) { s with image := some ⟨path, argv, env⟩ }

/-- What the program may do that the child has become. -/
inductive Moves (s : Exchange) : Exchange → Prop
  | reads {fd : Int} {got rest : Bytes} : s.life = .alive → s.image.isSome →
      s.child fd = some .read → s.queue = got ++ rest →
      Moves s { s with taken := s.taken ++ got, queue := rest }
  | handles {fds : Int → Option End} : s.life = .alive → s.image.isSome →
      (∀ fd f, fds fd = some f → f = .other ∨ ∃ fd', s.child fd' = some f) →
      Moves s { s with child := fds }
  | ends {status : Nat} : s.life = .alive → s.image.isSome → Moves s (s.ended status)

end Exchange

/-- The machine the two run on. -/
def suMachine : Forking sysSig Exchange where
  parent s c r t := s.ParentAnswers ⟨c, r⟩ t
  child s c r t := s.ChildAnswers ⟨c, r⟩ t
  forks s c r r' t := s.Forks c r r' t
  ends s c t := s.Ends c t
  other s t := s.Moves t

/-! ### What holds of an exchange -/

/-- The status says that the program has ended well. -/
def Accepts (status : Nat) : Prop := status &&& 127 = 0 ∧ status >>> 8 &&& 255 = 0

/-- `su`, as it is executed for a user. -/
def suImage (username : CStr) : Image where
  path := cstr "/usr/bin/su"
  argv := [cstr "/usr/bin/su", cstr "-c", cstr "true", username]
  env := []

namespace Exchange

variable {im : Image} {data : Bytes} {s t : Exchange}

/-- Nobody reads from the pipe but the program that the child has become; this is `im`, it cannot
write to the pipe, and no other end of the child counts as a success. -/
structure Sound (im : Image) (s : Exchange) : Prop where
  image : ∀ i, s.image = some i → i = im ∧ ∀ fd, s.child fd ≠ some .write
  unread : s.image = none → s.taken = []
  accepted : ∀ status, s.life = .dead status → Accepts status → s.image.isSome

/-- Of the bytes `data`, nothing but a beginning is sent; and when the parent cannot write any more
while the child can read, all of them. -/
structure Delivery (im : Image) (data : Bytes) (s : Exchange) : Prop where
  sound : s.Sound im
  sent : s.sent <+: data
  whole : (∀ fd, s.parent fd ≠ some .write) → s.Held → s.sent = data

/-- What the parent relies on: what the child does, and the program it becomes. -/
structure Moved (im : Image) (s t : Exchange) : Prop where
  alive : s.life = .alive
  lives : t.life = .alive ∨ ∃ status, t.life = .dead status
  parent : t.parent = s.parent
  pid : t.pid = s.pid
  sent : t.sent = s.sent
  held : t.Held → s.Held
  sound : s.Sound im → t.Sound im

/-- What each relies on of the other. -/
def Relies (im : Image) : Forking.Role → Exchange → Exchange → Prop
  | .parent, s, t => Moved im s t
  | .child, s, t => s.image = none → s.life = .alive →
      t.child = s.child ∧ t.image = none ∧ t.life = .alive

/-- The child runs the program it was forked with, and its descriptors are such. -/
structure Child (Q : (Int → Option End) → Prop) (s : Exchange) : Prop where
  fds : Q s.child
  image : s.image = none
  alive : s.life = .alive

/-- The descriptors `su` is to be executed with: its stdin is the pipe, which it cannot write to. -/
def Prepared (fds : Int → Option End) : Prop := fds 0 = some .read ∧ ∀ fd, fds fd ≠ some .write

/-- What holds at the calls of the two. `fds` are the descriptors of the parent at the start. -/
def Guard (im : Image) (data : Bytes) (fds : Int → Option End) :
    Exchange × Forking.Role → SysCall → Prop
  | (s, .parent), c => s.Delivery im data ∧ ∀ pid, c = .waitpid pid →
      pid = s.pid ∧ s.parent = fds ∧ (s.life = .alive ∨ ∃ status, s.life = .dead status)
  | (s, .child), c => s.image = none ∧ s.life = .alive ∧
      (∀ site path argv env, c = .execve site path argv env →
        ⟨path, argv, env⟩ = im ∧ s.Child Prepared) ∧
      ∀ code, c = .exit code → code = 127

/-- What holds when the parent returns; the child never does. -/
def Done (im : Image) (data : Bytes) (fds : Int → Option End) :
    Exchange × Forking.Role → Int → Prop
  | (s, .parent), r => s.Delivery im data ∧ s.parent = fds ∧
      ((s.life = .unborn ∧ r ≠ 1) ∨ ∃ status, s.life = .reaped status ∧
        (r = 1 → Accepts status ∧ s.image = some im))
  | (_, .child), _ => False

theorem not_held_ended {status : Nat} : ¬ (s.ended status).Held := by
  rintro ⟨fd, hfd⟩
  cases hfd

theorem Ends.moved {fds : Int → Option End} {c : SysCall}
    (hG : Guard im data fds (s, .child) c) (h : s.Ends c t) : Moved im s t := by
  obtain ⟨himage, halive, hexec, hexit⟩ := hG
  cases h with
  | killed hstatus =>
      refine ⟨halive, Or.inr ⟨_, rfl⟩, rfl, rfl, rfl, fun h => absurd h not_held_ended,
        fun hs => ?_⟩
      refine ⟨fun i hi => ?_, hs.unread, fun status hst hok => ?_⟩
      · rw [show s.image = some i from hi] at himage
        cases himage
      · cases hst
        exact absurd hok.1 hstatus
  | exit =>
      obtain rfl := hexit _ rfl
      refine ⟨halive, Or.inr ⟨_, rfl⟩, rfl, rfl, rfl, fun h => absurd h not_held_ended,
        fun hs => ?_⟩
      refine ⟨fun i hi => ?_, hs.unread, fun status hst hok => ?_⟩
      · rw [show s.image = some i from hi] at himage
        cases himage
      · cases hst
        exact absurd hok.2 (by decide)
  | execve =>
      obtain ⟨rfl, hready⟩ := hexec _ _ _ _ rfl
      refine ⟨halive, Or.inl halive, rfl, rfl, rfl, id, fun hs => ⟨fun i hi => ?_, ?_, ?_⟩⟩
      · cases hi
        exact ⟨rfl, hready.fds.2⟩
      · exact fun h => by cases h
      · exact fun _ _ _ => rfl

theorem Moves.moved (h : s.Moves t) : Moved im s t := by
  cases h with
  | reads halive himage hfd hqueue =>
      refine ⟨halive, Or.inl halive, rfl, rfl, ?_, id, fun hs => ⟨hs.image, fun hnone => ?_, ?_⟩⟩
      · simp [sent, hqueue]
      · rw [show s.image = none from hnone] at himage
        cases himage
      · exact fun _ _ _ => himage
  | handles halive himage hfds =>
      refine ⟨halive, Or.inl halive, rfl, rfl, rfl, ?_, fun hs => ⟨fun i hi => ?_, hs.unread, ?_⟩⟩
      · rintro ⟨fd, hfd⟩
        rcases hfds fd _ hfd with h | h
        · cases h
        · exact h
      · obtain ⟨hi, hnoWrite⟩ := hs.image i hi
        refine ⟨hi, fun fd hfd => ?_⟩
        rcases hfds fd _ hfd with h | ⟨fd', hfd'⟩
        · cases h
        · exact hnoWrite fd' hfd'
      · exact fun _ _ _ => himage
  | ends halive himage =>
      refine ⟨halive, Or.inr ⟨_, rfl⟩, rfl, rfl, rfl, fun h => absurd h not_held_ended,
        fun hs => ?_⟩
      refine ⟨fun i hi => ⟨(hs.image i hi).1, fun fd hfd => by cases hfd⟩, hs.unread, ?_⟩
      exact fun _ _ _ => himage

/-- A change of the descriptors of a child that opens no end of the pipe anew. -/
theorem moved_fds {fds : Int → Option End} (himage : s.image = none) (halive : s.life = .alive)
    (hfds : ∀ fd, fds fd = some .read → s.Held) : Moved im s { s with child := fds } where
  alive := halive
  lives := Or.inl halive
  parent := rfl
  pid := rfl
  sent := rfl
  held := by
    rintro ⟨fd, hfd⟩
    exact hfds fd hfd
  sound hs := by
    refine ⟨fun i hi => ?_, hs.unread, fun status hst => ?_⟩
    · rw [show s.image = some i from hi] at himage
      cases himage
    · rw [show s.life = .dead status from hst] at halive
      cases halive

theorem moved_self (himage : s.image = none) (halive : s.life = .alive) : Moved im s s :=
  moved_fds himage halive fun fd hfd => ⟨fd, hfd⟩

theorem ChildAnswers.moved {c : SysCall} {r : c.Answer} (himage : s.image = none)
    (halive : s.life = .alive) (h : s.ChildAnswers ⟨c, r⟩ t) : Moved im s t := by
  have hsame (ht : t = s) : Moved im s t := by
    subst ht
    exact moved_self himage halive
  have hupdate {fd : Int} {f : Option End} (hf : f = some .read → s.Held) :
      Moved im s { s with child := Function.update s.child fd f } := by
    refine moved_fds himage halive fun x hx => ?_
    by_cases hxfd : x = fd
    · subst hxfd
      rw [Function.update_self] at hx
      exact hf hx
    · rw [Function.update_of_ne hxfd] at hx
      exact ⟨x, hx⟩
  cases c with
  | close fd =>
      obtain rfl := h
      exact hupdate fun hf => by cases hf
  | dup2 old new =>
      cases h with
      | copied hold => exact hupdate fun hf => ⟨old, hold.trans hf⟩
      | closed _ _ => exact moved_self himage halive
  | «open» path flags mode =>
      rcases h with ⟨-, rfl⟩ | ⟨-, -, rfl⟩
      · exact moved_self himage halive
      · exact hupdate fun hf => by cases hf
  | execve site path argv env => exact hsame h.2
  | _ => exact hsame h

theorem ParentAnswers.relied {c : SysCall} {r : c.Answer} (halive : s.life = .alive)
    (h : s.ParentAnswers ⟨c, r⟩ t) :
    t.child = s.child ∧ t.image = s.image ∧ t.life = .alive := by
  have hsame {t : Exchange} (ht : t = s) :
      t.child = s.child ∧ t.image = s.image ∧ t.life = .alive := by
    subst ht
    exact ⟨rfl, rfl, halive⟩
  cases c with
  | pipe =>
      rcases r with _ | ⟨rfd, wfd⟩
      · exact hsame h
      · obtain ⟨-, -, -, -, -, -, -, rfl⟩ := h
        exact ⟨rfl, rfl, halive⟩
  | fork => exact hsame h.2
  | close fd =>
      obtain rfl := h
      exact ⟨rfl, rfl, halive⟩
  | write fd data =>
      obtain ⟨hwritten, hrefused, helsewhere⟩ := h
      by_cases hfd : s.parent fd = some .write
      · by_cases hreader : s.Readable
        · obtain ⟨n, -, -, -, rfl⟩ := hwritten hfd hreader
          exact ⟨rfl, rfl, halive⟩
        · exact hsame (hrefused hfd hreader).2
      · exact hsame (helsewhere hfd)
  | waitpid pid =>
      cases h with
      | status _ hdead =>
          rw [halive] at hdead
          cases hdead
      | noChild _ _ => exact ⟨rfl, rfl, halive⟩
  | _ => exact hsame h

/-- Each of the two keeps to what the other relies on. -/
theorem compatible (im : Image) (data : Bytes) (fds : Int → Option End) :
    suMachine.Compatible (Relies im) (Guard im data fds) where
  parent s c r s' _ hans himage halive := by
    obtain ⟨hchild, himage', halive'⟩ := ParentAnswers.relied halive hans
    exact ⟨hchild, himage'.trans himage, halive'⟩
  child s c r s' hG hans := ChildAnswers.moved hG.1 hG.2.1 hans
  ends s c s' hG hends := Ends.moved hG hends
  other role s s' hmove := by
    cases role with
    | parent => exact Moves.moved hmove
    | child =>
        intro himage _
        cases hmove with
        | reads _ h | handles _ h | ends _ h =>
            rw [himage] at h
            cases h

/-- Nothing moves after the parent has returned. -/
theorem Done.stays {role : Forking.Role} {fds : Int → Option End} {r : Int}
    (hdone : Done im data fds (s, role) r) (hR : Relies im role s t) :
    Done im data fds (t, role) r := by
  cases role with
  | child => exact hdone.elim
  | parent =>
      have halive := hR.alive
      rcases hdone.2.2 with ⟨hunborn, -⟩ | ⟨status, hreaped, -⟩
      · rw [hunborn] at halive
        cases halive
      · rw [hreaped] at halive
        cases halive

/-- A descriptor that was free is closed. -/
theorem closed_opened {T : Int → Option End} {fd : Int} {f : Option End} (hfree : T fd = none) :
    Function.update (Function.update T fd f) fd none = T := by
  rw [Function.update_idem, ← hfree, Function.update_eq_self]

/-- So is the first of two. -/
theorem closed_opened_opened {T : Int → Option End} {fd fd' : Int} {f f' : Option End}
    (hne : fd ≠ fd') (hfree : T fd = none) :
    Function.update (Function.update (Function.update T fd f) fd' f') fd none =
      Function.update T fd' f' := by
  rw [Function.update_comm hne.symm, closed_opened hfree]

/-! ### The child -/

variable {fds : Int → Option End}

/-- A program of one of the two works, as far as its view goes. -/
abbrev Works {α : Type} (im : Image) (data : Bytes) (fds : Int → Option End)
    (post : Exchange × Forking.Role → α → Prop) (s : Exchange) (role : Forking.Role)
    (p : Sys α) : Prop :=
  Safe (suMachine.view (Relies im)) (Guard im data fds) post (s, role) p

variable {α : Type} {post : Exchange × Forking.Role → α → Prop}

/-- A call of the child. -/
theorem works_child {Q : (Int → Option End) → Prop} {c : SysCall} {k : c.Answer → Sys α}
    (hs : s.Child Q)
    (hexec : ∀ site path argv env, c = .execve site path argv env →
      ⟨path, argv, env⟩ = im ∧ ∀ T, Q T → Prepared T)
    (hexit : ∀ code, c = .exit code → code = 127)
    (hk : ∀ (u : Exchange) r t, u.Child Q → u.ChildAnswers ⟨c, r⟩ t →
      Works im data fds post t .child (k r)) :
    Works im data fds post s .child (sys c >>= k) := by
  refine Safe.call_while (P := fun m => m.2 = .child ∧ m.1.Child Q) ?_ ⟨rfl, hs⟩ ?_ ?_
  · rintro ⟨u, _⟩ ⟨u', role'⟩ ⟨rfl, hu⟩ ⟨hrole, hmove⟩
    obtain rfl : role' = .child := hrole
    obtain ⟨hchild, himage, halive⟩ := hmove hu.image hu.alive
    exact ⟨rfl, ⟨by rw [hchild]; exact hu.fds, himage, halive⟩⟩
  · rintro ⟨u, _⟩ ⟨rfl, hu⟩
    refine ⟨hu.image, hu.alive, fun site path argv env h => ?_, hexit⟩
    obtain ⟨him, hQ⟩ := hexec site path argv env h
    exact ⟨him, hQ _ hu.fds, hu.image, hu.alive⟩
  · rintro ⟨u, _⟩ r t ⟨rfl, hu⟩ hans
    obtain ⟨t, rfl, hchild⟩ := Forking.View.child_inv hans
    exact hk u r t hu hchild

theorem works_exit (hs : s.Child Prepared) :
    Works im data fds post s .child (sysExit 127 : Sys α) :=
  works_child hs (by simp) (by simp) fun _ r => r.elim

/-- What the child does to its other descriptors leaves it prepared. -/
theorem Prepared.update {T : Int → Option End} {fd : Int} {f : Option End} (h : Prepared T)
    (hfd : fd ≠ 0) (hf : f ≠ some .write) : Prepared (Function.update T fd f) := by
  refine ⟨?_, fun x hx => ?_⟩
  · rw [Function.update_of_ne hfd.symm]
    exact h.1
  · by_cases hxfd : x = fd
    · subst hxfd
      rw [Function.update_self] at hx
      exact hf hx
    · rw [Function.update_of_ne hxfd] at hx
      exact h.2 x hx

theorem Child.update {fd : Int} {f : Option End} (hs : s.Child Prepared) (hfd : fd ≠ 0)
    (hf : f ≠ some .write) :
    ({ s with child := Function.update s.child fd f } : Exchange).Child Prepared :=
  ⟨hs.fds.update hfd hf, hs.image, hs.alive⟩

theorem Dups.prepared {old new : Int} {r : Int} (hs : s.Child Prepared) (hnew : new ≠ 0)
    (h : s.Dups old new r t) : t.Child Prepared := by
  cases h with
  | copied hold => exact hs.update hnew fun hf => hs.fds.2 old (hold.trans hf)
  | closed _ _ => exact hs

theorem works_suExec {post : Exchange × Forking.Role → Int → Prop} (hs : s.Child Prepared)
    (username : CStr) :
    Works (suImage username) data fds post s .child (suChild.suExec username) := by
  refine works_child hs (by simp) (by simp) fun u argv t hu hans => ?_
  obtain rfl : t = u := hans
  refine Safe.ite (fun _ => works_exit hu) fun _ => ?_
  refine works_child hu (by simp) (by simp) fun v envp t hv hans => ?_
  obtain rfl : t = v := hans
  refine Safe.ite (fun _ => works_exit hv) fun _ => ?_
  refine works_child hv ?_ (by simp) fun w r t hw hans => ?_
  · intro site path argv env h
    cases h
    exact ⟨rfl, fun _ => id⟩
  · obtain ⟨-, rfl⟩ := hans
    exact works_exit hw

/-- The child gets ready, and becomes `su`. -/
theorem works_suChild {post : Exchange × Forking.Role → Int → Prop} {T : Int → Option End}
    {rfd wfd : Int} (hne : rfd ≠ wfd)
    (hplain : ∀ fd f, T fd = some f → f = .other) (hstdin : T 0 ≠ none) (hr : T rfd = none)
    (hw : T wfd = none)
    (hs : s.Child fun F =>
      F = Function.update (Function.update T rfd (some .read)) wfd (some .write))
    (username : CStr) :
    Works (suImage username) data fds post s .child (suChild rfd wfd username) := by
  have hrfd : rfd ≠ 0 := fun h => hstdin (h ▸ hr)
  refine works_child hs (by simp) (by simp) fun u _ t hu hans => ?_
  have ht : t.Child fun F => F = Function.update T rfd (some .read) := by
    obtain rfl := hans
    refine ⟨?_, hu.image, hu.alive⟩
    show Function.update u.child wfd none = _
    rw [hu.fds]
    exact closed_opened ((Function.update_of_ne hne.symm ..).trans hw)
  refine works_child ht (by simp) (by simp) fun u _ t hu hans => ?_
  have ht : t.Child Prepared := by
    have hread : u.child rfd = some .read := by rw [hu.fds, Function.update_self]
    cases hans with
    | closed _ hclosed =>
        rw [hread] at hclosed
        cases hclosed
    | copied hcopied =>
        obtain rfl := Option.some.inj (hread.symm.trans hcopied)
        have hprepared : Prepared (Function.update u.child 0 (some .read)) := by
          refine ⟨Function.update_self .., fun x hx => ?_⟩
          by_cases hx0 : x = 0
          · rw [hx0, Function.update_self] at hx
            cases hx
          rw [Function.update_of_ne hx0, hu.fds] at hx
          by_cases hxr : x = rfd
          · rw [hxr, Function.update_self] at hx
            cases hx
          · rw [Function.update_of_ne hxr] at hx
            cases hplain x _ hx
        exact ⟨hprepared, hu.image, hu.alive⟩
  refine works_child ht (by simp) (by simp) fun u _ t hu hans => ?_
  obtain rfl := hans
  refine works_child (hu.update hrfd (by simp)) (by simp) (by simp) fun u devnull t hu hans => ?_
  rcases hans with ⟨hneg, rfl⟩ | ⟨hpos, hfree, rfl⟩
  · exact Safe.ite (fun h => by omega) fun _ => works_suExec hu username
  have hdev : devnull ≠ (0 : Int) := by
    rintro rfl
    rw [hu.fds.1] at hfree
    cases hfree
  refine Safe.ite (fun _ => ?_) fun h => absurd hpos h
  refine works_child (hu.update hdev (by simp)) (by simp) (by simp) fun u _ t hu hans => ?_
  refine works_child (hans.prepared hu (by decide)) (by simp) (by simp) fun u _ t hu hans => ?_
  refine works_child (hans.prepared hu (by decide)) (by simp) (by simp) fun u _ t hu hans => ?_
  obtain rfl := hans
  exact works_suExec (hu.update hdev (by simp)) username

/-! ### The parent -/

/-- The parent after the fork: its descriptors are `T`, and it has sent `D`, if there is a reader
at all. -/
structure Sending (im : Image) (pid : Int) (T : Int → Option End) (D : Bytes) (s : Exchange) :
    Prop where
  sound : s.Sound im
  table : s.parent = T
  pid : s.pid = pid
  sent : s.sent <+: D
  whole : s.Held → s.sent = D
  born : s.life = .alive ∨ ∃ status, s.life = .dead status

variable {pid : Int} {T : Int → Option End} {D : Bytes}

theorem Sending.moved (hs : s.Sending im pid T D) (h : Moved im s t) : t.Sending im pid T D where
  sound := h.sound hs.sound
  table := h.parent.trans hs.table
  pid := h.pid.trans hs.pid
  sent := h.sent ▸ hs.sent
  whole hheld := h.sent.trans (hs.whole (h.held hheld))
  born := h.lives

/-- With the writing end closed, it is all that is to be sent. -/
theorem Sending.delivery (hs : s.Sending im pid T D) (hD : D <+: data)
    (hT : (∀ fd, T fd ≠ some .write) → D = data) : s.Delivery im data where
  sound := hs.sound
  sent := hs.sent.trans hD
  whole hclosed hheld := (hs.whole hheld).trans (hT fun fd => hs.table ▸ hclosed fd)

/-- A call of the parent. -/
theorem works_parent {c : SysCall} {k : c.Answer → Sys α} (hs : s.Sending im pid T D)
    (hD : D <+: data) (hT : (∀ fd, T fd ≠ some .write) → D = data) (hfork : c ≠ .fork)
    (hwait : ∀ pid', c = .waitpid pid' → pid' = pid ∧ T = fds)
    (hk : ∀ (u : Exchange) r t, u.Sending im pid T D → u.ParentAnswers ⟨c, r⟩ t →
      Works im data fds post t .parent (k r)) :
    Works im data fds post s .parent (sys c >>= k) := by
  refine Safe.call_while (P := fun m => m.2 = .parent ∧ m.1.Sending im pid T D) ?_ ⟨rfl, hs⟩ ?_ ?_
  · rintro ⟨u, _⟩ ⟨u', role'⟩ ⟨rfl, hu⟩ ⟨hrole, hmove⟩
    obtain rfl : role' = .parent := hrole
    exact ⟨rfl, hu.moved hmove⟩
  · rintro ⟨u, _⟩ ⟨rfl, hu⟩
    refine ⟨hu.delivery hD hT, fun pid' hc => ?_⟩
    obtain ⟨rfl, rfl⟩ := hwait pid' hc
    exact ⟨hu.pid.symm, hu.table, hu.born⟩
  · rintro ⟨u, _⟩ r t ⟨rfl, hu⟩ hans
    rcases Forking.View.parent_inv hans with ⟨t, rfl, hparent | ⟨r', hforks⟩⟩ | ⟨t, r', -, hforks⟩
    · exact hk u r t hu hparent
    · cases hforks
      exact absurd rfl hfork
    · cases hforks
      exact absurd rfl hfork

/-- What is written to the pipe. -/
theorem Sending.write {fd : Int} {bytes : Bytes} {r : Int} (hs : s.Sending im pid T D)
    (hfd : T fd = some .write) (hread : ∀ x, T x ≠ some .read) (hlen : bytes.length ≤ pipeBuf)
    (h : s.Writes fd bytes r t) : t.Sending im pid T (D ++ bytes) := by
  have hwrite : s.parent fd = some .write := hs.table ▸ hfd
  by_cases hreader : s.Readable
  · have hheld : s.Held := by
      rcases hreader with hheld | ⟨x, hx⟩
      · exact hheld
      · exact absurd (hs.table ▸ hx) (hread x)
    obtain ⟨n, -, hn, -, rfl⟩ := h.written hwrite hreader
    have hsent : ({ s with queue := s.queue ++ bytes.take n } : Exchange).sent = D ++ bytes := by
      show s.taken ++ (s.queue ++ bytes.take n) = D ++ bytes
      rw [hn hlen, List.take_length, ← List.append_assoc]
      exact congrArg (· ++ bytes) (hs.whole hheld)
    exact ⟨⟨hs.sound.image, hs.sound.unread, hs.sound.accepted⟩, hs.table, hs.pid,
      hsent ▸ List.prefix_rfl, fun _ => hsent, hs.born⟩
  · obtain ⟨-, rfl⟩ := h.refused hwrite hreader
    exact ⟨hs.sound, hs.table, hs.pid, hs.sent.trans (List.prefix_append ..),
      fun hheld => absurd (Or.inl hheld) hreader, hs.born⟩

/-- A part of the bytes is written. -/
theorem works_write {fd : Int} {bytes : Bytes} {k : Unit → Sys α}
    (hs : s.Sending im pid T D) (hD : D <+: data) (hfd : T fd = some .write)
    (hread : ∀ x, T x ≠ some .read) (hlen : bytes.length ≤ pipeBuf)
    (hk : ∀ t : Exchange, t.Sending im pid T (D ++ bytes) →
      Works im data fds post t .parent (k ())) :
    Works im data fds post s .parent (fileWrite fd bytes >>= k) := by
  show Works im data fds post s .parent (sys (.write fd bytes) >>= fun _ => k ())
  refine works_parent hs hD (fun h => absurd hfd (h fd)) (by simp) (by simp) fun u r t hu hans => ?_
  exact hk t (hu.write hfd hread hlen hans)

/-- The verdict on a status that was waited for. -/
theorem done_reaped {u : Exchange} {r : Int} {status : Nat} (hu : u.Sending im pid T data)
    (hdead : u.life = .dead status) (hr : r = 1 → Accepts status) :
    Done im data T ({ u with life := .reaped status }, .parent) r := by
  refine ⟨⟨⟨hu.sound.image, hu.sound.unread, by simp⟩, hu.sent, fun _ => hu.whole⟩, hu.table,
    Or.inr ⟨status, rfl, fun h => ⟨hr h, ?_⟩⟩⟩
  obtain ⟨i, hi⟩ := Option.isSome_iff_exists.mp (hu.sound.accepted status hdead (hr h))
  exact hi.trans (congrArg some (hu.sound.image i hi).1)

/-- The parent waits for its child. -/
theorem works_waitpid {k : Int × Nat → Sys α} (hs : s.Sending im pid T data)
    (hk : ∀ (u : Exchange) status, u.Sending im pid T data → u.life = .dead status →
      Works im data T post { u with life := .reaped status } .parent (k (pid, status))) :
    Works im data T post s .parent (sys (.waitpid pid) >>= k) := by
  refine works_parent hs List.prefix_rfl (fun _ => rfl) (by simp) (by simp) fun u r t hu hans => ?_
  cases hans with
  | status _ hdead => exact hk u _ hu hdead
  | noChild _ hgone =>
      rcases hgone with h | h | ⟨status, h⟩
      · exact absurd hu.pid.symm h
      · rcases hu.born with halive | ⟨status, hdead⟩
        · rw [h] at halive
          cases halive
        · rw [h] at hdead
          cases hdead
      · rcases hu.born with halive | ⟨status, hdead⟩
        · rw [h] at halive
          cases halive
        · rw [h] at hdead
          cases hdead

/-- The parent sends the password, closes the pipe, and waits. -/
theorem works_suParent {rfd wfd : Int} {password : CStr} (hne : rfd ≠ wfd) (hpid : 0 < pid)
    (hplain : ∀ fd f, T fd = some f → f = .other) (hr : T rfd = none) (hw : T wfd = none)
    (hlen : password.length ≤ pipeBuf)
    (hs : s.Sending im pid
      (Function.update (Function.update T rfd (some .read)) wfd (some .write)) []) :
    Works im (password.bytes ++ utf8 "\n") T (Done im (password.bytes ++ utf8 "\n") T) s .parent
      (suParent rfd wfd pid password) := by
  have hwrites : Function.update T wfd (some End.write) wfd = some .write := Function.update_self ..
  have hreads : ∀ x, Function.update T wfd (some End.write) x ≠ some .read := by
    intro x hx
    by_cases hxw : x = wfd
    · rw [hxw, Function.update_self] at hx
      cases hx
    · rw [Function.update_of_ne hxw] at hx
      cases hplain x _ hx
  have hopen (T' : Int → Option End) :
      (∀ fd, Function.update T' wfd (some End.write) fd ≠ some .write) →
        [] = password.bytes ++ utf8 "\n" :=
    fun h => absurd (Function.update_self ..) (h wfd)
  refine works_parent hs List.nil_prefix (hopen _) (by simp) (by simp) fun u _ t hu hans => ?_
  obtain rfl := hans
  have ht : ({ u with parent := Function.update u.parent rfd none } : Exchange).Sending im pid
      (Function.update T wfd (some .write)) [] := by
    refine ⟨⟨hu.sound.image, hu.sound.unread, hu.sound.accepted⟩, ?_, hu.pid, hu.sent, hu.whole,
      hu.born⟩
    show Function.update u.parent rfd none = _
    rw [hu.table, closed_opened_opened hne hr]
  have hpassword : Works im (password.bytes ++ utf8 "\n") T
      (fun v _ => v.2 = .parent ∧
        v.1.Sending im pid (Function.update T wfd (some .write)) password.bytes)
      { u with parent := Function.update u.parent rfd none } .parent
      (if 0 < password.length then fileWrite wfd password.bytes else pure ()) := by
    refine Safe.ite (fun _ => ?_) fun hempty => ⟨rfl, ?_⟩
    · exact works_write ht List.nil_prefix hwrites hreads hlen fun v hv => ⟨rfl, hv⟩
    · have hnil : password.bytes = [] :=
        List.length_eq_zero_iff.mp (Nat.le_zero.mp (not_lt.mp hempty))
      rw [hnil]
      exact ht
  refine Safe.bind hpassword ?_
  rintro ⟨v, _⟩ _ ⟨rfl, hv⟩
  refine works_write hv (List.prefix_append ..) hwrites hreads (by decide) fun v hv => ?_
  refine works_parent hv List.prefix_rfl (fun _ => rfl) (by simp) (by simp)
    fun u _ t hu hans => ?_
  obtain rfl := hans
  have ht : ({ u with parent := Function.update u.parent wfd none } : Exchange).Sending im pid T
      (password.bytes ++ utf8 "\n") := by
    refine ⟨⟨hu.sound.image, hu.sound.unread, hu.sound.accepted⟩, ?_, hu.pid, hu.sent, hu.whole,
      hu.born⟩
    show Function.update u.parent wfd none = T
    rw [hu.table, closed_opened hw]
  refine works_parent ht List.prefix_rfl (fun _ => rfl) (by simp) (by simp)
    fun u stbuf t hu hans => ?_
  obtain rfl : t = u := hans
  refine Safe.ite (fun _ => works_waitpid hu fun v status hv hdead => ?_) fun _ =>
    works_waitpid hu fun v status hv hdead => ?_
  · exact done_reaped hv hdead fun h => absurd h (by decide)
  · refine Safe.ite (fun h => by omega) fun _ => Safe.ite (fun haccepts => ?_) fun _ => ?_
    · exact done_reaped hv hdead fun _ => haccepts
    · exact done_reaped hv hdead fun h => absurd h (by decide)

/-! ### The two together -/

/-- There is no child yet, and nothing was sent. -/
structure Unborn (s : Exchange) : Prop where
  life : s.life = .unborn
  image : s.image = none
  child : ∀ fd, s.child fd = none
  unsent : s.taken = [] ∧ s.queue = []

/-- A process that has no pipe, and its stdin open. -/
structure Fresh (s : Exchange) : Prop extends Unborn s where
  plain : ∀ fd f, s.parent fd = some f → f = .other
  stdin : s.parent 0 ≠ none

theorem Fresh.not_readable (hs : s.Fresh) : ¬ s.Readable := by
  rintro (⟨fd, hfd⟩ | ⟨fd, hfd⟩)
  · cases (hs.child fd).symm.trans hfd
  · cases hs.plain fd _ hfd

theorem Fresh.not_writable (hs : s.Fresh) : ¬ s.Writable := by
  rintro ⟨fd, hfd | hfd⟩
  · cases hs.plain fd _ hfd
  · cases (hs.child fd).symm.trans hfd

theorem Unborn.delivery (hs : s.Unborn) : s.Delivery im data := by
  have hsent : s.sent = [] := by
    show s.taken ++ s.queue = []
    rw [hs.unsent.1, hs.unsent.2, List.append_nil]
  refine ⟨⟨fun i hi => ?_, fun _ => hs.unsent.1, fun status hst => ?_⟩, hsent ▸ List.nil_prefix, ?_⟩
  · cases hs.image.symm.trans hi
  · cases hs.life.symm.trans hst
  · rintro - ⟨fd, hfd⟩
    cases (hs.child fd).symm.trans hfd

/-- A call before the fork, or the fork. -/
theorem works_unborn {c : SysCall} {k : c.Answer → Sys α} (hs : s.Unborn)
    (hwait : ∀ pid, c ≠ .waitpid pid)
    (hk : ∀ r v, suMachine.View (s, .parent) c r v →
      Works im data fds post v.1 v.2 (k r)) :
    Works im data fds post s .parent (sys c >>= k) := by
  refine Safe.call_while (P := fun m => m = (s, .parent)) ?_ rfl ?_ ?_
  · rintro _ ⟨u, role⟩ rfl ⟨-, hmove⟩
    cases hs.life.symm.trans (Moved.alive hmove)
  · rintro _ rfl
    exact ⟨hs.delivery, fun pid hc => absurd hc (hwait pid)⟩
  · rintro _ r v rfl hans
    exact hk r v hans

/-- A call before the fork. -/
theorem works_before {c : SysCall} {k : c.Answer → Sys α} (hs : s.Unborn)
    (hwait : ∀ pid, c ≠ .waitpid pid) (hfork : c ≠ .fork)
    (hk : ∀ r t, s.ParentAnswers ⟨c, r⟩ t → Works im data fds post t .parent (k r)) :
    Works im data fds post s .parent (sys c >>= k) := by
  refine works_unborn hs hwait fun r v hans => ?_
  rcases Forking.View.parent_inv hans with ⟨t, rfl, hparent | ⟨r', hforks⟩⟩ | ⟨t, r', -, hforks⟩
  · exact hk r t hparent
  · cases hforks
    exact absurd rfl hfork
  · cases hforks
    exact absurd rfl hfork

theorem Unborn.done {r : Int} (hs : s.Unborn) (hfds : s.parent = fds) (hr : r ≠ 1) :
    Done im data fds (s, .parent) r :=
  ⟨hs.delivery, hfds, Or.inl ⟨hs.life, hr⟩⟩

/-- The program of both, as far as their views go. -/
theorem works_suAuthenticate (hs : s.Fresh) (username : CStr) {password : CStr}
    (hlen : password.length ≤ pipeBuf) :
    Works (suImage username) (password.bytes ++ utf8 "\n") s.parent
      (Done (suImage username) (password.bytes ++ utf8 "\n") s.parent) s .parent
      (suAuthenticate username password) := by
  refine works_before hs.toUnborn (by simp) (by simp) fun pfd t hans => ?_
  obtain rfl : s = t := Eq.symm hans
  refine Safe.ite (fun _ => hs.toUnborn.done rfl (by decide)) fun _ => ?_
  refine works_before hs.toUnborn (by simp) (by simp) fun ends t hans => ?_
  rcases ends with _ | ⟨rfd, wfd⟩
  · obtain rfl : s = t := Eq.symm hans
    exact hs.toUnborn.done rfl (by decide)
  obtain ⟨hne, -, -, hr, hw, -, -, rfl⟩ := hans
  have hpipe (T : Int → Option End) :
      Unborn { s with parent := T, taken := [], queue := [] } :=
    ⟨hs.life, hs.image, hs.child, rfl, rfl⟩
  refine works_unborn (hpipe _) (by simp) fun pid v hans => ?_
  rcases Forking.View.parent_inv hans with ⟨t, rfl, hfail | ⟨r', hforks⟩⟩ | ⟨t, r', rfl, hforks⟩
  · obtain ⟨hneg, rfl⟩ := hfail
    refine Safe.ite (fun _ => ?_) fun h => absurd hneg h
    refine works_before (hpipe _) (by simp) (by simp) fun _ t hans => ?_
    obtain rfl := hans
    refine works_before (hpipe _) (by simp) (by simp) fun _ t hans => ?_
    obtain rfl := hans
    refine (hpipe _).done ?_ (by decide)
    show Function.update (Function.update (Function.update (Function.update s.parent rfd
      (some End.read)) wfd (some End.write)) rfd none) wfd none = s.parent
    rw [closed_opened_opened hne hr, closed_opened hw]
  · cases hforks with
    | fork hpos hfree =>
        refine Safe.ite (fun h => by omega) fun _ => Safe.ite (fun h => by omega) fun _ => ?_
        refine works_suParent hne hpos hs.plain hr hw hlen ?_
        exact ⟨⟨nofun, fun _ => rfl, nofun⟩, rfl, rfl, List.prefix_rfl, fun _ => rfl, Or.inl rfl⟩
  · cases hforks with
    | fork hpos hfree =>
        refine Safe.ite (fun h => by omega) fun _ => Safe.ite (fun _ => ?_) fun h => absurd rfl h
        exact works_suChild hne hs.plain hs.stdin hr hw ⟨rfl, rfl, rfl⟩ username

end Exchange

/-- What holds of the two at any time: `s` is the state in which they began. -/
structure Delivered (username password : CStr) (s t : Exchange) (q : Sys Int)
    (kid : Option (Sys Int)) : Prop where
  /-- Nothing but the password and a newline is read from the pipe, by `su` alone. -/
  reads : t.taken <+: password.bytes ++ utf8 "\n" ∧
    (t.taken ≠ [] → t.image = some (suImage username))
  /-- At the end of its input `su` has read all of it. -/
  whole : t.Held → ¬ t.Writable → t.queue = [] → t.taken = password.bytes ++ utf8 "\n"
  /-- The child becomes `su` for the user, with the pipe for stdin. -/
  executes : ∀ site path argv env k, kid = some (.call (.execve site path argv env) k) →
    ⟨path, argv, env⟩ = suImage username ∧ t.child 0 = some .read ∧ ∀ fd, t.child fd ≠ some .write
  /-- The parent waits for this child, with its descriptors as they were; and `su` does not wait
  for the parent then, as its input has an end. -/
  waits : ∀ pid k, q = .call (.waitpid pid) k →
    pid = t.pid ∧ t.parent = s.parent ∧ (t.image.isSome → ¬ t.Writable)
  /-- The parent returns with its descriptors as they were and no child left, and it accepts the
  password only if `su` has ended well. -/
  returns : ∀ r, q = .pure r → t.parent = s.parent ∧
    ((t.life = .unborn ∧ r ≠ 1) ∨ ∃ status, t.life = .reaped status ∧
      (r = 1 → Accepts status ∧ t.image = some (suImage username)))

open Exchange in
/-- **The password reaches `su`, and its verdict comes back.** Whatever the interleaving of
`su_authenticate` with its child, and whatever `su` does, for a password that a pipe takes at
once; those that are typed are shorter than the buffer of 1024 bytes they are read into. -/
theorem suAuthenticate_delivers {username password : CStr} {s t : Exchange} {q : Sys Int}
    {kid : Option (Sys Int)} (hs : s.Fresh) (hlen : password.length ≤ pipeBuf)
    (h : suMachine.Reaches s (suAuthenticate username password) t q kid) :
    Delivered username password s t q kid := by
  obtain ⟨hparent, hkid⟩ := h.safe (compatible _ _ _) (fun _ _ _ _ => Done.stays)
    (works_suAuthenticate hs username hlen)
  have hplain : ∀ fd, s.parent fd ≠ some .write := fun fd hfd => by cases hs.plain fd _ hfd
  have hdelivery : t.Delivery (suImage username) (password.bytes ++ utf8 "\n") := by
    cases q with
    | pure r => exact hparent.1
    | call c k => exact (hparent _ .refl).1.1
  exact {
    reads := by
      refine ⟨(List.prefix_append ..).trans hdelivery.sent, fun htaken => ?_⟩
      cases himage : t.image with
      | none => exact absurd (hdelivery.sound.unread himage) htaken
      | some image => exact congrArg some (hdelivery.sound.image image himage).1
    whole := fun hheld hclosed hqueue => by
      have hsent := hdelivery.whole (fun fd hfd => hclosed ⟨fd, Or.inl hfd⟩) hheld
      rw [Exchange.sent, hqueue, List.append_nil] at hsent
      exact hsent
    executes := by
      rintro site path argv env k rfl
      obtain ⟨-, -, hexec, -⟩ := (hkid _ rfl _ .refl).1
      obtain ⟨him, hready⟩ := hexec _ _ _ _ rfl
      exact ⟨him, hready.fds⟩
    waits := by
      rintro pid k rfl
      obtain ⟨hpid, hfds, -⟩ := (hparent _ .refl).1.2 pid rfl
      refine ⟨hpid, hfds, fun himage => ?_⟩
      obtain ⟨image, himage⟩ := Option.isSome_iff_exists.mp himage
      rintro ⟨fd, hfd | hfd⟩
      · exact hplain fd (hfds ▸ hfd)
      · exact (hdelivery.sound.image image himage).2 fd hfd
    returns := by
      rintro r rfl
      exact hparent.2 }

/-- A process with its three standard descriptors. -/
def freshExchange : Exchange where
  parent fd := if 0 ≤ fd ∧ fd ≤ 2 then some .other else none
  child _ := none
  taken := []
  queue := []
  pid := 0
  life := .unborn
  image := none

/-- Answers to the parent, while there is a reader on the stdin of the child. -/
def grantsParent (s : Exchange) : (c : SysCall) → Option (c.Answer × Exchange)
  | .alloc _ => some (true, s)
  | .close fd => some (0, { s with parent := Function.update s.parent fd none })
  | .write fd data =>
      if s.parent fd = some .write ∧ s.child 0 = some .read then
        some ((data.length : Int), { s with queue := s.queue ++ data })
      else none
  | .waitpid pid =>
      match s.life with
      | .dead status =>
          if pid = s.pid then some ((pid, status), { s with life := .reaped status }) else none
      | _ => none
  | _ => none

/-- Answers to the child. -/
def grantsChild (s : Exchange) : (c : SysCall) → Option (c.Answer × Exchange)
  | .alloc _ => some (true, s)
  | .close fd => some (0, { s with child := Function.update s.child fd none })
  | .dup2 old new =>
      match s.child old with
      | some f => some (new, { s with child := Function.update s.child new (some f) })
      | none => none
  | .open _ _ _ => some (-2, s)
  | _ => none

theorem grantsParent_answers (s : Exchange) (c : SysCall) (r : c.Answer) (t : Exchange)
    (h : grantsParent s c = some (r, t)) : suMachine.parent s c r t := by
  cases c with
  | alloc | close =>
      cases h
      exact rfl
  | write fd data =>
      unfold grantsParent at h
      dsimp only at h
      split at h
      next hends =>
        cases h
        have hreadable : s.Readable := Or.inl ⟨0, hends.2⟩
        refine ⟨fun _ _ => ⟨data.length, le_rfl, fun _ => rfl, rfl, ?_⟩,
          fun _ h => absurd hreadable h, fun h => absurd hends.1 h⟩
        rw [List.take_length]
      next => cases h
  | waitpid pid =>
      unfold grantsParent at h
      dsimp only at h
      split at h
      next status hdead =>
        split at h
        next hpid =>
          cases h
          exact .status hpid hdead
        next => cases h
      next => cases h
  | _ => cases h

theorem grantsChild_answers (s : Exchange) (c : SysCall) (r : c.Answer) (t : Exchange)
    (h : grantsChild s c = some (r, t)) : suMachine.child s c r t := by
  cases c with
  | alloc | close =>
      cases h
      exact rfl
  | dup2 old new =>
      unfold grantsChild at h
      dsimp only at h
      split at h
      next f hold =>
        cases h
        exact .copied hold
      next => cases h
  | «open» path flags mode =>
      cases h
      exact Or.inl ⟨Int.negSucc_lt_zero 1, rfl⟩
  | _ => cases h

/-- The pipe of a fresh process. -/
def pipedExchange : Exchange :=
  { freshExchange with
    parent := Function.update (Function.update freshExchange.parent 3 (some .read)) 4
      (some .write) }

/-- The process has forked. -/
def forkedExchange : Exchange :=
  { pipedExchange with child := pipedExchange.parent, pid := 7, life := .alive }

theorem freshExchange_fresh : freshExchange.Fresh where
  life := rfl
  image := rfl
  child _ := rfl
  unsent := ⟨rfl, rfl⟩
  plain fd f h := by
    simp only [freshExchange] at h
    split at h
    · exact (Option.some.inj h).symm
    · cases h
  stdin := by decide

/-- `su` reads all there is to read. -/
theorem Exchange.Moves.readsAll {s : Exchange} (halive : s.life = .alive)
    (himage : s.image.isSome) (hstdin : s.child 0 = some .read) :
    s.Moves { s with taken := s.taken ++ s.queue, queue := [] } :=
  .reads halive himage hstdin (List.append_nil _).symm

/-- `su` reads the whole password and accepts it. -/
theorem suAuthenticate_delivers_pw :
    ∃ t : Exchange, t.taken = utf8 "pw\n" ∧ t.life = .reaped 0 ∧
      Delivered (cstr "al") (cstr "pw") freshExchange t (.pure 1) none := by
  have hstart : suMachine.Reaches freshExchange (suAuthenticate (cstr "al") (cstr "pw"))
    freshExchange (suAuthenticate (cstr "al") (cstr "pw")) none := .refl
  have hpipe := Forking.Reaches.parent_step (u := pipedExchange)
    (Forking.Reaches.parent_step (u := freshExchange) hstart true rfl) (some (3, 4))
    ⟨by decide, by decide, by decide, rfl, rfl, freshExchange_fresh.not_readable,
      freshExchange_fresh.not_writable, rfl⟩
  have hfork := Forking.Reaches.forked (u := forkedExchange) hpipe (7 : Int) (0 : Int)
    (.fork (by decide) (Or.inl rfl))
  have hchild := Forking.Reaches.child_play grantsChild_answers hfork
  have hexec := Forking.Reaches.child_ends hchild
    (c := .execve .suAuthenticate (cstr "/usr/bin/su")
      [cstr "/usr/bin/su", cstr "-c", cstr "true", cstr "al"] []) (by decide) .execve
  have hsent := Forking.Reaches.parent_play grantsParent_answers hexec
  have hread := hsent.tail (.other (.readsAll rfl rfl rfl))
  have hended := hread.tail (.other (show Exchange.Moves _ (Exchange.ended _ 0) from .ends rfl rfl))
  have hdone := (Forking.Reaches.parent_play grantsParent_answers hended).returned
    (a := 1) (by decide)
  exact ⟨_, by decide, rfl, suAuthenticate_delivers freshExchange_fresh (by decide) hdone⟩

end Shakti
