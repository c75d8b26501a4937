import Shakti.Auth
import Shakti.Lib.Blocks
import Shakti.Policy.Bounds
import Shakti.RelayStreams

/-!
# Shakti.PasswordAttempts

Lines of the input and attempts at a password.

`_prompt_and_authenticate` reads every attempt into one buffer, which it clears behind each.

* In `Checked` the buffer is memory, handed from attempt to attempt, and every access to it is
  checked. `Checked.promptAndAuthenticate_eq` says that from a cleared buffer no access leaves
  it and that no attempt sees anything of an earlier one: the program is the one of
  `Shakti.Auth`, where each attempt has a fresh buffer.
* `firstLine`, `lineAt`, `attemptLines` — the input as lines, and the lines that attempts are to
  be made for, given what the backends answer.
* `Streams` — stdin as a byte stream that the reads of a run take from. `Completes` says that a
  program has a run on every stream.
* `Tries` — a run as a sequence of attempts. `promptLoop_tries` cuts a run into them, and the
  rest is read off the attempts.
-/

namespace Shakti

open Effects Memory
open Effects.Prog (Returns Agree)

/-! ### The buffer -/

namespace Checked

/-- `memset(buf, 0, n)`. -/
def clear (buf : Block UInt8) (n : Nat) : Option (Block UInt8) :=
  fill buf 0 (List.replicate n 0)

/-- The first loop of `_read_password_into`, with `left` turns up to `limit`. -/
def readPasswordLoop : Nat → Nat → Block UInt8 → Sys (Option (Block UInt8))
  | 0, _, buf => pure (some buf)
  | left + 1, pos, buf => do
      let got ← fileRead 0 1
      match got with
      | [] => pure (some buf)
      | c :: _ =>
          match Memory.store buf pos c with
          | none => pure none
          | some buf =>
              match loadCell buf pos with
              | none => pure none
              | some c =>
                  if c = 10 then pure (some buf) else readPasswordLoop left (pos + 1) buf

/-- The second loop, which looks for the end of the password, and the NUL put there. -/
def terminatePassword (limit : Nat) (buf : Block UInt8) : Option (Block UInt8) := do
  let real ← scan (loadCell buf) (fun c => c != 10 && c != 0) limit (limit + 1) 0
  Memory.store buf real 0

/-- `_read_password_into`: the caller's buffer afterwards. -/
def readPasswordInto (buf : Block UInt8) (cap : Nat) : Sys (Option (Block UInt8)) := do
  let termios : Option Bytes ← sys (.ioctl 0 tcgets (List.replicate termiosSize 0))
  match termios with
  | some orig => do
      let modified := store32 orig 12 (clearBits (load32 orig 12) echoFlag)
      let _ ← sys (.ioctl 0 tcsets modified)
      let buf ← readPasswordLoop (cap - 1) 0 buf
      let buf := buf.bind (terminatePassword (cap - 1))
      let _ ← sys (.ioctl 0 tcsets orig)
      fileWrite 2 (utf8 "\n")
      pure buf
  | none => do
      let buf ← readPasswordLoop (cap - 1) 0 buf
      let buf := buf.bind (terminatePassword (cap - 1))
      fileWrite 2 (utf8 "\n")
      pure buf

/-- The loop of `_prompt_and_authenticate`, over its one buffer. -/
def promptLoop (username : CStr) : Nat → Nat → Block UInt8 → Sys (Option Bool)
  | 0, _, _ => pure (some false)
  | left + 1, attempt, buf => do
      fileWrite 2 (utf8 "[shakti] password for ")
      fileWrite 2 username.bytes
      fileWrite 2 (utf8 ": ")
      let buf ← readPasswordInto buf pwBufCap
      match buf.bind (fun buf => (cstrAt buf).map (fun password => (buf, password))) with
      | none => pure none
      | some (buf, password) =>
          if password.length = 0 then
            match clear buf pwBufCap with
            | none => pure none
            | some buf =>
                if attempt < maxAuthAttempts then do
                  fileWrite 2 (utf8 "Sorry, try again.\n")
                  promptLoop username left (attempt + 1) buf
                else pure (some false)
          else do
            let r ← authenticate username password
            match clear buf pwBufCap with
            | none => pure none
            | some buf =>
                if r = 1 then pure (some true)
                else do
                  (if attempt < maxAuthAttempts then fileWrite 2 (utf8 "Sorry, try again.\n")
                    else pure ())
                  promptLoop username left (attempt + 1) buf

/-- `_prompt_and_authenticate`, with what `pbuf` holds at first. -/
def promptAndAuthenticate (username : CStr) (pbuf : Block UInt8) : Sys (Option Bool) :=
  promptLoop username maxAuthAttempts 1 pbuf

/-- A buffer of `n` bytes, all of them written. -/
def Holds (n : Nat) (o : Option (Block UInt8)) (buf : Bytes) : Prop :=
  o = some (buf.map some) ∧ buf.length = n

theorem store_map {buf : Bytes} {i : Nat} (h : i < buf.length) (c : UInt8) :
    Memory.store (buf.map some) i c = some ((Shakti.store buf i [c]).map some) := by
  rw [store_eq_put (by rwa [List.length_map])]
  simp [put, Shakti.store]

theorem length_store {buf : Bytes} {i : Nat} (h : i < buf.length) (c : UInt8) :
    (Shakti.store buf i [c]).length = buf.length := by
  simp only [Shakti.store, List.length_append, List.length_take, List.length_drop,
    List.length_singleton]
  omega

theorem agree_readPasswordLoop {n left pos : Nat} {buf : Bytes} (hlen : buf.length = n)
    (h : pos + left ≤ n) :
    Agree (Holds n) (readPasswordLoop left pos (buf.map some))
      (Shakti.readPasswordLoop left pos buf) := by
  induction left generalizing pos buf with
  | zero => exact Agree.pure ⟨rfl, hlen⟩
  | succ left ih =>
      refine (Agree.refl (fileRead 0 1)).bind fun got _ hgot => ?_
      subst hgot
      cases got with
      | nil => exact Agree.pure ⟨rfl, hlen⟩
      | cons c got =>
          have hpos : pos < buf.length := by omega
          have hstored : (Shakti.store buf pos [c])[pos]? = some c := by
            have hfront : (buf.take pos).length = pos := List.length_take_of_le hpos.le
            rw [Shakti.store, List.append_assoc, List.getElem?_append_right hfront.le, hfront,
              Nat.sub_self]
            rfl
          simp only [store_map hpos, loadCell_map, hstored]
          exact Agree.ite (fun _ => Agree.pure ⟨rfl, (length_store hpos c).trans hlen⟩)
            fun _ => ih ((length_store hpos c).trans hlen) (by omega)

/-- The end of the password is found within the first `limit` bytes. -/
theorem Holds.terminatePassword {n limit : Nat} {o : Option (Block UInt8)} {buf : Bytes}
    (h : Holds n o buf) (hlimit : limit < n) :
    Holds n (o.bind (terminatePassword limit))
      (Shakti.store buf (passwordIn buf limit).length [0]) := by
  obtain ⟨rfl, hlen⟩ := h
  have hspan : Spans buf 0 limit (buf.take limit) :=
    ⟨List.take_prefix limit buf, by rw [List.length_take]; omega⟩
  have hreal : (passwordIn buf limit).length < buf.length := by
    have hle : (passwordIn buf limit).length ≤ (buf.take limit).length :=
      (List.takeWhile_prefix _).length_le
    rw [List.length_take] at hle
    omega
  have hfuel : (buf.take limit).length < limit + 1 := by
    rw [List.length_take]
    omega
  have hscan := scan_eq (fun c => c != 10 && c != 0) hspan hfuel
  rw [Nat.zero_add] at hscan
  refine ⟨?_, (length_store hreal 0).trans hlen⟩
  rw [Option.bind_some, Checked.terminatePassword, loadCell_map, hscan]
  exact store_map hreal 0

theorem agree_readPasswordInto {cap : Nat} {buf : Bytes} (hlen : buf.length = cap)
    (hcap : 1 ≤ cap) :
    Agree (fun o b => Holds cap o b ∧ 0 ∈ b) (readPasswordInto (buf.map some) cap)
      (Shakti.readPasswordInto buf cap) := by
  have hroom : 0 + (cap - 1) ≤ cap := by omega
  have hlimit : cap - 1 < cap := by omega
  refine Agree.call fun termios => ?_
  cases termios with
  | some orig =>
      refine Agree.call fun _ => ?_
      refine (agree_readPasswordLoop hlen hroom).bind fun o b hread => ?_
      refine (Agree.refl _).bind fun _ _ _ => (Agree.refl _).bind fun _ _ _ => ?_
      exact Agree.pure ⟨hread.terminatePassword hlimit, by simp [Shakti.store]⟩
  | none =>
      refine (agree_readPasswordLoop hlen hroom).bind fun o b hread => ?_
      refine (Agree.refl _).bind fun _ _ _ => ?_
      exact Agree.pure ⟨hread.terminatePassword hlimit, by simp [Shakti.store]⟩

/-- What follows a NUL is not read. -/
theorem read_append_nul (x rest : Bytes) : CStr.read (x ++ 0 :: rest) = CStr.read x :=
  CStr.ext (Scan.takeWhile_ne_append_cons 0 x rest)

theorem cstrAt_map {buf : Bytes} (h : 0 ∈ buf) : cstrAt (buf.map some) = some (CStr.read buf) := by
  obtain ⟨x, rest, rfl⟩ := List.append_of_mem h
  rw [cstrAt, List.map_append, List.map_cons, textOf_eq, Option.map_some, read_append_nul]
  exact congrArg some (CStr.read_bytes_self (CStr.read x))

theorem clear_map {n : Nat} {buf : Bytes} (hlen : buf.length = n) :
    clear (buf.map some) n = some ((List.replicate n 0).map some) := by
  rw [clear, fill_eq (by simp [hlen]), put, List.take_zero, List.nil_append,
    List.drop_eq_nil_of_le (by simp [hlen]), List.append_nil]

theorem agree_promptLoop (username : CStr) (left attempt : Nat) :
    Agree (fun o r => o = some r)
      (promptLoop username left attempt ((List.replicate pwBufCap 0).map some))
      (Shakti.promptLoop username left attempt) := by
  induction left generalizing attempt with
  | zero => exact Agree.pure rfl
  | succ left ih =>
      refine (Agree.refl _).bind fun _ _ _ => (Agree.refl _).bind fun _ _ _ => ?_
      refine (Agree.refl _).bind fun _ _ _ => ?_
      refine (agree_readPasswordInto List.length_replicate (by decide)).bind fun o b hread => ?_
      obtain ⟨⟨rfl, hlen⟩, hnul⟩ := hread
      simp only [Option.bind_some, cstrAt_map hnul, Option.map_some, clear_map hlen]
      refine Agree.ite (fun _ => ?_) fun _ => ?_
      · exact Agree.ite (fun _ => (Agree.refl _).bind fun _ _ _ => ih (attempt + 1))
          fun _ => Agree.pure rfl
      · refine (Agree.refl _).bind fun r _ hr => ?_
        cases hr
        exact Agree.ite (fun _ => Agree.pure rfl)
          fun _ => (Agree.refl _).bind fun _ _ _ => ih (attempt + 1)

/-- **One buffer for all attempts.** From a cleared buffer no access leaves it, and the attempts
do what they would do with a buffer each. -/
theorem promptAndAuthenticate_eq (username : CStr) :
    promptAndAuthenticate username (List.replicate pwBufCap (some 0)) =
      Shakti.promptAndAuthenticate username >>= fun r => pure (some r) := by
  have h := agree_promptLoop username maxAuthAttempts 1
  rw [List.map_replicate] at h
  exact h.eq_map

end Checked

/-! ### Lines -/

/-- The first line of a stream, through its newline or to the end. -/
def firstLine : Bytes → Bytes
  | [] => []
  | c :: s => if c = 10 then [c] else c :: firstLine s

/-- The `k`-th line. -/
def lineAt : Nat → Bytes → Bytes
  | 0, s => firstLine s
  | k + 1, s => lineAt k (s.drop (firstLine s).length)

/-- The password on a line: its bytes up to the first NUL, without the newline. -/
def passwordOf (line : Bytes) : CStr := CStr.read (line.takeWhile (· != 10))

/-- The lines that attempts are to be made for, `left` of them at most: each line in turn, up
to one whose password is answered by `1`. -/
def attemptLines : Nat → Bytes → List Int → List Bytes
  | 0, _, _ => []
  | left + 1, s, answers =>
      let line := firstLine s
      let behind := s.drop line.length
      if (passwordOf line).length = 0 then line :: attemptLines left behind answers
      else
        match answers with
        | [] => [line]
        | r :: answers => if r = 1 then [line] else line :: attemptLines left behind answers

theorem attemptLines_of_empty {left : Nat} {s : Bytes}
    (h : (passwordOf (firstLine s)).length = 0) (answers : List Int) :
    attemptLines (left + 1) s answers =
      firstLine s :: attemptLines left (s.drop (firstLine s).length) answers := by
  rw [attemptLines.eq_def]
  exact if_pos h

theorem attemptLines_cons {left : Nat} {s : Bytes}
    (h : (passwordOf (firstLine s)).length ≠ 0) (r : Int) (answers : List Int) :
    attemptLines (left + 1) s (r :: answers) =
      if r = 1 then [firstLine s]
      else firstLine s :: attemptLines left (s.drop (firstLine s).length) answers := by
  rw [attemptLines.eq_def]
  exact if_neg h

theorem firstLine_mem_attemptLines (left : Nat) (s : Bytes) (answers : List Int) :
    firstLine s ∈ attemptLines (left + 1) s answers := by
  by_cases h : (passwordOf (firstLine s)).length = 0
  · rw [attemptLines_of_empty h]
    exact List.mem_cons_self
  · cases answers with
    | nil =>
        rw [attemptLines.eq_def]
        simp [h]
    | cons r answers =>
        rw [attemptLines_cons h]
        split
        · exact List.mem_cons_self
        · exact List.mem_cons_self

theorem firstLine_isPrefix (s : Bytes) : firstLine s <+: s := by
  induction s with
  | nil => exact List.nil_prefix
  | cons c s ih =>
      rw [firstLine]
      split
      · exact List.cons_prefix_cons.mpr ⟨rfl, List.nil_prefix⟩
      · exact List.cons_prefix_cons.mpr ⟨rfl, ih⟩

/-! ### The input -/

/-- Every read of stdin in the run delivers what comes next in the stream. -/
def Streams : Bytes → Trace → Prop
  | _, [] => True
  | s, e :: tr =>
      (∀ n, e.call = .read 0 n → readBy 0 e = s.take n) ∧
        Streams (s.drop (readBy 0 e).length) tr

theorem streams_append_iff {s : Bytes} {tr tr' : Trace} :
    Streams s (tr ++ tr') ↔ Streams s tr ∧ Streams (s.drop (readFrom 0 tr).length) tr' := by
  induction tr generalizing s with
  | nil => simp [Streams, readFrom]
  | cons e tr ih =>
      have hread : readFrom 0 (e :: tr) = readBy 0 e ++ readFrom 0 tr := rfl
      rw [List.cons_append, Streams, Streams, ih, hread, List.length_append, List.drop_drop,
        and_assoc]

/-- The calls that read stdin. -/
@[simp] def SysCall.ReadsStdin : SysCall → Prop
  | .read fd _ => fd = 0
  | _ => False

theorem readFrom_eq_nil {α : Type} {p : Sys α} {tr : Trace} {a : α}
    (hp : Prog.Avoids SysCall.ReadsStdin p) (h : Returns p tr a) : readFrom 0 tr = [] := by
  refine List.flatMap_eq_nil_iff.mpr fun e he => ?_
  have hcall := hp.returns h e he
  unfold readBy
  split
  · exact if_neg hcall
  · rfl

/-- A part of a program that does not read stdin leaves the stream to the rest. -/
theorem returns_bind_avoids {α β : Type} {p : Sys α} {f : α → Sys β} {tr : Trace} {b : β}
    {s : Bytes} (hp : Prog.Avoids SysCall.ReadsStdin p) (h : Returns (p >>= f) tr b)
    (hs : Streams s tr) :
    ∃ tr₁ tr₂ a, tr = tr₁ ++ tr₂ ∧ Returns p tr₁ a ∧ Returns (f a) tr₂ b ∧ Streams s tr₂ ∧
      readFrom 0 tr₁ = [] ∧ readFrom 0 tr = readFrom 0 tr₂ := by
  obtain ⟨tr₁, tr₂, a, rfl, hrun, hrest⟩ := Prog.returns_bind_iff.mp h
  have hnil := readFrom_eq_nil hp hrun
  have hs₂ := (streams_append_iff.mp hs).2
  rw [hnil] at hs₂
  exact ⟨tr₁, tr₂, a, rfl, hrun, hrest, hs₂, hnil, by rw [readFrom_append, hnil, List.nil_append]⟩

theorem store_cons {buf : Bytes} {i : Nat} (h : i < buf.length) (c : UInt8) (x : Bytes) :
    store (store buf i [c]) (i + 1) x = store buf i (c :: x) := by
  have hfront : (buf.take i ++ [c]).length = i + 1 := by
    rw [List.length_append, List.length_take_of_le h.le, List.length_singleton]
  have htake : (store buf i [c]).take (i + 1) = buf.take i ++ [c] := by
    rw [store, ← hfront]
    exact List.take_left
  have hdrop : (store buf i [c]).drop (i + 1 + x.length) = buf.drop (i + 1 + x.length) := by
    rw [store, ← List.drop_drop, ← hfront, List.drop_left, hfront, List.length_singleton,
      List.drop_drop]
  rw [store, htake, hdrop, store, List.length_cons]
  simp [Nat.add_comm, Nat.add_left_comm]

/-- One read of stdin. -/
theorem returns_fileRead_stdin {n : Nat} {s got : Bytes} {tr : Trace}
    (h : Returns (fileRead 0 n) tr got) (hs : Streams s tr) :
    got = s.take n ∧ readFrom 0 tr = s.take n := by
  obtain ⟨r, tr', rfl, hgot⟩ := Prog.returns_ask_bind_iff.mp h
  obtain ⟨rfl, rfl⟩ := Prog.returns_pure_iff.mp hgot
  have hread : readBy 0 ⟨.read 0 n, r⟩ = s.take n := hs.1 n rfl
  exact ⟨hread, (List.append_nil _).trans hread⟩

/-- The loop takes the first line, as far as there is room, and puts it into the buffer. -/
theorem readPasswordLoop_returns {left pos : Nat} {buf b s : Bytes} {tr : Trace}
    (h : Returns (readPasswordLoop left pos buf) tr b) (hs : Streams s tr)
    (hroom : pos + left ≤ buf.length) :
    readFrom 0 tr = (firstLine s).take left ∧ b = store buf pos ((firstLine s).take left) := by
  induction left generalizing pos buf s tr with
  | zero =>
      obtain ⟨rfl, rfl⟩ := Prog.returns_pure_iff.mp h
      simp [readFrom, store]
  | succ left ih =>
      obtain ⟨tr₁, tr₂, got, rfl, hread, hrest⟩ := Prog.returns_bind_iff.mp h
      obtain ⟨hs₁, hs₂⟩ := streams_append_iff.mp hs
      obtain ⟨rfl, hbyte⟩ := returns_fileRead_stdin hread hs₁
      rw [hbyte] at hs₂
      rw [readFrom_append, hbyte]
      cases s with
      | nil =>
          obtain ⟨rfl, rfl⟩ := Prog.returns_pure_iff.mp hrest
          simp [readFrom, store, firstLine]
      | cons c s =>
          simp only [List.take_succ_cons, List.take_zero] at hrest hs₂ ⊢
          by_cases hc : c = 10
          · rw [if_pos hc] at hrest
            obtain ⟨rfl, rfl⟩ := Prog.returns_pure_iff.mp hrest
            simp [readFrom, firstLine, hc]
          · rw [if_neg hc] at hrest
            have hpos : pos < buf.length := by omega
            have hlen := Checked.length_store hpos c
            obtain ⟨hbehind, rfl⟩ := ih hrest hs₂ (by omega)
            have hline : (firstLine (c :: s)).take (left + 1) = c :: (firstLine s).take left := by
              rw [firstLine, if_neg hc, List.take_succ_cons]
            rw [hline, hbehind, store_cons (by omega)]
            exact ⟨rfl, rfl⟩

theorem passwordOf_bytes (line : Bytes) :
    (passwordOf line).bytes = line.takeWhile (fun c => c != 10 && c != 0) := by
  have hstops : (fun c : UInt8 => decide ((c != 0) = true ∧ (c != 10) = true)) =
      fun c => c != 10 && c != 0 := by
    funext c
    rw [Bool.decide_and, Bool.decide_coe, Bool.decide_coe, Bool.and_comm]
  rw [← hstops, ← List.takeWhile_takeWhile]
  rfl

/-- What is read back from a cleared buffer that a line was put into. -/
theorem read_terminated {line : Bytes} {limit : Nat} (h : line.length ≤ limit) {buf : Bytes}
    (hbuf : buf = store (List.replicate (limit + 1) 0) 0 line) :
    CStr.read (store buf (passwordIn buf limit).length [0]) = passwordOf line := by
  have hcut : buf.take limit = line ++ List.replicate (limit - line.length) 0 := by
    rw [hbuf, store, List.take_zero, List.nil_append, Nat.zero_add, List.drop_replicate,
      List.take_append, List.take_of_length_le h, List.take_replicate]
    congr 2
    omega
  have hzeros : (List.replicate (limit - line.length) (0 : UInt8)).takeWhile
      (fun c => c != 10 && c != 0) = [] := by
    rw [List.takeWhile_replicate, if_neg (by decide)]
  have hline : passwordIn buf limit = (passwordOf line).bytes := by
    rw [passwordIn, hcut, List.takeWhile_append, hzeros, List.append_nil, passwordOf_bytes]
    split
    case isTrue hall => exact ((List.takeWhile_prefix _).eq_of_length hall).symm
    case isFalse => rfl
  have htake : buf.take (passwordIn buf limit).length = passwordIn buf limit := by
    refine (List.prefix_iff_eq_take.mp ?_).symm
    exact (List.takeWhile_prefix _).trans (List.take_prefix limit buf)
  rw [store, htake, hline, List.append_assoc, List.singleton_append, Checked.read_append_nul,
    CStr.read_bytes_self]

/-- The loop fills the buffer, and what follows it marks the end of the password. -/
theorem readPasswordLoop_bind_returns {b s : Bytes} {tr : Trace} {q : Bytes → Sys Bytes}
    (hq : ∀ buf, Prog.Avoids SysCall.ReadsStdin (q buf))
    (hend : ∀ buf tr b, Returns (q buf) tr b →
      b = store buf (passwordIn buf (pwBufCap - 1)).length [0])
    (h : Returns (readPasswordLoop (pwBufCap - 1) 0 (List.replicate pwBufCap 0) >>= q) tr b)
    (hs : Streams s tr) :
    readFrom 0 tr = (firstLine s).take (pwBufCap - 1) ∧
      CStr.read b = passwordOf (readFrom 0 tr) := by
  obtain ⟨tr₁, tr₂, buf, rfl, hrun, hrest⟩ := Prog.returns_bind_iff.mp h
  have hroom : 0 + (pwBufCap - 1) ≤ (List.replicate pwBufCap (0 : UInt8)).length := by
    rw [List.length_replicate]
    decide
  obtain ⟨htaken, hbuf⟩ := readPasswordLoop_returns hrun (streams_append_iff.mp hs).1 hroom
  rw [readFrom_append, readFrom_eq_nil (hq buf) hrest, List.append_nil, htaken,
    hend buf tr₂ b hrest]
  exact ⟨rfl, read_terminated (List.length_take_le _ _) hbuf⟩

/-- An attempt takes the first line, as far as the buffer has room, and leaves its password. -/
theorem readPasswordInto_returns {b s : Bytes} {tr : Trace}
    (h : Returns (readPasswordInto (List.replicate pwBufCap 0) pwBufCap) tr b)
    (hs : Streams s tr) :
    readFrom 0 tr = (firstLine s).take (pwBufCap - 1) ∧
      CStr.read b = passwordOf (readFrom 0 tr) := by
  obtain ⟨tr₁, tr₂, termios, -, -, hrest, hs₂, -, hread⟩ := returns_bind_avoids (by simp) h hs
  rw [hread]
  cases termios with
  | some orig =>
      obtain ⟨tr₃, tr₄, _, -, -, hloop, hs₄, -, hread₄⟩ :=
        returns_bind_avoids (by simp) hrest hs₂
      rw [hread₄]
      refine readPasswordLoop_bind_returns (fun buf => by simp [fileWrite]) ?_ hloop hs₄
      intro buf tr b hend
      obtain ⟨_, _, _, -, -, hend₁⟩ := Prog.returns_bind_iff.mp hend
      obtain ⟨_, _, _, -, -, hend₂⟩ := Prog.returns_bind_iff.mp hend₁
      exact (Prog.returns_pure_iff.mp hend₂).2
  | none =>
      refine readPasswordLoop_bind_returns (fun buf => by simp [fileWrite]) ?_ hrest hs₂
      intro buf tr b hend
      obtain ⟨_, _, _, -, -, hend₁⟩ := Prog.returns_bind_iff.mp hend
      exact (Prog.returns_pure_iff.mp hend₁).2

/-! ### Attempts -/

/-- The calls that hand a password to the backends. -/
@[simp] def SysCall.TriesPassword : SysCall → Prop
  | .pamUnixAuthenticate _ _ => True
  | _ => False

/-- Nothing is handed to the backends. -/
def Untried (tr : Trace) : Prop := ∀ e ∈ tr, ¬ e.call.TriesPassword

/-- One attempt of a run. -/
structure Attempt where
  /-- The prompt, and the reading of the password. -/
  asked : Trace
  password : CStr
  /-- The call of `authenticate`, if there was one, and what it returned. -/
  call : Option (Trace × Int)
  /-- What is said behind it. -/
  told : Trace

namespace Attempt

/-- All of the attempt. -/
def trace (a : Attempt) : Trace := a.asked ++ (a.call.elim [] (·.1) ++ a.told)

/-- What it took from the input. -/
def taken (a : Attempt) : Bytes := readFrom 0 a.asked

/-- What `authenticate` returned. -/
def answer (a : Attempt) : Option Int := a.call.map (·.2)

/-- An attempt calls `authenticate` once, with what stands on the line it took, or not at all
where that is nothing. -/
structure Sound (username : CStr) (a : Attempt) : Prop where
  password_eq : a.password = passwordOf a.taken
  called : ∀ t r, a.call = some (t, r) → Returns (authenticate username a.password) t r
  idle_iff : a.call = none ↔ a.password.length = 0
  untried : Untried (a.asked ++ a.told)
  input : readFrom 0 a.trace = a.taken

end Attempt

/-- The attempts of a run on a stream, `left` of them at most, and whether they end with a
success. -/
inductive Tries (username : CStr) : Nat → Bytes → List Attempt → Bool → Prop
  | out {s : Bytes} : Tries username 0 s [] false
  | next {left : Nat} {s : Bytes} {a : Attempt} {attempts : List Attempt} {granted : Bool} :
      a.Sound username → a.taken = (firstLine s).take (pwBufCap - 1) → a.answer ≠ some 1 →
      Tries username left (s.drop a.taken.length) attempts granted →
      Tries username (left + 1) s (a :: attempts) granted
  | granted {left : Nat} {s : Bytes} {a : Attempt} :
      a.Sound username → a.taken = (firstLine s).take (pwBufCap - 1) → a.answer = some 1 →
      Tries username (left + 1) s [a] true

@[simp] theorem avoids_stdin_fileWrite (fd : Int) (data : Bytes) :
    Prog.Avoids SysCall.ReadsStdin (fileWrite fd data) := by
  simp [fileWrite]

/-- The calls that read something or hand a password to the backends. -/
@[simp] def SysCall.Inquires : SysCall → Prop
  | .read _ _ | .pamUnixAuthenticate _ _ => True
  | _ => False

theorem SysCall.ReadsStdin.inquires {c : SysCall} (h : c.ReadsStdin) : c.Inquires := by
  cases c with
  | read => trivial
  | _ => exact h.elim

theorem SysCall.TriesPassword.inquires {c : SysCall} (h : c.TriesPassword) : c.Inquires := by
  cases c with
  | pamUnixAuthenticate => trivial
  | _ => exact h.elim

theorem avoids_suAuthenticate (username password : CStr) :
    Prog.Avoids SysCall.Inquires (suAuthenticate username password) := by
  have hchild : ∀ rfd wfd, Prog.Avoids SysCall.Inquires (suChild rfd wfd username) := by
    simp [suChild, suChild.suExec, sysExit]
  have hparent : ∀ rfd wfd pid, Prog.Avoids SysCall.Inquires (suParent rfd wfd pid password) := by
    simp [suParent, fileWrite]
  refine .bind (by simp) fun pfd => Prog.avoids_ite.mpr ⟨by simp, fun _ => ?_⟩
  refine .bind (by simp) fun fds => ?_
  cases fds with
  | none => simp
  | some fd => simp [hchild, hparent]

/-- `authenticate` hands over the password it was given, and reads nothing. -/
theorem avoids_authenticate {P : SysCall → Prop} {username password : CStr}
    (hP : ∀ c, P c → c.Inquires) (hpam : ¬ P (.pamUnixAuthenticate username password)) :
    Prog.Avoids P (authenticate username password) := by
  refine .bind (.bind ((Prog.avoids_ask _).mpr hpam) fun rc => ?_) fun pam => ?_
  · cases rc <;> exact Prog.avoids_pure _
  · cases pam with
    | some ok => cases ok <;> exact Prog.avoids_pure _
    | none => exact (avoids_suAuthenticate username password).mono hP

theorem untried_of_avoids {α : Type} {p : Sys α} {tr : Trace} {a : α}
    (hp : Prog.Avoids SysCall.TriesPassword p) (h : Returns p tr a) : Untried tr := hp.returns h

@[simp] theorem avoids_tried_fileWrite (fd : Int) (data : Bytes) :
    Prog.Avoids SysCall.TriesPassword (fileWrite fd data) := by
  simp [fileWrite]

theorem avoids_tried_readPasswordLoop (left pos : Nat) (buf : Bytes) :
    Prog.Avoids SysCall.TriesPassword (readPasswordLoop left pos buf) :=
  avoids_readPasswordLoop (by simp) left pos buf

theorem avoids_tried_readPasswordInto (buf : Bytes) (cap : Nat) :
    Prog.Avoids SysCall.TriesPassword (readPasswordInto buf cap) := by
  refine .bind (by simp) fun termios => ?_
  cases termios with
  | some orig =>
      refine .bind (by simp) fun _ => .bind (avoids_tried_readPasswordLoop ..) fun _ => ?_
      exact .bind (by simp) fun _ => .bind (by simp) fun _ => Prog.avoids_pure _
  | none =>
      refine .bind (avoids_tried_readPasswordLoop ..) fun _ => ?_
      exact .bind (by simp) fun _ => Prog.avoids_pure _

theorem Untried.append {tr tr' : Trace} (h : Untried tr) (h' : Untried tr') : Untried (tr ++ tr') :=
  fun e he => (List.mem_append.mp he).elim (h e) (h' e)

/-- The prompt takes a line, and hands nothing over. -/
theorem returns_ask {username : CStr} {f : Bytes → Sys Bool} {s : Bytes} {tr : Trace} {r : Bool}
    (h : Returns (do
      fileWrite 2 (utf8 "[shakti] password for ")
      fileWrite 2 username.bytes
      fileWrite 2 (utf8 ": ")
      let buf ← readPasswordInto (List.replicate pwBufCap 0) pwBufCap
      f buf) tr r) (hs : Streams s tr) :
    ∃ asked tr' buf, tr = asked ++ tr' ∧ Untried asked ∧
      readFrom 0 asked = (firstLine s).take (pwBufCap - 1) ∧
      CStr.read buf = passwordOf (readFrom 0 asked) ∧ Returns (f buf) tr' r ∧
      Streams (s.drop (readFrom 0 asked).length) tr' := by
  obtain ⟨t₁, tr₁, _, rfl, hrun₁, h₁, hs₁, hread₁, -⟩ :=
    returns_bind_avoids (avoids_stdin_fileWrite _ _) h hs
  obtain ⟨t₂, tr₂, _, rfl, hrun₂, h₂, hs₂, hread₂, -⟩ :=
    returns_bind_avoids (avoids_stdin_fileWrite _ _) h₁ hs₁
  obtain ⟨t₃, tr₃, _, rfl, hrun₃, h₃, hs₃, hread₃, -⟩ :=
    returns_bind_avoids (avoids_stdin_fileWrite _ _) h₂ hs₂
  obtain ⟨t₄, tr₄, buf, rfl, hrun₄, h₄⟩ := Prog.returns_bind_iff.mp h₃
  obtain ⟨hs₄, hrest⟩ := streams_append_iff.mp hs₃
  obtain ⟨htaken, hpassword⟩ := readPasswordInto_returns hrun₄ hs₄
  have hasked : readFrom 0 (t₁ ++ (t₂ ++ (t₃ ++ t₄))) = readFrom 0 t₄ := by
    simp only [readFrom_append, hread₁, hread₂, hread₃, List.nil_append]
  refine ⟨t₁ ++ (t₂ ++ (t₃ ++ t₄)), tr₄, buf, by simp, ?_, hasked.trans htaken, ?_, h₄, ?_⟩
  · have hwrites := avoids_tried_fileWrite 2
    exact (untried_of_avoids (hwrites _) hrun₁).append ((untried_of_avoids (hwrites _) hrun₂).append
      ((untried_of_avoids (hwrites _) hrun₃).append
        (untried_of_avoids (avoids_tried_readPasswordInto _ _) hrun₄)))
  · rw [hasked]
    exact hpassword
  · rw [hasked]
    exact hrest

/-- What is said behind an attempt. -/
theorem returns_told {c : Prop} [Decidable c] {data : Bytes} {tr : Trace} {u : Unit}
    (h : Returns (if c then fileWrite 2 data else pure ()) tr u) :
    Untried tr ∧ readFrom 0 tr = [] :=
  ⟨untried_of_avoids (Prog.avoids_ite.mpr ⟨fun _ => by simp, fun _ => Prog.avoids_pure _⟩) h,
    readFrom_eq_nil (Prog.avoids_ite.mpr ⟨fun _ => by simp, fun _ => Prog.avoids_pure _⟩) h⟩

/-- An attempt without a password hands nothing over. -/
theorem Attempt.sound_idle (username : CStr) {password : CStr} {asked told : Trace}
    (hpassword : password = passwordOf (readFrom 0 asked)) (hempty : password.length = 0)
    (huntried : Untried (asked ++ told)) (hread : readFrom 0 told = []) :
    Attempt.Sound username ⟨asked, password, none, told⟩ where
  password_eq := hpassword
  called _ _ hcall := absurd hcall (by simp)
  idle_iff := iff_of_true rfl hempty
  untried := huntried
  input := by simp [Attempt.trace, Attempt.taken, readFrom_append, hread]

theorem Attempt.sound_called {username password : CStr} {asked called told : Trace} {r : Int}
    (hpassword : password = passwordOf (readFrom 0 asked)) (hsome : password.length ≠ 0)
    (hcall : Returns (authenticate username password) called r) (hnil : readFrom 0 called = [])
    (huntried : Untried (asked ++ told)) (hread : readFrom 0 told = []) :
    Attempt.Sound username ⟨asked, password, some (called, r), told⟩ where
  password_eq := hpassword
  called _ _ heq := by
    cases heq
    exact hcall
  idle_iff := iff_of_false (by simp) hsome
  untried := huntried
  input := by simp [Attempt.trace, Attempt.taken, readFrom_append, hread, hnil]

/-- **The attempts of a run.** Each takes from the stream where the one before stopped. -/
theorem promptLoop_tries {username : CStr} {left attempt : Nat} {s : Bytes} {tr : Trace}
    {granted : Bool} (h : Returns (promptLoop username left attempt) tr granted)
    (hs : Streams s tr) (hattempt : attempt + left = maxAuthAttempts + 1) :
    ∃ attempts, Tries username left s attempts granted ∧
      tr = attempts.flatMap Attempt.trace := by
  induction left generalizing attempt s tr with
  | zero =>
      obtain ⟨rfl, rfl⟩ := Prog.returns_pure_iff.mp h
      exact ⟨[], Tries.out, rfl⟩
  | succ left ih =>
      obtain ⟨asked, tr₁, buf, rfl, huntried, htaken, hpassword, hrest, hs₁⟩ := returns_ask h hs
      dsimp only at hrest
      split at hrest
      case isTrue hempty =>
        -- No password, and so no call.
        have hsound (told : Trace) (htold : Untried told) (hread : readFrom 0 told = []) :=
          Attempt.sound_idle username hpassword hempty (huntried.append htold) hread
        split at hrest
        case isTrue hagain =>
          obtain ⟨told, tr₂, _, rfl, htold, hnext⟩ := Prog.returns_bind_iff.mp hrest
          have hread := readFrom_eq_nil (avoids_stdin_fileWrite _ _) htold
          have hs₂ := (streams_append_iff.mp hs₁).2
          rw [hread] at hs₂
          obtain ⟨attempts, htries, rfl⟩ := ih hnext hs₂ (by omega)
          refine ⟨⟨asked, CStr.read buf, none, told⟩ :: attempts,
            Tries.next (hsound told (untried_of_avoids (by simp) htold) hread) htaken
              (by simp [Attempt.answer]) htries, ?_⟩
          simp [Attempt.trace]
        case isFalse hlast =>
          obtain ⟨rfl, rfl⟩ := Prog.returns_pure_iff.mp hrest
          obtain rfl : left = 0 := by omega
          refine ⟨[⟨asked, CStr.read buf, none, []⟩],
            Tries.next (hsound [] (by simp [Untried]) rfl) htaken (by simp [Attempt.answer])
              Tries.out, ?_⟩
          simp [Attempt.trace]
      case isFalse hsome =>
        obtain ⟨t, tr₂, r, rfl, hcall, hafter⟩ := Prog.returns_bind_iff.mp hrest
        have hnil : readFrom 0 t = [] :=
          readFrom_eq_nil (avoids_authenticate (fun c hc => hc.inquires) id) hcall
        have hsound (told : Trace) (htold : Untried told) (hread : readFrom 0 told = []) :=
          Attempt.sound_called hpassword hsome hcall hnil (huntried.append htold) hread
        split at hafter
        case isTrue hone =>
          obtain ⟨rfl, rfl⟩ := Prog.returns_pure_iff.mp hafter
          subst hone
          refine ⟨[⟨asked, CStr.read buf, some (t, 1), []⟩],
            Tries.granted (hsound [] (by simp [Untried]) rfl) htaken rfl, ?_⟩
          simp [Attempt.trace]
        case isFalse hone =>
          obtain ⟨told, tr₃, _, rfl, htold, hnext⟩ := Prog.returns_bind_iff.mp hafter
          obtain ⟨hquiet, hread⟩ := returns_told htold
          have hs₂ := (streams_append_iff.mp (streams_append_iff.mp hs₁).2).2
          rw [hnil, hread] at hs₂
          obtain ⟨attempts, htries, rfl⟩ := ih hnext hs₂ (by omega)
          refine ⟨⟨asked, CStr.read buf, some (t, r), told⟩ :: attempts,
            Tries.next (hsound told hquiet hread) htaken ?_ htries, ?_⟩
          · simpa [Attempt.answer] using hone
          · simp [Attempt.trace]

section Tries

variable {username : CStr} {left : Nat} {s : Bytes} {attempts : List Attempt} {granted : Bool}

theorem Tries.length_le (h : Tries username left s attempts granted) : attempts.length ≤ left := by
  induction h with
  | out => exact Nat.le_refl 0
  | next _ _ _ _ ih => exact Nat.succ_le_succ ih
  | granted => exact Nat.succ_le_succ (Nat.zero_le _)

theorem Tries.first (h : Tries username (left + 1) s attempts granted) :
    ∃ a rest, attempts = a :: rest ∧ a.Sound username ∧
      a.taken = (firstLine s).take (pwBufCap - 1) := by
  cases h with
  | next hsound htaken => exact ⟨_, _, rfl, hsound, htaken⟩
  | granted hsound htaken => exact ⟨_, _, rfl, hsound, htaken⟩

theorem Tries.sound (h : Tries username left s attempts granted) :
    ∀ a ∈ attempts, a.Sound username := by
  induction h with
  | out => simp
  | next hsound _ _ _ ih => exact List.forall_mem_cons.mpr ⟨hsound, ih⟩
  | granted hsound => simpa using hsound

/-- Success is what the last call returned. -/
theorem Tries.granted_iff (h : Tries username left s attempts granted) :
    granted = true ↔ (attempts.filterMap Attempt.answer).getLast? = some 1 := by
  induction h with
  | out => simp
  | @next left s a attempts granted _ _ hanswer _ ih =>
      rw [ih]
      cases ha : a.answer with
      | none => rw [List.filterMap_cons_none ha]
      | some r =>
          have hne : r ≠ 1 := fun hr => hanswer (by rw [ha, hr])
          rw [List.filterMap_cons_some ha, List.getLast?_cons]
          cases (attempts.filterMap Attempt.answer).getLast? with
          | none => simp [hne]
          | some r' => simp
  | granted _ _ hanswer => simp [hanswer]

theorem Tries.readFrom_eq (h : Tries username left s attempts granted) :
    readFrom 0 (attempts.flatMap Attempt.trace) = attempts.flatMap Attempt.taken := by
  have hinput : ∀ a ∈ attempts, readFrom 0 a.trace = a.taken := fun a ha => (h.sound a ha).input
  rw [readFrom, List.flatMap_assoc]
  exact List.flatMap_congr hinput

/-- The attempts that are made get a line each. -/
def OneLineEach (s : Bytes) (attempts : List Attempt) : Prop :=
  ∀ k a, attempts[k]? = some a → a.taken = lineAt k s ∧ a.password = passwordOf (lineAt k s)

theorem oneLineEach_cons {a : Attempt} :
    OneLineEach s (a :: attempts) ↔
      (a.taken = firstLine s ∧ a.password = passwordOf (firstLine s)) ∧
        OneLineEach (s.drop (firstLine s).length) attempts := by
  constructor
  · intro h
    exact ⟨h 0 a rfl, fun k b hb => h (k + 1) b hb⟩
  · intro h k b hb
    cases k with
    | zero =>
        obtain rfl : a = b := by simpa using hb
        exact h.1
    | succ k => exact h.2 k b hb

/-- An attempt gets its line if the buffer has room for it. -/
theorem taken_eq_iff {a : Attempt} (htaken : a.taken = (firstLine s).take (pwBufCap - 1)) :
    a.taken = firstLine s ↔ (firstLine s).length < pwBufCap := by
  rw [htaken, List.take_eq_self_iff]
  exact Nat.le_sub_one_iff_lt (by decide)

/-- Behind an attempt that got its line and was not answered by `1` comes the next line. -/
theorem Attempt.Sound.attemptLines_next {a : Attempt} (ha : a.Sound username)
    (hline : a.taken = firstLine s) (hanswer : a.answer ≠ some 1) :
    attemptLines (left + 1) s ((a :: attempts).filterMap Attempt.answer) =
      firstLine s :: attemptLines left (s.drop (firstLine s).length)
        (attempts.filterMap Attempt.answer) := by
  have hpassword := ha.password_eq
  rw [hline] at hpassword
  cases hcall : a.call with
  | none =>
      have hnone : a.answer = none := by rw [Attempt.answer, hcall, Option.map_none]
      have hempty := ha.idle_iff.mp hcall
      rw [hpassword] at hempty
      rw [List.filterMap_cons_none hnone, attemptLines_of_empty hempty]
  | some call =>
      have hsome : a.answer = some call.2 := by rw [Attempt.answer, hcall, Option.map_some]
      have hne : (passwordOf (firstLine s)).length ≠ 0 := by
        rw [← hpassword]
        exact fun hempty => by simp [ha.idle_iff.mpr hempty] at hcall
      have hone : call.2 ≠ 1 := fun hone => hanswer (by rw [hsome, hone])
      rw [List.filterMap_cons_some hsome, attemptLines_cons hne, if_neg hone]

/-- An attempt that was answered by `1` is the last. -/
theorem Attempt.Sound.attemptLines_last {a : Attempt} (ha : a.Sound username)
    (hline : a.taken = firstLine s) (hanswer : a.answer = some 1) :
    attemptLines (left + 1) s ([a].filterMap Attempt.answer) = [firstLine s] := by
  have hpassword := ha.password_eq
  rw [hline] at hpassword
  have hne : (passwordOf (firstLine s)).length ≠ 0 := by
    rw [← hpassword]
    exact fun hempty => by simp [Attempt.answer, ha.idle_iff.mpr hempty] at hanswer
  rw [List.filterMap_cons_some hanswer, attemptLines_cons hne, if_pos rfl]

/-- **One line is one attempt** for lines that the buffer has room for. -/
theorem Tries.oneLineEach_iff (h : Tries username left s attempts granted) :
    OneLineEach s attempts ↔
      ∀ line ∈ attemptLines left s (attempts.filterMap Attempt.answer), line.length < pwBufCap := by
  induction h with
  | out => simp [OneLineEach, attemptLines]
  | @next left s a attempts granted hsound htaken hanswer htries ih =>
      rw [oneLineEach_cons]
      by_cases hshort : (firstLine s).length < pwBufCap
      · have hline := (taken_eq_iff htaken).mpr hshort
        rw [hline] at ih
        rw [hsound.attemptLines_next hline hanswer, List.forall_mem_cons, ih, hsound.password_eq,
          hline]
        simp [hshort]
      · refine iff_of_false (fun h => hshort ((taken_eq_iff htaken).mp h.1.1)) fun h => ?_
        exact hshort (h _ (firstLine_mem_attemptLines left s _))
  | @granted left s a hsound htaken hanswer =>
      rw [oneLineEach_cons]
      by_cases hshort : (firstLine s).length < pwBufCap
      · have hline := (taken_eq_iff htaken).mpr hshort
        rw [hsound.attemptLines_last hline hanswer, hsound.password_eq, hline]
        simp [hshort, OneLineEach]
      · refine iff_of_false (fun h => hshort ((taken_eq_iff htaken).mp h.1.1)) fun h => ?_
        exact hshort (h _ (firstLine_mem_attemptLines left s _))

end Tries

/-! ### Runs -/

/-- On every stream there is a run to the end. -/
def Completes {α : Type} (p : Sys α) : Prop := ∀ s, ∃ tr a, Returns p tr a ∧ Streams s tr

section Completes

variable {α β : Type}

theorem Completes.pure (a : α) : Completes (Pure.pure a : Sys α) :=
  fun _ => ⟨[], a, Prog.returns_pure_iff.mpr ⟨rfl, rfl⟩, trivial⟩

theorem Completes.bind {p : Sys α} {f : α → Sys β} (hp : Completes p)
    (hf : ∀ a, Completes (f a)) : Completes (p >>= f) := by
  intro s
  obtain ⟨tr₁, a, hrun, hs⟩ := hp s
  obtain ⟨tr₂, b, hrest, hs₂⟩ := hf a (s.drop (readFrom 0 tr₁).length)
  exact ⟨tr₁ ++ tr₂, b, hrun.bind hrest, streams_append_iff.mpr ⟨hs, hs₂⟩⟩

/-- A call that does not read stdin may be answered in any way. -/
theorem Completes.call {c : SysCall} {k : c.Answer → Sys α} (hc : ¬ c.ReadsStdin) (r : c.Answer)
    (h : Completes (k r)) : Completes (.call c k) := by
  intro s
  have hask : Returns (sys c) [⟨c, r⟩] r := Prog.Steps.cons (Prog.Steps.nil _)
  have hnil := readFrom_eq_nil ((Prog.avoids_ask c).mpr hc) hask
  have hby : readBy 0 ⟨c, r⟩ = [] := (List.append_eq_nil_iff.mp hnil).1
  obtain ⟨tr, a, hrun, hs⟩ := h s
  refine ⟨⟨c, r⟩ :: tr, a, Prog.Steps.cons hrun, fun n hread => absurd ?_ hc, ?_⟩
  · rw [show c = .read 0 n from hread]
    rfl
  · rw [hby]
    exact hs

theorem completes_fileWrite (fd : Int) (data : Bytes) : Completes (fileWrite fd data) :=
  Completes.call id (0 : Int) (Completes.pure ())

theorem completes_fileRead_stdin (n : Nat) : Completes (fileRead 0 n) := by
  intro s
  refine ⟨[⟨.read 0 n, some s⟩], s.take n, ?_, fun m hm => ?_, trivial⟩
  · exact Prog.Steps.cons (Prog.Steps.nil _)
  · cases hm
    rfl

theorem completes_readPasswordLoop (left pos : Nat) (buf : Bytes) :
    Completes (readPasswordLoop left pos buf) := by
  induction left generalizing pos buf with
  | zero => exact Completes.pure buf
  | succ left ih =>
      refine (completes_fileRead_stdin 1).bind fun got => ?_
      cases got with
      | nil => exact Completes.pure buf
      | cons c got =>
          by_cases hc : c = 10
          · simp only [hc, if_true]
            exact Completes.pure _
          · simp only [hc, if_false]
            exact ih _ _

theorem completes_readPasswordInto (buf : Bytes) (cap : Nat) :
    Completes (readPasswordInto buf cap) := by
  refine Completes.call id (none : Option Bytes) ?_
  refine (completes_readPasswordLoop _ _ _).bind fun _ => ?_
  exact (completes_fileWrite _ _).bind fun _ => Completes.pure _

theorem completes_promptLoop (username : CStr) (left attempt : Nat) :
    Completes (promptLoop username left attempt) := by
  induction left generalizing attempt with
  | zero => exact Completes.pure false
  | succ left ih =>
      refine (completes_fileWrite _ _).bind fun _ => (completes_fileWrite _ _).bind fun _ => ?_
      refine (completes_fileWrite _ _).bind fun _ => ?_
      refine (completes_readPasswordInto _ _).bind fun buf => ?_
      dsimp only
      split
      · split
        · exact (completes_fileWrite _ _).bind fun _ => ih _
        · exact Completes.pure false
      · refine Completes.bind (Completes.call id PamResult.authFail (Completes.pure 0)) fun r => ?_
        split
        · exact Completes.pure true
        · split
          · exact (completes_fileWrite _ _).bind fun _ => ih _
          · exact (Completes.pure ()).bind fun _ => ih _

/-- The function has a run on every stream. -/
theorem completes_promptAndAuthenticate (username : CStr) :
    Completes (Checked.promptAndAuthenticate username (List.replicate pwBufCap (some 0))) := by
  rw [Checked.promptAndAuthenticate_eq]
  exact (completes_promptLoop username _ _).bind fun granted => Completes.pure _

end Completes

/-! ### One line, one attempt -/

/-- **One line is one attempt**, exactly where the buffer has room for the lines. Whatever is on
stdin and whatever the backends answer: no access leaves the buffer; the run is a sequence of at
most three attempts; each calls `authenticate` once, with the bytes it took itself, or not at all
where that is no password; and the result is what the last call returned. The attempts take the
lines of the input, one each, if and only if each line that an attempt is to be made for is, with
its newline, shorter than the buffer. -/
theorem promptAndAuthenticate_oneLineEach_iff {username : CStr} {s : Bytes} {tr : Trace}
    {result : Option Bool}
    (hrun : Returns
      (Checked.promptAndAuthenticate username (List.replicate pwBufCap (some 0))) tr result)
    (hs : Streams s tr) :
    ∃ granted attempts, result = some granted ∧ tr = attempts.flatMap Attempt.trace ∧
      attempts.length ≤ maxAuthAttempts ∧ (∀ a ∈ attempts, a.Sound username) ∧
      (granted = true ↔ (attempts.filterMap Attempt.answer).getLast? = some 1) ∧
      readFrom 0 tr = attempts.flatMap Attempt.taken ∧
      (OneLineEach s attempts ↔
        ∀ line ∈ attemptLines maxAuthAttempts s (attempts.filterMap Attempt.answer),
          line.length < pwBufCap) := by
  rw [Checked.promptAndAuthenticate_eq] at hrun
  obtain ⟨granted, hreturns, rfl⟩ := Prog.returns_map_iff.mp hrun
  obtain ⟨attempts, htries, rfl⟩ :=
    @promptLoop_tries username maxAuthAttempts 1 s tr granted hreturns hs rfl
  exact ⟨granted, attempts, rfl, rfl, htries.length_le, htries.sound, htries.granted_iff,
    htries.readFrom_eq, htries.oneLineEach_iff⟩

/-- The lines are parts of the stream. -/
theorem length_le_of_mem_attemptLines {left : Nat} {s line : Bytes} {answers : List Int}
    (h : line ∈ attemptLines left s answers) : line.length ≤ s.length := by
  induction left generalizing s answers with
  | zero => simp [attemptLines] at h
  | succ left ih =>
      have hbehind : ∀ answers', line ∈ attemptLines left (s.drop (firstLine s).length) answers' →
          line.length ≤ s.length := fun answers' h' =>
        (ih h').trans ((List.drop_sublist _ s).length_le)
      have hfirst : (firstLine s).length ≤ s.length := (firstLine_isPrefix s).length_le
      rw [attemptLines.eq_def] at h
      dsimp only at h
      split at h
      · rcases List.mem_cons.mp h with rfl | h'
        · exact hfirst
        · exact hbehind _ h'
      · split at h
        · obtain rfl := List.mem_singleton.mp h
          exact hfirst
        · split at h
          · obtain rfl := List.mem_singleton.mp h
            exact hfirst
          · rcases List.mem_cons.mp h with rfl | h'
            · exact hfirst
            · exact hbehind _ h'

/-- A stream of one short line. -/
theorem promptAndAuthenticate_oneLineEach_short :
    ∃ tr granted attempts, Returns (Checked.promptAndAuthenticate (cstr "al")
        (List.replicate pwBufCap (some 0))) tr (some granted) ∧
      tr = attempts.flatMap Attempt.trace ∧ OneLineEach (utf8 "pw\n") attempts := by
  obtain ⟨tr, result, hrun, hs⟩ := completes_promptAndAuthenticate (cstr "al") (utf8 "pw\n")
  obtain ⟨granted, attempts, rfl, htrace, -, -, -, -, hiff⟩ :=
    promptAndAuthenticate_oneLineEach_iff hrun hs
  refine ⟨tr, granted, attempts, hrun, htrace, hiff.mpr fun line hline => ?_⟩
  exact lt_of_le_of_lt (length_le_of_mem_attemptLines hline) (by decide)

/-- A stream of 1024 bytes without a newline, which the buffer has no room for. -/
def unendingLine : Bytes := List.replicate 1024 97

theorem firstLine_replicate (n : Nat) :
    firstLine (List.replicate n 97) = List.replicate n 97 := by
  induction n with
  | zero => rfl
  | succ n ih => rw [List.replicate_succ, firstLine, if_neg (by decide), ih]

theorem length_passwordOf_replicate (n : Nat) :
    (passwordOf (List.replicate n 97)).length = n := by
  rw [CStr.length, passwordOf_bytes, List.takeWhile_replicate, if_pos (by decide),
    List.length_replicate]

/-- On that stream, a line of its own gives every attempt all of the stream, or nothing. -/
theorem length_passwordOf_lineAt_unendingLine (k : Nat) :
    (passwordOf (lineAt k unendingLine)).length = 1024 ∨
      (passwordOf (lineAt k unendingLine)).length = 0 := by
  cases k with
  | zero =>
      left
      rw [lineAt, unendingLine, firstLine_replicate, length_passwordOf_replicate]
  | succ k =>
      right
      have hnil : ∀ k, lineAt k [] = [] := by
        intro k
        induction k with
        | zero => rfl
        | succ k ih => exact ih
      rw [lineAt, unendingLine, firstLine_replicate, List.drop_length, hnil]
      rfl

/-- What is handed over in an attempt is its password. -/
theorem Attempt.Sound.password_of_mem {username user password : CStr} {a : Attempt}
    {rc : PamResult} (ha : a.Sound username)
    (he : (⟨.pamUnixAuthenticate user password, rc⟩ : Event sysSig) ∈ a.trace) :
    password = a.password := by
  have hnot : (⟨.pamUnixAuthenticate user password, rc⟩ : Event sysSig) ∉ a.asked ++ a.told :=
    fun hmem => ha.untried _ hmem trivial
  rw [List.mem_append, not_or] at hnot
  rcases List.mem_append.mp he with hasked | he
  · exact absurd hasked hnot.1
  · rcases List.mem_append.mp he with hcall | htold
    · cases hc : a.call with
      | none => simp [hc] at hcall
      | some call =>
          rw [hc] at hcall
          have havoids : Prog.Avoids (fun c : SysCall => c.TriesPassword ∧
              ∀ u, c ≠ .pamUnixAuthenticate u a.password) (authenticate username a.password) :=
            avoids_authenticate (fun c hc => hc.1.inquires) fun h => h.2 username rfl
          have hevent := havoids.returns (ha.called _ _ hc) _ hcall
          by_contra hne
          exact hevent ⟨trivial, fun u heq => hne (by cases heq; rfl)⟩
    · exact absurd htold hnot.2

/-- **The tail of a long line is left on stdin.** -/
theorem promptAndAuthenticate_cutLine :
    ¬ ∀ (username : CStr) (s : Bytes) (tr : Trace) (result : Option Bool),
      Returns (Checked.promptAndAuthenticate username
        (List.replicate pwBufCap (some 0))) tr result → Streams s tr →
      ∃ granted attempts, result = some granted ∧ tr = attempts.flatMap Attempt.trace ∧
        (∀ a ∈ attempts, a.Sound username) ∧ OneLineEach s attempts := by
  intro hclaim
  obtain ⟨tr, result, hrun, hs⟩ := completes_promptAndAuthenticate (cstr "al") unendingLine
  obtain ⟨-, attempts, -, htrace, hsound, hone⟩ := hclaim _ _ _ _ hrun hs
  rw [Checked.promptAndAuthenticate_eq] at hrun
  obtain ⟨granted, hreturns, -⟩ := Prog.returns_map_iff.mp hrun
  obtain ⟨tries, htries, htrace'⟩ :=
    @promptLoop_tries (cstr "al") maxAuthAttempts 1 unendingLine tr granted hreturns hs rfl
  obtain ⟨a, rest, rfl, ha, htaken⟩ := htries.first
  have hlength : a.password.length = 1023 := by
    rw [ha.password_eq, htaken, unendingLine, firstLine_replicate, List.take_replicate]
    exact length_passwordOf_replicate 1023
  -- The first 1023 bytes are handed over.
  have htried : ∃ rc, (⟨.pamUnixAuthenticate (cstr "al") a.password, rc⟩ : Event sysSig) ∈ tr := by
    cases hc : a.call with
    | none => simp [ha.idle_iff.mp hc] at hlength
    | some call =>
        obtain ⟨rc, t, ht, -⟩ := Prog.returns_call_iff.mp (ha.called _ _ hc)
        refine ⟨rc, ?_⟩
        rw [htrace', List.flatMap_cons, Attempt.trace, hc]
        refine List.mem_append_left _ (List.mem_append_right _ (List.mem_append_left _ ?_))
        rw [Option.elim_some, ht]
        exact List.mem_cons_self
  obtain ⟨rc, hmem⟩ := htried
  rw [htrace] at hmem
  obtain ⟨b, hb, hmem⟩ := List.mem_flatMap.mp hmem
  obtain ⟨k, hk⟩ := List.getElem?_of_mem hb
  have hpassword := (hsound b hb).password_of_mem hmem
  rw [(hone k b hk).2] at hpassword
  rw [hpassword] at hlength
  have hcases := length_passwordOf_lineAt_unendingLine k
  omega

end Shakti
