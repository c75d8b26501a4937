import Shakti.Resolution
import Shakti.Timestamp

/-!
# Shakti.TimestampConfinement

Timestamp files stay in the timestamp directory.

* In `Checked` the path is built in memory: the link of stdin is read into a buffer of 256 bytes
  and rewritten there, and the pieces are copied into a buffer of the size computed for them.
  `Checked.timestampPath_eq` says that no access leaves the buffers and that the result is the
  path of `Shakti.timestampPath`.
* `IsFileName` — a component that names an entry of the directory it is looked up in.
* `InTimestampDir` — the path of an entry of the timestamp directory.
* `StaysInside` — the calls that leave everything outside that directory as it is.
-/

namespace Shakti

open Effects Memory
open Effects.Prog (Returns Avoids avoids_ask avoids_bind avoids_ite)

/-! ### The path -/

/-- The bytes of a timestamp file's path. -/
theorem timestampFile_bytes (user tty : CStr) :
    (timestampFile user tty).bytes = defaultTimestampDir.bytes ++ [47] ++ user.bytes ++
      (if 0 < tty.length then 58 :: tty.bytes else []) := by
  have hslash : (cstr "/").bytes = [47] := by decide
  have hcolon : (cstr ":").bytes = [58] := by decide
  have hempty : (cstr "").bytes = [] := by decide
  rw [timestampFile]
  by_cases htty : 0 < tty.length
  · rw [if_pos htty, if_pos htty]
    simp only [CStr.append_bytes, hslash, hcolon, List.append_assoc, List.cons_append,
      List.nil_append]
  · rw [if_neg htty, if_neg htty]
    simp only [CStr.append_bytes, hslash, hempty]

/-! ### The path, in memory -/

namespace Checked

/-- The comparison of the first five bytes with `/dev/`, made where there are as many. -/
def isDev (buf : Block UInt8) (n : Nat) : Option Bool :=
  if n < 5 then some false
  else do
    let b0 ← loadCell buf 0
    let b1 ← loadCell buf 1
    let b2 ← loadCell buf 2
    let b3 ← loadCell buf 3
    let b4 ← loadCell buf 4
    return decide (b0 = 47 ∧ b1 = 100 ∧ b2 = 101 ∧ b3 = 118 ∧ b4 = 47)

/-- One turn of the loop that rewrites the slashes of `body = buf + 5`. -/
def dashTurn : Nat × Block UInt8 → Option (Turn (Nat × Block UInt8) (Block UInt8))
  | (i, buf) => do
      let c ← loadCell buf (5 + i)
      if c = 0 then return .done buf
      else if c = 47 then return .next (i + 1, ← Memory.store buf (5 + i) 45)
      else return .next (i + 1, buf)

/-- What `_shk_tty_session` makes of the link. The kernel writes 255 bytes of it at most. -/
def ttyOfLink (fuel : Nat) (link : Option Bytes) : Option CStr :=
  match link with
  | none => some (cstr "")
  | some link => do
      let data := link.take 255
      let buf ← fill (alloc 256) 0 data
      let n := data.length
      if n = 0 then return cstr ""
      else do
        let n := if 255 < n then 255 else n
        let buf ← Memory.store buf n 0
        if !(← isDev buf n) then return cstr ""
        else cstrAt ((← run dashTurn fuel (0, buf)).drop 5)

/-- `_shk_tty_session`. -/
def shkTtySession (fuel : Nat) : Sys (Option CStr) := do
  let link : Option Bytes ← sys (.readlink (cstr "/proc/self/fd/0"))
  pure (ttyOfLink fuel link)

/-- The buffer `timestamp_path` builds the path in. -/
def buildPath (fuel : Nat) (dir user tty : CStr) : Option (Block UInt8) := do
  let dl ← strlen fuel dir
  let ul ← strlen fuel user
  let tl ← strlen fuel tty
  let extra := if 0 < tl then 1 + tl else 0
  let out ← copyTo (chars dir) 0 0 dl (alloc (dl + 1 + ul + extra + 1))
  let out ← Memory.store out dl 47
  let out ← copyTo (chars user) 0 (dl + 1) ul out
  let out ←
    if 0 < tl then do
      let out ← Memory.store out (dl + 1 + ul) 58
      copyTo (chars tty) 0 (dl + 1 + ul + 1) tl out
    else some out
  Memory.store out (dl + 1 + ul + extra) 0

/-- `timestamp_path`. -/
def timestampPath (fuel : Nat) (user : CStr) : Sys (Option CStr) := do
  let tty ← shkTtySession fuel
  pure (tty.bind fun tty => (buildPath fuel defaultTimestampDir user tty).bind cstrAt)

/-! ### The terminal -/

/-- The slashes up to the first NUL rewritten. -/
def dashes : Bytes → Bytes
  | [] => []
  | c :: x => if c = 0 then c :: x else (if c = 47 then 45 else c) :: dashes x

theorem takeWhile_dashes (x : Bytes) :
    (dashes x).takeWhile (· != 0) =
      (x.map (fun c => if c = 47 then 45 else c)).takeWhile (· != 0) := by
  induction x with
  | nil => rfl
  | cons c x ih =>
      rw [dashes, List.map_cons]
      by_cases h0 : c = 0
      · simp [h0]
      · rw [if_neg h0]
        have hne : ((if c = 47 then 45 else c : UInt8) != 0) = true := by
          split
          · decide
          · simpa using h0
        simp only [List.takeWhile_cons, hne, if_true, ih]

/-- One turn in front of a byte: it ends at a NUL, and rewrites a slash. -/
theorem dashTurn_cons {made : Bytes} {i : Nat} (hi : made.length = 5 + i) (c : UInt8)
    (x : Block UInt8) :
    dashTurn (i, made.map some ++ some c :: x) = some (
      if c = 0 then .done (made.map some ++ some c :: x)
      else .next (i + 1, (made ++ [if c = 47 then 45 else c]).map some ++ x)) := by
  have hload := loadCell_append (made.map some) (some c) x
  have hstore := store_append (made.map some) (some c) x 45
  rw [List.length_map, hi] at hload hstore
  simp only [dashTurn, hload, Option.bind_eq_bind, Option.bind_some]
  by_cases h0 : c = 0
  · rw [if_pos h0, if_pos h0]
    rfl
  · rw [if_neg h0, if_neg h0]
    by_cases h47 : c = 47
    · rw [if_pos h47, if_pos h47, hstore]
      simp
    · rw [if_neg h47, if_neg h47]
      simp

theorem run_dashTurn {front todo : Bytes} {rest : Block UInt8} {fuel : Nat}
    (hfront : front.length = 5) (hfuel : todo.length < fuel) :
    run dashTurn fuel (0, front.map some ++ (todo.map some ++ some 0 :: rest)) =
      some (front.map some ++ ((dashes todo).map some ++ some 0 :: rest)) := by
  -- `made` is what stands before the position, the link's start and the bytes done.
  refine run_eq (fun n (s : Nat × Block UInt8) b => ∃ made left : Bytes, n = left.length ∧
      made.length = 5 + s.1 ∧ s.2 = made.map some ++ (left.map some ++ some 0 :: rest) ∧
      b = made.map some ++ ((dashes left).map some ++ some 0 :: rest))
    ?_ ⟨front, todo, rfl, hfront, rfl, rfl⟩ hfuel
  intro n s b hexpect
  obtain ⟨i, buf⟩ := s
  obtain ⟨made, left, rfl, hi, hbuf, rfl⟩ := hexpect
  dsimp only at hi hbuf
  subst hbuf
  cases left with
  | nil =>
      left
      rw [List.map_nil, List.nil_append, dashTurn_cons hi, if_pos rfl]
      rfl
  | cons c left =>
      rw [List.map_cons, List.cons_append, dashTurn_cons hi, dashes]
      by_cases h0 : c = 0
      · rw [if_pos h0, if_pos h0]
        exact Or.inl rfl
      · rw [if_neg h0, if_neg h0]
        refine Or.inr ⟨left.length, _, Nat.lt_succ_self _, rfl, _, left, rfl, ?_, rfl, ?_⟩
        · rw [List.length_append, hi]
          rfl
        · simp

/-- What is returned of the rewritten link. -/
theorem cstrAt_dashTurn {front todo : Bytes} {fuel : Nat} (hfront : front.length = 5)
    (hfuel : todo.length < fuel) (b : Block UInt8) :
    ((run dashTurn fuel (0, put b 0 (front ++ todo ++ [0]))).bind fun b => cstrAt (b.drop 5)) =
      some (CStr.read (todo.map fun c => if c = 47 then 45 else c)) := by
  simp only [put_zero, List.map_append, List.append_assoc, List.map_cons, List.map_nil,
    List.cons_append, List.nil_append]
  have hlen : (front.map some).length = 5 := by rw [List.length_map, hfront]
  rw [run_dashTurn hfront hfuel, Option.bind_some, List.drop_left' hlen, cstrAt, textOf_eq,
    takeWhile_dashes, Option.map_some]
  exact congrArg some (CStr.read_bytes_self (CStr.read _))

theorem isDev_eq (x : Bytes) (rest : Block UInt8) :
    isDev (x.map some ++ rest) x.length = some (decide (x.take 5 = utf8 "/dev/")) := by
  have hdev : utf8 "/dev/" = [47, 100, 101, 118, 47] := by decide
  rw [isDev, hdev]
  by_cases hlen : x.length < 5
  · have hshort : x.take 5 ≠ [47, 100, 101, 118, 47] := by
      intro h
      have := congrArg List.length h
      simp only [List.length_take, List.length_cons, List.length_nil] at this
      omega
    rw [if_pos hlen, decide_eq_false hshort]
  · rw [if_neg hlen]
    match x, hlen with
    | [], h | [_], h | [_, _], h | [_, _, _], h | [_, _, _, _], h => exact absurd (by simp) h
    | b0 :: b1 :: b2 :: b3 :: b4 :: x, _ => simp [loadCell]

theorem ttyOfLink_eq (link : Option Bytes) {fuel : Nat} (hfuel : 256 < fuel) :
    ttyOfLink fuel link = some (ttyName ((link.getD []).take 255)) := by
  cases link with
  | none => rfl
  | some link =>
      rw [ttyOfLink, Option.getD_some]
      generalize hdata : link.take 255 = data
      have hlen : data.length ≤ 255 := by
        rw [← hdata]
        exact List.length_take_le 255 link
      have hroom : data.length < (alloc 256 : Block UInt8).length := by
        rw [length_alloc]
        omega
      rw [fill_eq (by omega)]
      simp only [Option.bind_eq_bind, Option.bind_some, if_neg (Nat.not_lt.mpr hlen),
        store_front rfl hroom]
      -- The kernel cuts the link to 255 bytes, so there is a byte left for the NUL.
      by_cases hempty : data.length = 0
      · rw [if_pos hempty, List.length_eq_zero_iff.mp hempty]
        rfl
      · have hisdev : isDev (put (alloc 256) 0 (data ++ [0])) data.length =
            some (decide (data.take 5 = utf8 "/dev/")) := by
          rw [put_zero, List.map_append, List.append_assoc, isDev_eq]
        rw [if_neg hempty, hisdev, Option.bind_some]
        by_cases hdev : data.take 5 = utf8 "/dev/"
        · obtain ⟨front, todo, rfl, hfront⟩ :
              ∃ front todo, data = front ++ todo ∧ front.length = 5 := by
            refine ⟨data.take 5, data.drop 5, (List.take_append_drop 5 data).symm, ?_⟩
            rw [hdev]
            decide
          have htodo : todo.length < fuel := by
            rw [List.length_append] at hlen
            omega
          rw [decide_eq_true hdev, ttyName, if_pos hdev, List.drop_left' hfront]
          exact cstrAt_dashTurn hfront htodo _
        · rw [ttyName, if_neg hdev, decide_eq_false hdev]
          rfl

/-! ### The buffer -/

/-- The pieces are put one behind the other, and fill the buffer. -/
theorem buildPath_eq {fuel : Nat} {dir user tty : CStr} (hdir : dir.length < fuel)
    (huser : user.length < fuel) (htty : tty.length < fuel) :
    ∃ b, buildPath fuel dir user tty = some (put b 0 (dir.bytes ++ [47] ++ user.bytes ++
      (if 0 < tty.length then 58 :: tty.bytes else []) ++ [0])) := by
  have hdl : dir.bytes.length = dir.length := rfl
  have hul : user.bytes.length = user.length := rfl
  have htl : tty.bytes.length = tty.length := rfl
  generalize hextra : (if 0 < tty.length then 1 + tty.length else 0) = extra
  generalize hb : (alloc (dir.length + 1 + user.length + extra + 1) : Block UInt8) = b
  have hroom : b.length = dir.length + 1 + user.length + extra + 1 := by
    rw [← hb, length_alloc]
  have hcopyDir := @copyTo_front _ _ [] dir.bytes b _ _ 0 dir.length (rest_zero dir) rfl rfl
    (by omega)
  have hslash := @store_front _ b dir.bytes dir.length rfl (by omega) 47
  have hcopyUser := @copyTo_front _ _ (dir.bytes ++ [47]) user.bytes b _ _ (dir.length + 1)
    user.length (rest_zero user) (by simp [hdl]) rfl (by omega)
  have hfront : (dir.bytes ++ [47] ++ user.bytes).length = dir.length + 1 + user.length := by
    simp only [List.length_append, List.length_singleton, hdl, hul]
  rw [put_nil] at hcopyDir
  refine ⟨b, ?_⟩
  rw [buildPath]
  simp only [strlen_eq hdir, strlen_eq huser, strlen_eq htty, chars_eq, hextra, hb, hcopyDir,
    List.nil_append, hslash, hcopyUser, Option.bind_eq_bind, Option.bind_some]
  -- With a terminal, a colon and its name follow; without one the path ends with the user.
  by_cases hpos : 0 < tty.length
  · rw [if_pos hpos] at hextra
    have hcolon := @store_front _ b (dir.bytes ++ [47] ++ user.bytes)
      (dir.length + 1 + user.length) hfront.symm (by omega) 58
    have hcopyTty := @copyTo_front _ _ (dir.bytes ++ [47] ++ user.bytes ++ [58]) tty.bytes b _ _
      (dir.length + 1 + user.length + 1) tty.length (rest_zero tty)
      (by rw [List.length_append, hfront, List.length_singleton]) rfl (by omega)
    have hnul := @store_front _ b (dir.bytes ++ [47] ++ user.bytes ++ [58] ++ tty.bytes)
      (dir.length + 1 + user.length + extra)
      (by rw [List.length_append, List.length_append, hfront, List.length_singleton]; omega)
      (by omega) 0
    simp only [if_pos hpos, hcolon, hcopyTty, hnul, Option.bind_some]
    simp only [List.append_assoc, List.cons_append, List.nil_append]
  · rw [if_neg hpos] at hextra
    have hnul := @store_front _ b (dir.bytes ++ [47] ++ user.bytes)
      (dir.length + 1 + user.length + extra) (by omega) (by omega) 0
    simp only [if_neg hpos, hnul, List.append_nil]

theorem length_ttyName_le (link : Bytes) : (ttyName link).length ≤ link.length := by
  rw [ttyName]
  split
  · refine (List.takeWhile_sublist _).length_le.trans ?_
    rw [List.length_map, List.length_drop]
    omega
  · exact Nat.zero_le _

/-- No access of `timestamp_path` leaves a buffer, and the path it returns is the one the model
computes. -/
theorem timestampPath_eq {user : CStr} {fuel : Nat} (huser : user.length < fuel)
    (hfuel : 256 < fuel) :
    timestampPath fuel user = Shakti.timestampPath user >>= fun path => pure (some path) := by
  refine congrArg (Prog.call _) (funext fun link : Option Bytes => ?_)
  have htty : (ttyName ((link.getD []).take 255)).length < fuel := by
    have := length_ttyName_le ((link.getD []).take 255)
    have := List.length_take_le 255 (link.getD [])
    omega
  obtain ⟨b, hb⟩ := @buildPath_eq fuel defaultTimestampDir user _
    (Nat.lt_trans (by decide) hfuel) huser htty
  refine congrArg Prog.pure ?_
  rw [ttyOfLink_eq link hfuel, Option.bind_some, hb, Option.bind_some, cstrAt_put,
    ← timestampFile_bytes, CStr.read_bytes_self]

end Checked

/-! ### Inside the directory -/

/-- A component that names an entry of the directory it is looked up in. -/
structure IsFileName (name : Bytes) : Prop where
  nonempty : name ≠ []
  noSlash : 47 ∉ name
  notDot : name ≠ [46]
  notDotDot : name ≠ [46, 46]

/-- The path of an entry of the timestamp directory. -/
def InTimestampDir (path : CStr) : Prop :=
  ∃ name, path.bytes = defaultTimestampDir.bytes ++ 47 :: name ∧ IsFileName name

/-- The calls that leave everything outside the timestamp directory as it is. The directory
itself may be made; a file is opened so that a link in its place is not followed. -/
def StaysInside : SysCall → Prop
  | .readlink _ | .lstat _ | .close _ => True
  | .mkdir path _ => path = defaultTimestampDir
  | .open path flags _ => InTimestampDir path ∧ flags &&& oNofollow = oNofollow
  | .unlink path => InTimestampDir path
  | _ => False

/-- No run makes a call that could touch anything outside the timestamp directory. -/
abbrev Confined {α : Type} (p : Sys α) : Prop := Avoids (fun c => ¬ StaysInside c) p

theorem validateUsername_ok_iff (user : CStr) :
    validateUsername user = .ok ↔ IsFileName user.bytes := by
  have hdot : (cstr ".").bytes = [46] := by decide
  have hdots : (cstr "..").bytes = [46, 46] := by decide
  have hlen : user.length = 0 ↔ user.bytes = [] := List.length_eq_zero_iff
  have hslash : user.bytes.any (· == 47) = true ↔ 47 ∈ user.bytes := by simp
  simp only [validateUsername, hlen, CStr.ext_iff, hdot, hdots, hslash]
  constructor
  · intro h
    split at h
    · cases h
    split at h
    · cases h
    split at h
    · cases h
    split at h
    · cases h
    next hempty hd hdd hs => exact ⟨hempty, hs, hd, hdd⟩
  · intro h
    rw [if_neg h.nonempty, if_neg h.notDot, if_neg h.notDotDot, if_neg h.noSlash]

/-- No slash is left in the name of a terminal. -/
theorem noSlash_ttyName (link : Bytes) : 47 ∉ (ttyName link).bytes := by
  rw [ttyName]
  split
  · intro h
    obtain ⟨c, -, hc⟩ := List.mem_map.mp ((List.takeWhile_sublist _).mem h)
    split at hc
    · exact absurd hc (by decide)
    next hne => exact hne hc
  · exact List.not_mem_nil

/-- What follows the name of a user keeps it a file name. -/
theorem IsFileName.append_tty {user : Bytes} (h : IsFileName user) {tty : Bytes}
    (htty : 47 ∉ tty) : IsFileName (user ++ 58 :: tty) where
  nonempty := List.append_ne_nil_of_left_ne_nil h.nonempty _
  noSlash := by simp [h.noSlash, htty]
  notDot heq := by
    have hcolon : (58 : UInt8) ∈ user ++ 58 :: tty := by simp
    rw [heq] at hcolon
    exact absurd hcolon (by decide)
  notDotDot heq := by
    have hcolon : (58 : UInt8) ∈ user ++ 58 :: tty := by simp
    rw [heq] at hcolon
    exact absurd hcolon (by decide)

/-- Whatever the link of stdin is, the timestamp of a valid user is an entry of the directory. -/
theorem timestampFile_inside {user : CStr} (h : IsFileName user.bytes) (link : Bytes) :
    InTimestampDir (timestampFile user (ttyName link)) := by
  rw [InTimestampDir, timestampFile_bytes]
  split
  · exact ⟨user.bytes ++ 58 :: (ttyName link).bytes, by simp, h.append_tty (noSlash_ttyName link)⟩
  · exact ⟨user.bytes, by simp, h⟩

theorem timestampPath_inside {user path : CStr} (h : IsFileName user.bytes) {tr : Trace}
    (hpath : Returns (timestampPath user) tr path) : InTimestampDir path := by
  obtain ⟨link, tr', -, hpure⟩ := Prog.returns_call_iff.mp hpath
  obtain ⟨-, rfl⟩ := Prog.returns_pure_iff.mp hpure
  exact timestampFile_inside h _

theorem confined_shkTtySession : Confined shkTtySession := by
  simp [shkTtySession, StaysInside]

theorem confined_timestampPath (user : CStr) : Confined (timestampPath user) :=
  .bind confined_shkTtySession fun _ => trivial

theorem confined_shkEnsureTsDir : Confined shkEnsureTsDir := by
  refine .bind (by simp [StaysInside]) fun st => ?_
  cases st with
  | none => simp [StaysInside]
  | some st => simp

theorem confined_updateTimestamp (user : CStr) : Confined (updateTimestamp user) := by
  rw [updateTimestamp]
  split
  next hvalid =>
    have hname := (validateUsername_ok_iff user).mp hvalid
    refine .bind confined_shkEnsureTsDir fun dirOk => avoids_ite.mpr ⟨fun _ => trivial, fun _ => ?_⟩
    refine avoids_bind.mpr ⟨confined_timestampPath user, fun tr path hpath => ?_⟩
    -- The only call with a path that depends on the caller.
    have hopen : StaysInside (.open path (oWronly ||| oCreat ||| oTrunc ||| oNofollow) 384) :=
      ⟨timestampPath_inside hname hpath, by decide⟩
    refine .bind ((avoids_ask _).mpr (not_not_intro hopen)) fun fd => ?_
    simp [StaysInside]
  · trivial

theorem confined_invalidateTimestamp (user : CStr) : Confined (invalidateTimestamp user) := by
  rw [invalidateTimestamp]
  split
  next hvalid =>
    have hname := (validateUsername_ok_iff user).mp hvalid
    refine avoids_bind.mpr ⟨confined_timestampPath user, fun tr path hpath => ?_⟩
    have hunlink : StaysInside (.unlink path) := timestampPath_inside hname hpath
    refine .bind (by simp [StaysInside]) fun st => ?_
    cases st with
    | none => trivial
    | some st => simp [hunlink]
  · trivial

/-- The path for a valid user is an entry of the timestamp directory whatever reading the link of
stdin gives; no access leaves a buffer on the way; and neither setting nor removing a timestamp
touches anything outside the directory. -/
theorem timestamps_confined {user : CStr} (h : validateUsername user = .ok) {fuel : Nat}
    (huser : user.length < fuel) (hfuel : 256 < fuel) :
    (∀ link : Option Bytes, ∃ path,
      Returns (Checked.timestampPath fuel user) [⟨.readlink (cstr "/proc/self/fd/0"), link⟩]
        (some path) ∧ InTimestampDir path) ∧
    Checked.timestampPath fuel user = (timestampPath user >>= fun path => pure (some path)) ∧
    Confined (updateTimestamp user) ∧ Confined (invalidateTimestamp user) := by
  have hchecked := Checked.timestampPath_eq huser hfuel
  refine ⟨fun link => ?_, hchecked, confined_updateTimestamp user,
    confined_invalidateTimestamp user⟩
  refine ⟨timestampFile user (ttyName ((link.getD []).take 255)), ?_,
    timestampFile_inside ((validateUsername_ok_iff user).mp h) _⟩
  rw [hchecked]
  exact Prog.Steps.cons (Prog.Steps.nil _)

/-- A user on a terminal whose name has slashes and dots in it. -/
theorem timestamps_confined_alice :
    Confined (updateTimestamp (cstr "alice")) ∧ ∃ path,
      Returns (Checked.timestampPath 257 (cstr "alice"))
        [⟨.readlink (cstr "/proc/self/fd/0"), some (utf8 "/dev/../pts//3")⟩] (some path) ∧
      InTimestampDir path :=
  have h := @timestamps_confined (cstr "alice") (by decide) 257 (by decide) (by decide)
  ⟨h.2.2.1, h.1 _⟩

end Shakti
