import Shakti.JoinedCommand
import Shakti.Lib.Blocks
import Shakti.Policy.Matching

/-!
# Shakti.Resolution

What `resolve_command` leaves in the caller's buffer.

* `Checked.resolveCommand` — the function over the buffer: the loop over the positions of
  `_shk_path`, with each candidate written over the one before, every access checked against
  the buffer's size.
* `searchDirs` — the search by directories. `run_searchTurn` says that the loop computes it.
* `Resolution` — what is asked of a result: a path in the buffer that is executable and the
  first of its kind, and after a failure no candidate. A candidate that does not fit ends the
  search, and nothing has been written by then: the first directory is the longest.
-/

namespace Shakti

open Effects Effects.Prog

/-! ### The function over the buffer -/

namespace Checked

open Memory

/-- Where the search stands: the start of the segment, the position, and the buffer. -/
structure PathSearch where
  segStart : Nat
  j : Nat
  out : Block UInt8

/-- Write `path[segStart..] + '/' + cmd` and a NUL into the buffer. -/
def writeCandidate (path cmd : CStr) (segStart segLen len : Nat) (out : Block UInt8) :
    Option (Block UInt8) := do
  let out ← copyTo (chars path) segStart 0 segLen out
  let out ← Memory.store out segLen 47
  let out ← copyTo (chars cmd) 0 (segLen + 1) len out
  Memory.store out (segLen + 1 + len) 0

/-- What the loop does at the end of a segment. -/
def searchSegment (exec : CStr → Bool) (path cmd : CStr) (len outCap : Nat) (s : PathSearch) :
    Option (Turn PathSearch (Except ShkErr Nat × Block UInt8)) :=
  let segLen := s.j - s.segStart
  if 0 < segLen then
    if outCap < segLen + 1 + len + 1 then return .done (.error .cmdTooLong, s.out)
    else do
      let out ← writeCandidate path cmd s.segStart segLen len s.out
      let found ← cstrAt out
      if exec found then return .done (.ok (segLen + 1 + len), out)
      else return .next ⟨s.j + 1, s.j + 1, out⟩
  else return .next ⟨s.j + 1, s.j + 1, s.out⟩

/-- One turn of the search loop of `resolve_command`. -/
def searchTurn (exec : CStr → Bool) (path cmd : CStr) (len plen outCap : Nat) (s : PathSearch) :
    Option (Turn PathSearch (Except ShkErr Nat × Block UInt8)) :=
  if s.j ≤ plen then do
    let ch ← (if s.j < plen then chars path s.j else some 0)
    if ch = 58 ∨ s.j = plen then searchSegment exec path cmd len outCap s
    else return .next { s with j := s.j + 1 }
  else do
    let out ← Memory.store s.out 0 0
    return .done (.error .notFound, out)

/-- `resolve_command(cmd, out, out_cap)`, where `exec` is what `_is_executable` finds. -/
def resolveCommand (fuel : Nat) (exec : CStr → Bool) (cmd : CStr) (out : Block UInt8)
    (outCap : Nat) : Option (Except ShkErr Nat × Block UInt8) := do
  let len ← strlen fuel cmd
  if len = 0 then return (.error .emptyCmd, out)
  else do
    let first ← chars cmd 0
    if first = 47 then
      if !exec cmd then return (.error .notExecutable, out)
      else if outCap < len + 1 then return (.error .cmdTooLong, out)
      else do
        let out ← copyTo (chars cmd) 0 0 len out
        let out ← Memory.store out len 0
        return (.ok len, out)
    else do
      let i ← scan (chars cmd) (· != 47) len fuel 0
      if i < len then return (.error .relativePath, out)
      else do
        let plen ← strlen fuel shkPath
        run (searchTurn exec shkPath cmd len plen outCap) fuel ⟨0, 0, out⟩

end Checked

/-! ### The search by directories -/

open Memory

/-- The search through the segments of a path. -/
def searchDirs (exec : CStr → Bool) (cmd : CStr) : List Bytes → Block UInt8 →
    Except ShkErr Nat × Block UInt8
  | [], out => (.error .notFound, put out 0 [0])
  | seg :: segs, out =>
      if seg = [] then searchDirs exec cmd segs out
      else if out.length < seg.length + 1 + cmd.length + 1 then (.error .cmdTooLong, out)
      else
        let cand := seg ++ 47 :: cmd.bytes
        if exec (CStr.read cand) then (.ok cand.length, put out 0 (cand ++ [0]))
        else searchDirs exec cmd segs (put out 0 (cand ++ [0]))

namespace Checked

section Search

variable {exec : CStr → Bool} {path cmd : CStr} {out : Block UInt8}

theorem textOf_put (x : Bytes) (b : Block UInt8) :
    textOf (put b 0 (x ++ [0])) = some (x.takeWhile (· != 0)) := by
  rw [put, List.take_zero, List.nil_append, List.map_append, List.append_assoc]
  exact textOf_eq x _

theorem cstrAt_put (x : Bytes) (b : Block UInt8) :
    cstrAt (put b 0 (x ++ [0])) = some (CStr.read x) := by
  rw [cstrAt, textOf_put, Option.map_some]
  exact congrArg some (CStr.read_bytes_self (CStr.read x))

/-- The candidate stands at the front of the buffer, with its NUL. -/
theorem writeCandidate_eq {seg : Bytes} {segStart stop : Nat}
    (h : Spans (path.bytes ++ [0]) segStart stop seg)
    (hroom : seg.length + 1 + cmd.length + 1 ≤ out.length) :
    writeCandidate path cmd segStart seg.length cmd.length out =
      some (put out 0 (seg ++ 47 :: cmd.bytes ++ [0])) := by
  have hcmd : cmd.bytes.length = cmd.length := rfl
  have hseg := @copyTo_front _ _ [] seg out _ _ 0 _ h rfl rfl (by omega)
  have hslash := @store_front _ out seg seg.length rfl (by omega) 47
  have hname := @copyTo_front _ _ (seg ++ [47]) cmd.bytes out _ _ (seg.length + 1) cmd.length
    (rest_zero cmd) (by simp) rfl (by omega)
  have hnul := @store_front _ out (seg ++ [47] ++ cmd.bytes) (seg.length + 1 + cmd.length)
    (by simp [hcmd, Nat.add_assoc, Nat.add_comm]) (by omega) 0
  rw [put_nil] at hseg
  rw [writeCandidate]
  simp only [chars_eq, hseg, List.nil_append, Option.bind_eq_bind, Option.bind_some, hslash, hname,
    hnul]
  simp

/-- The end of a segment: the loop leaves with the result of the search, or goes on with the
segments behind it. -/
theorem searchSegment_eq {seg : Bytes} {segStart stop : Nat}
    (h : Spans (path.bytes ++ [0]) segStart stop seg) (segs : List Bytes) :
    searchSegment exec path cmd cmd.length out.length ⟨segStart, segStart + seg.length, out⟩ =
        some (.done (searchDirs exec cmd (seg :: segs) out)) ∨
      ∃ out', out'.length = out.length ∧
        searchSegment exec path cmd cmd.length out.length
            ⟨segStart, segStart + seg.length, out⟩ =
          some (.next ⟨segStart + seg.length + 1, segStart + seg.length + 1, out'⟩) ∧
        searchDirs exec cmd (seg :: segs) out = searchDirs exec cmd segs out' := by
  simp only [searchSegment, searchDirs, Nat.add_sub_cancel_left]
  cases seg with
  | nil => exact Or.inr ⟨out, rfl, rfl, rfl⟩
  | cons c seg =>
      rw [if_pos (by simp), if_neg (List.cons_ne_nil c seg)]
      by_cases hlong : out.length < (c :: seg).length + 1 + cmd.length + 1
      · rw [if_pos hlong, if_pos hlong]
        exact Or.inl rfl
      · rw [if_neg hlong, if_neg hlong]
        have hcand := @writeCandidate_eq path cmd out _ _ _ h (by omega)
        simp only [hcand, cstrAt_put, Option.bind_eq_bind, Option.bind_some]
        cases hexec : exec (CStr.read (c :: seg ++ 47 :: cmd.bytes)) with
        | true =>
            left
            have hlen : (c :: seg ++ 47 :: cmd.bytes).length =
                (c :: seg).length + 1 + cmd.length := by
              simp only [List.length_append, List.length_cons, CStr.length]
              omega
            rw [hlen]
            rfl
        | false =>
            refine Or.inr ⟨_, length_put ?_, rfl, rfl⟩
            simp only [List.length_append, List.length_cons, List.length_nil, CStr.length]
              at hlong ⊢
            omega

/-- At a colon, and at the end of the path, a segment ends. -/
theorem searchTurn_end {segStart j outCap : Nat} (hout : out.length = outCap)
    (hend : j = path.length ∨ j < path.length ∧ chars path j = some 58) :
    searchTurn exec path cmd cmd.length path.length outCap ⟨segStart, j, out⟩ =
      searchSegment exec path cmd cmd.length out.length ⟨segStart, j, out⟩ := by
  subst hout
  rcases hend with rfl | ⟨hlt, hload⟩
  · simp [searchTurn]
  · simp [searchTurn, hlt, hlt.le, hload]

/-- **The loop over the positions** of a path is the search through its segments. -/
theorem run_searchTurn {segStart : Nat} {a rest : Bytes} {fuel outCap : Nat}
    (h : Rest path segStart (a ++ rest)) (ha : 58 ∉ a) (hcap : 1 ≤ out.length)
    (hout : out.length = outCap) (hfuel : rest.length + 1 < fuel) :
    run (searchTurn exec path cmd cmd.length path.length outCap) fuel
        ⟨segStart, segStart + a.length, out⟩ =
      some (searchDirs exec cmd ((a ++ rest).splitOn 58) out) := by
  refine run_eq (fun n (s : PathSearch) b => s.out.length = outCap ∧
      ((∃ a rest, n = rest.length + 1 ∧ Rest path s.segStart (a ++ rest) ∧ 58 ∉ a ∧
          s.j = s.segStart + a.length ∧
          b = searchDirs exec cmd ((a ++ rest).splitOn 58) s.out) ∨
        n = 0 ∧ s.j = path.length + 1 ∧ b = searchDirs exec cmd [] s.out))
    ?_ ⟨hout, Or.inl ⟨a, rest, rfl, h, ha, rfl, rfl⟩⟩ hfuel
  intro n s b hexpect
  obtain ⟨segStart, j, out'⟩ := s
  obtain ⟨hout', hexpect⟩ := hexpect
  dsimp only at hout' hexpect
  rcases hexpect with ⟨a, rest, rfl, h, ha, rfl, rfl⟩ | ⟨rfl, rfl, rfl⟩
  · have hrest : Rest path (segStart + a.length) rest := h.of_append
    cases rest with
    | nil =>
        -- The end of the path ends its last segment.
        have hj : segStart + a.length = path.length := by simpa using hrest.stop_eq.symm
        have hseg := h.of_isPrefix (List.prefix_append a [])
        rw [List.append_nil, List.splitOn_eq_singleton ha]
        rw [searchTurn_end hout' (Or.inl hj)]
        rcases @searchSegment_eq exec path cmd out' _ _ _ hseg [] with
          hdone | ⟨out'', hlen, hnext, heq⟩
        · exact Or.inl hdone
        · exact Or.inr ⟨0, _, by simp, hnext, hlen.trans hout', Or.inr ⟨rfl, by
            dsimp only
            omega, heq⟩⟩
    | cons c rest =>
        have hlt := hrest.lt
        have hload := hrest.chars_cons
        by_cases hc : c = 58
        · subst hc
          have hseg := h.of_isPrefix (List.prefix_append a (58 :: rest))
          rw [List.splitOn_append_cons_self_of_not_mem ha]
          rw [searchTurn_end hout' (Or.inr ⟨hlt, hload⟩)]
          rcases @searchSegment_eq exec path cmd out' _ _ _ hseg
              (rest.splitOn 58) with hdone | ⟨out'', hlen, hnext, heq⟩
          · exact Or.inl hdone
          · exact Or.inr ⟨rest.length + 1, _, by simp, hnext, hlen.trans hout',
              Or.inl ⟨[], rest, rfl, hrest.tail, by simp, rfl, heq⟩⟩
        · refine Or.inr ⟨rest.length + 1, ⟨segStart, segStart + a.length + 1, out'⟩, by simp, ?_,
            hout', Or.inl ⟨a ++ [c], rest, rfl, by simpa using h, ?_, ?_, by simp⟩⟩
          · simp [searchTurn, hlt, hlt.le, hload, hc, Nat.ne_of_lt hlt]
          · simpa using ⟨ha, Ne.symm hc⟩
          · simp [Nat.add_assoc]
  · left
    have hstore := store_eq_put (b := out') (i := 0) (by omega) 0
    rw [searchTurn, if_neg (by simp), hstore]
    rfl

end Search

end Checked

/-! ### What the search finds -/

/-- The directories of `_shk_path`. -/
def shkDirs : List CStr :=
  ["/usr/local/sbin", "/usr/local/bin", "/usr/sbin", "/usr/bin", "/sbin", "/bin"].map cstr

theorem splitOn_shkPath : shkPath.bytes.splitOn 58 = shkDirs.map CStr.bytes := by decide

/-- `path` is the command in the first of the directories in which it is executable. -/
def FirstIn (exec : CStr → Bool) (cmd : CStr) (dirs : List CStr) (path : CStr) : Prop :=
  ∃ before dir behind, dirs = before ++ dir :: behind ∧ path = pathJoin dir cmd ∧
    exec path = true ∧ ∀ d ∈ before, exec (pathJoin d cmd) = false

/-- What is asked of the result `r` and the buffer `out'` it leaves, where the buffer was
`out`. -/
structure Resolution (exec : CStr → Bool) (cmd : CStr) (out : Block UInt8)
    (r : Except ShkErr Nat) (out' : Block UInt8) : Prop where
  found : ∀ n, r = .ok n → ∃ path, Checked.cstrAt out' = some path ∧ path.length = n ∧
    n < out.length ∧ path.load8 0 = 47 ∧ exec path = true ∧
    (cmd.load8 0 = 47 → path = cmd) ∧ (cmd.load8 0 ≠ 47 → FirstIn exec cmd shkDirs path)
  relative : cmd.load8 0 ≠ 47 → 47 ∈ cmd.bytes → r = .error .relativePath
  notFound : r = .error .notFound → ∀ dir ∈ shkDirs, exec (pathJoin dir cmd) = false
  failed : ∀ e, r = .error e → out' = out ∨ Checked.cstrAt out' = some (cstr "")
  size : out'.length = out.length

section SearchDirs

variable {exec : CStr → Bool} {cmd : CStr}

theorem read_candidate (dir cmd : CStr) :
    CStr.read (dir.bytes ++ 47 :: cmd.bytes) = pathJoin dir cmd := by
  have hbytes : dir.bytes ++ 47 :: cmd.bytes = (pathJoin dir cmd).bytes := by
    have hslash : (cstr "/").bytes = [47] := by decide
    simp [pathJoin, hslash]
  rw [hbytes, CStr.read_bytes_self]

theorem length_pathJoin (dir cmd : CStr) :
    (pathJoin dir cmd).length = dir.length + 1 + cmd.length := by
  have hslash : (cstr "/").bytes = [47] := by decide
  simp only [pathJoin, CStr.length, CStr.append_bytes, List.length_append, hslash,
    List.length_singleton]

/-- One directory of the search. -/
theorem searchDirs_cons {dir : CStr} (hdir : dir.bytes ≠ []) (dirs : List CStr)
    (out : Block UInt8) :
    searchDirs exec cmd ((dir :: dirs).map CStr.bytes) out =
      if out.length < (pathJoin dir cmd).length + 1 then (.error .cmdTooLong, out)
      else if exec (pathJoin dir cmd) then
        (.ok (pathJoin dir cmd).length, put out 0 ((pathJoin dir cmd).bytes ++ [0]))
      else searchDirs exec cmd (dirs.map CStr.bytes)
        (put out 0 ((pathJoin dir cmd).bytes ++ [0])) := by
  have hbytes : (pathJoin dir cmd).bytes = dir.bytes ++ 47 :: cmd.bytes := by
    have hslash : (cstr "/").bytes = [47] := by decide
    simp [pathJoin, hslash]
  rw [List.map_cons, searchDirs, if_neg hdir]
  dsimp only
  rw [read_candidate, length_pathJoin, ← hbytes]
  have hlen : (pathJoin dir cmd).bytes.length = dir.length + 1 + cmd.length :=
    length_pathJoin dir cmd
  rw [hlen]
  rfl

/-- Where every candidate fits, the search finds the first that is executable, or none. -/
theorem searchDirs_fits {dirs : List CStr} (hdirs : ∀ dir ∈ dirs, dir.bytes ≠ [])
    {out : Block UInt8} (hfits : ∀ dir ∈ dirs, (pathJoin dir cmd).length + 1 ≤ out.length) :
    (∃ path b, FirstIn exec cmd dirs path ∧ b.length = out.length ∧
      path.length + 1 ≤ out.length ∧
      searchDirs exec cmd (dirs.map CStr.bytes) out =
        (.ok path.length, put b 0 (path.bytes ++ [0]))) ∨
    (∀ dir ∈ dirs, exec (pathJoin dir cmd) = false) ∧ ∃ b, b.length = out.length ∧
      searchDirs exec cmd (dirs.map CStr.bytes) out = (.error .notFound, put b 0 [0]) := by
  induction dirs generalizing out with
  | nil => exact Or.inr ⟨by simp, out, rfl, rfl⟩
  | cons dir dirs ih =>
      rw [List.forall_mem_cons] at hdirs hfits
      have hlen : (put out 0 ((pathJoin dir cmd).bytes ++ [0])).length = out.length := by
        refine length_put ?_
        have := hfits.1
        simp only [List.length_append, List.length_singleton, CStr.length] at this ⊢
        omega
      rw [searchDirs_cons hdirs.1, if_neg (by omega)]
      cases hexec : exec (pathJoin dir cmd) with
      | true =>
          rw [if_pos rfl]
          exact Or.inl ⟨_, out, ⟨[], dir, dirs, rfl, rfl, hexec, by simp⟩, rfl, hfits.1, rfl⟩
      | false =>
          rw [if_neg (by simp)]
          rcases ih hdirs.2 (hlen.symm ▸ hfits.2) with
            ⟨path, b, hfirst, hb, hle, heq⟩ | ⟨hnone, b, hb, heq⟩
          · obtain ⟨before, d, behind, rfl, hpath, hx, hbefore⟩ := hfirst
            refine Or.inl ⟨path, b, ⟨dir :: before, d, behind, rfl, hpath, hx, ?_⟩,
              hb.trans hlen, hlen ▸ hle, heq⟩
            exact List.forall_mem_cons.mpr ⟨hexec, hbefore⟩
          · exact Or.inr ⟨List.forall_mem_cons.mpr ⟨hexec, hnone⟩, b, hb.trans hlen, heq⟩

/-- The first directory is the longest: where its candidate fits, every candidate does. -/
theorem length_pathJoin_le (cmd : CStr) : ∀ dir ∈ shkDirs,
    (pathJoin dir cmd).length ≤ (pathJoin (cstr "/usr/local/sbin") cmd).length := by
  have hdirs : ∀ dir ∈ shkDirs, dir.length ≤ (cstr "/usr/local/sbin").length := by
    decide
  intro dir hdir
  rw [length_pathJoin, length_pathJoin]
  have := hdirs dir hdir
  omega

/-- A directory of the path, and with it a candidate, begins with a slash. -/
theorem FirstIn.load8 {path : CStr} (h : FirstIn exec cmd shkDirs path) : path.load8 0 = 47 := by
  obtain ⟨before, dir, behind, hsplit, rfl, -⟩ := h
  have hdir : dir ∈ shkDirs := by
    rw [hsplit]
    exact List.mem_append_right _ List.mem_cons_self
  have hslash : ∀ dir ∈ shkDirs, ∃ rest, dir.bytes = 47 :: rest := by
    intro dir hdir
    have hhead : ∀ dir ∈ shkDirs, dir.bytes = 47 :: dir.bytes.tail := by decide
    exact ⟨_, hhead dir hdir⟩
  obtain ⟨rest, hrest⟩ := hslash dir hdir
  simp [pathJoin, CStr.load8, hrest]

end SearchDirs

/-! ### The whole function -/

/-- `resolve_command`, by directories. -/
def resolveIn (exec : CStr → Bool) (cmd : CStr) (out : Block UInt8) :
    Except ShkErr Nat × Block UInt8 :=
  if cmd.length = 0 then (.error .emptyCmd, out)
  else if cmd.load8 0 = 47 then
    if exec cmd = false then (.error .notExecutable, out)
    else if out.length < cmd.length + 1 then (.error .cmdTooLong, out)
    else (.ok cmd.length, put out 0 (cmd.bytes ++ [0]))
  else if 47 ∈ cmd.bytes then (.error .relativePath, out)
  else searchDirs exec cmd (shkPath.bytes.splitOn 58) out

section Whole

variable {exec : CStr → Bool} {cmd : CStr} {out : Block UInt8}

/-- A byte is not passed over exactly when it occurs. -/
theorem length_takeWhile_lt_iff {sep : UInt8} {b : Bytes} :
    (b.takeWhile (· != sep)).length < b.length ↔ sep ∈ b := by
  constructor
  · intro h
    by_contra hmem
    have hself : b.takeWhile (· != sep) = b :=
      List.takeWhile_eq_self_iff.mpr (fun x hx => by simpa using ne_of_mem_of_not_mem hx hmem)
    rw [hself] at h
    omega
  · intro h
    obtain ⟨pre, post, hb, hpre⟩ := List.eq_append_cons_of_mem h
    rw [hb, Scan.takeWhile_ne_append hpre]
    simp

/-- **The function over the buffer** ends, stays within the buffer and computes this. -/
theorem checked_resolveCommand {fuel : Nat} (hcap : 1 ≤ out.length)
    (hfuel : cmd.length + 64 < fuel) :
    Checked.resolveCommand fuel exec cmd out out.length = some (resolveIn exec cmd out) := by
  have hlen : cmd.bytes.length = cmd.length := rfl
  rw [Checked.resolveCommand, resolveIn, Checked.strlen_eq (by omega)]
  simp only [Option.bind_eq_bind, Option.bind_some]
  by_cases hempty : cmd.length = 0
  · rw [if_pos hempty, if_pos hempty]
    rfl
  rw [if_neg hempty, if_neg hempty, Checked.chars_of_lt (by omega)]
  simp only [Option.bind_some]
  by_cases hslash : cmd.load8 0 = 47
  · rw [if_pos hslash, if_pos hslash]
    cases hexec : exec cmd with
    | false => rfl
    | true =>
        by_cases hlong : out.length < cmd.length + 1
        · simp [hlong]
        · have hcopy := @copyTo_front _ _ [] cmd.bytes out _ _ 0 cmd.length
            (Checked.rest_zero cmd) rfl rfl (by omega)
          have hnul := @store_front _ out cmd.bytes cmd.length rfl (by omega) 0
          rw [put_nil] at hcopy
          simp [hlong, Checked.chars_eq, hcopy, hnul]
  · rw [if_neg hslash, if_neg hslash]
    -- Past the end of the scan there is no slash, so its length says whether there is one.
    have hscan : scan (Checked.chars cmd) (· != 47) cmd.length fuel 0 =
        some (cmd.bytes.takeWhile (· != 47)).length := by
      rw [Checked.chars_eq, scan_eq _ (Checked.rest_zero cmd) (by omega), Nat.zero_add]
    have hfound : (cmd.bytes.takeWhile (· != 47)).length < cmd.length ↔ 47 ∈ cmd.bytes :=
      length_takeWhile_lt_iff
    simp only [hscan, Option.bind_some, hfound]
    by_cases hmem : 47 ∈ cmd.bytes
    · rw [if_pos hmem, if_pos hmem]
      rfl
    · rw [if_neg hmem, if_neg hmem]
      have hpath : shkPath.length ≤ 60 := by decide
      have hturns : shkPath.length + 1 < fuel :=
        lt_of_le_of_lt (Nat.succ_le_succ hpath) (by omega)
      rw [Checked.strlen_eq (Nat.lt_of_succ_lt hturns), Option.bind_some]
      exact Checked.run_searchTurn (a := []) (Checked.rest_zero shkPath) (by simp) hcap rfl hturns

/-- What the search leaves in the buffer. -/
theorem searchDirs_resolution (hrel : cmd.load8 0 ≠ 47) (hslash : 47 ∉ cmd.bytes)
    (hcap : 1 ≤ out.length) :
    Resolution exec cmd out (searchDirs exec cmd (shkDirs.map CStr.bytes) out).1
      (searchDirs exec cmd (shkDirs.map CStr.bytes) out).2 := by
  by_cases hlong : out.length < (pathJoin (cstr "/usr/local/sbin") cmd).length + 1
  · -- The first candidate does not fit: nothing has been written.
    have hfirst : searchDirs exec cmd (shkDirs.map CStr.bytes) out = (.error .cmdTooLong, out) := by
      rw [shkDirs, List.map_cons, searchDirs_cons (by decide), if_pos hlong]
    rw [hfirst]
    exact ⟨by simp, fun _ hmem => absurd hmem hslash, by simp, fun _ _ => Or.inl rfl, rfl⟩
  · have hfits : ∀ dir ∈ shkDirs, (pathJoin dir cmd).length + 1 ≤ out.length := by
      intro dir hdir
      have := length_pathJoin_le cmd dir hdir
      omega
    have hdirs : ∀ dir ∈ shkDirs, dir.bytes ≠ [] := by decide
    rcases @searchDirs_fits exec _ _ hdirs _ hfits with
      ⟨path, b, hfirst, hb, hroom, heq⟩ | ⟨hnone, b, hb, heq⟩
    · rw [heq]
      refine ⟨?_, fun _ hmem => absurd hmem hslash, by simp, by simp, ?_⟩
      · intro n hn
        cases hn
        obtain ⟨-, -, -, -, -, hexec, -⟩ := id hfirst
        refine ⟨path, ?_, rfl, by omega, hfirst.load8, hexec, fun h => absurd h hrel,
          fun _ => hfirst⟩
        rw [Checked.cstrAt_put, CStr.read_bytes_self]
      · refine (length_put ?_).trans hb
        simp only [List.length_append, List.length_singleton, CStr.length] at hroom ⊢
        omega
    · rw [heq]
      refine ⟨by simp, fun _ hmem => absurd hmem hslash, fun _ => hnone, fun _ _ => Or.inr ?_,
        (length_put (by simpa using hb ▸ hcap)).trans hb⟩
      exact Checked.cstrAt_put [] b

/-- What the function leaves in the buffer. -/
theorem resolveIn_resolution (hcap : 1 ≤ out.length) :
    Resolution exec cmd out (resolveIn exec cmd out).1 (resolveIn exec cmd out).2 := by
  rw [resolveIn]
  by_cases hempty : cmd.length = 0
  · have hnil : cmd.bytes = [] := List.eq_nil_of_length_eq_zero hempty
    rw [if_pos hempty]
    exact ⟨by simp, fun _ hmem => by simp [hnil] at hmem, by simp, fun _ _ => Or.inl rfl, rfl⟩
  rw [if_neg hempty]
  by_cases hslash : cmd.load8 0 = 47
  · rw [if_pos hslash]
    cases hexec : exec cmd with
    | false =>
        rw [if_pos rfl]
        exact ⟨by simp, fun h => absurd hslash h, by simp, fun _ _ => Or.inl rfl, rfl⟩
    | true =>
        rw [if_neg (by simp)]
        by_cases hlong : out.length < cmd.length + 1
        · rw [if_pos hlong]
          exact ⟨by simp, fun h => absurd hslash h, by simp, fun _ _ => Or.inl rfl, rfl⟩
        · rw [if_neg hlong]
          refine ⟨?_, fun h => absurd hslash h, by simp, by simp, length_put ?_⟩
          · intro n hn
            cases hn
            refine ⟨cmd, ?_, rfl, by omega, hslash, hexec, fun _ => rfl,
              fun h => absurd hslash h⟩
            rw [Checked.cstrAt_put, CStr.read_bytes_self]
          · simp only [List.length_append, List.length_singleton, CStr.length] at hlong ⊢
            omega
  rw [if_neg hslash]
  by_cases hmem : 47 ∈ cmd.bytes
  · rw [if_pos hmem]
    exact ⟨by simp, fun _ _ => rfl, by simp, fun _ _ => Or.inl rfl, rfl⟩
  · rw [if_neg hmem, splitOn_shkPath]
    exact searchDirs_resolution hslash hmem hcap

end Whole

/-! ### On a machine -/

section Machine

variable {v : FileView} {cmd : CStr} {tr : Trace}

theorem map_some_front (x out : Bytes) :
    (x ++ out.drop x.length).map some = put (out.map some) 0 x := by
  rw [put, List.take_zero, List.nil_append, Nat.zero_add, List.map_append, List.map_drop]

/-- A candidate in front of the buffer, as a list and in memory. -/
theorem map_some_candidate (path out : Bytes) :
    (path ++ [0] ++ out.drop (path.length + 1)).map some = put (out.map some) 0 (path ++ [0]) := by
  have hone : (path ++ [0]).length = path.length + 1 := List.length_append
  rw [← map_some_front, hone]

theorem read_candidate_front {seg : Bytes} (h : (0 : UInt8) ∉ seg) (rest : Bytes) :
    CStr.read (seg ++ 47 :: cmd.bytes ++ [0] ++ rest) = CStr.read (seg ++ 47 :: cmd.bytes) := by
  have hnul : (0 : UInt8) ∉ seg ++ 47 :: cmd.bytes := by
    simpa using ⟨h, cmd.noNul⟩
  have hself := CStr.read_append_nul ⟨_, hnul⟩ rest
  exact hself.trans (CStr.read_bytes_self ⟨_, hnul⟩).symm

/-- The program that asks the machine for each candidate makes the same search. -/
theorem returns_searchDirs {segs : List Bytes} (hsegs : ∀ seg ∈ segs, (0 : UInt8) ∉ seg)
    {out out' : Bytes} {cap : Nat} {r : Except ShkErr Nat} (hcap : out.length = cap)
    (hv : ∀ e ∈ tr, v.Answers e) (h : Returns (resolveInPath cmd cap segs out) tr (r, out')) :
    (r, out'.map some) = searchDirs v.isExecutable cmd segs (out.map some) := by
  induction segs generalizing out tr with
  | nil =>
      obtain ⟨-, heq⟩ := returns_pure_iff.mp h
      cases heq
      rw [searchDirs]
      exact congrArg (Prod.mk _) (map_some_front [0] out)
  | cons seg segs ih =>
      rw [List.forall_mem_cons] at hsegs
      rw [resolveInPath] at h
      rw [searchDirs, List.length_map, hcap]
      by_cases hseg : seg = []
      · rw [if_pos hseg] at h ⊢
        exact ih hsegs.2 hcap hv h
      rw [if_neg hseg] at h ⊢
      by_cases hlong : cap < seg.length + 1 + cmd.length + 1
      · rw [if_pos hlong] at h ⊢
        obtain ⟨-, heq⟩ := returns_pure_iff.mp h
        cases heq
        rfl
      rw [if_neg hlong] at h ⊢
      obtain ⟨t₁, t₂, exe, rfl, hexe, hrest⟩ := returns_bind_iff.mp h
      obtain rfl := FileView.returns_isExecutable
        (fun e he => hv e (List.mem_append_left _ he)) hexe
      have hcand : seg ++ [47] ++ cmd.bytes = seg ++ 47 :: cmd.bytes := by simp
      rw [hcand] at hrest
      have hwritten := map_some_candidate (seg ++ 47 :: cmd.bytes) out
      have hread := @read_candidate_front cmd seg hsegs.1
        (out.drop ((seg ++ 47 :: cmd.bytes).length + 1))
      rw [hread] at hrest
      dsimp only
      -- Also a candidate that is passed over stays in the buffer.
      cases hx : v.isExecutable (CStr.read (seg ++ 47 :: cmd.bytes)) with
      | true =>
          rw [hx, if_pos rfl] at hrest
          obtain ⟨-, heq⟩ := returns_pure_iff.mp hrest
          cases heq
          rw [if_pos rfl, hwritten]
      | false =>
          rw [hx, if_neg (by simp)] at hrest
          rw [if_neg (by simp), ← hwritten]
          refine ih hsegs.2 ?_ (fun e he => hv e (List.mem_append_right _ he)) hrest
          simp only [List.length_append, List.length_cons, List.length_nil, List.length_drop,
            CStr.length] at hlong ⊢
          omega

/-- `resolve_command` on a machine is the function over the buffer. -/
theorem returns_resolveIn {out out' : Bytes} {r : Except ShkErr Nat}
    (hv : ∀ e ∈ tr, v.Answers e)
    (h : Returns (resolveCommand cmd out out.length) tr (r, out')) :
    (r, out'.map some) = resolveIn v.isExecutable cmd (out.map some) := by
  rw [resolveCommand] at h
  rw [resolveIn, List.length_map]
  by_cases hempty : cmd.length = 0
  · rw [if_pos hempty] at h ⊢
    obtain ⟨-, heq⟩ := returns_pure_iff.mp h
    cases heq
    rfl
  rw [if_neg hempty] at h ⊢
  -- An absolute name is taken as it is, where it is executable and fits.
  by_cases hslash : cmd.load8 0 = 47
  · rw [if_pos hslash] at h ⊢
    obtain ⟨t₁, t₂, exe, rfl, hexe, hrest⟩ := returns_bind_iff.mp h
    obtain rfl := FileView.returns_isExecutable
      (fun e he => hv e (List.mem_append_left _ he)) hexe
    cases hx : v.isExecutable cmd with
    | false =>
        rw [hx, if_pos (by simp)] at hrest
        obtain ⟨-, heq⟩ := returns_pure_iff.mp hrest
        cases heq
        rw [if_pos rfl]
    | true =>
        rw [hx, if_neg (by simp)] at hrest
        rw [if_neg (by simp)]
        by_cases hlong : out.length < cmd.length + 1
        · rw [if_pos hlong] at hrest ⊢
          obtain ⟨-, heq⟩ := returns_pure_iff.mp hrest
          cases heq
          rfl
        · rw [if_neg hlong] at hrest ⊢
          obtain ⟨-, heq⟩ := returns_pure_iff.mp hrest
          cases heq
          have hfront := map_some_front (cmd.bytes ++ [0]) out
          rw [List.length_append, List.length_singleton] at hfront
          exact congrArg (Prod.mk _) hfront
  rw [if_neg hslash] at h ⊢
  have hany : cmd.bytes.any (· == 47) = true ↔ 47 ∈ cmd.bytes := by simp
  by_cases hmem : 47 ∈ cmd.bytes
  · rw [if_pos (hany.mpr hmem)] at h
    obtain ⟨-, heq⟩ := returns_pure_iff.mp h
    cases heq
    rw [if_pos hmem]
  · rw [if_neg (fun h => hmem (hany.mp h))] at h
    rw [if_neg hmem]
    exact returns_searchDirs (by decide) rfl hv h

end Machine

/-- **The first executable on the fixed path.** Whatever paths are executable and whatever the
command, the buffer's size and its content: `resolve_command` ends, writes within the buffer
and leaves what is asked of it; on a machine with these executables the program that asks for
each candidate returns the same. -/
theorem resolveCommand_resolution (exec : CStr → Bool) (cmd : CStr) (out : Block UInt8)
    (hcap : 1 ≤ out.length) :
    ∃ r out', Resolution exec cmd out r out' ∧
      (∀ fuel, cmd.length + 64 < fuel →
        Checked.resolveCommand fuel exec cmd out out.length = some (r, out')) ∧
      ∀ (v : FileView) (bytes bytes' : Bytes) (tr : Trace) (r' : Except ShkErr Nat),
        v.isExecutable = exec → out = bytes.map some → (∀ e ∈ tr, v.Answers e) →
        Returns (resolveCommand cmd bytes bytes.length) tr (r', bytes') →
        (r', bytes'.map some) = (r, out') := by
  refine ⟨_, _, resolveIn_resolution hcap, fun fuel hfuel => checked_resolveCommand hcap hfuel, ?_⟩
  intro v bytes bytes' tr r' hexec hout hv h
  subst hexec
  subst hout
  exact returns_resolveIn hv h

/-- A command that only the last directory has, in a buffer of 40 bytes. -/
theorem resolveCommand_resolution_last :
    ∃ out', Resolution (fun path => decide (path = cstr "/bin/sh")) (cstr "sh") (Memory.alloc 40)
      (.ok 7) out' := by
  obtain ⟨r, out', hres, hrun, -⟩ := resolveCommand_resolution
    (fun path => decide (path = cstr "/bin/sh")) (cstr "sh") (Memory.alloc 40) (by decide)
  have hlen : (Checked.resolveCommand 70 (fun path => decide (path = cstr "/bin/sh")) (cstr "sh")
      (Memory.alloc 40) (Memory.alloc 40 : Block UInt8).length).map Prod.fst = some (.ok 7) := by
    decide
  rw [hrun 70 (by decide), Option.map_some] at hlen
  cases hlen
  exact ⟨out', hres⟩

end Shakti
