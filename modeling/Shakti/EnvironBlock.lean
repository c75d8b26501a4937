import Shakti.Env
import Shakti.Lib.Blocks
import Shakti.Lib.Ensures
import Shakti.Lib.Records
import Shakti.Resolution

/-!
# Shakti.EnvironBlock

The environment block is read whole and split exactly.

* In `Checked` the block is read into memory, and every access is checked: to the buffer, to the
  one twice as large it is copied to when it is full, and to the copies of the entries.
  `Checked.agree_shkReadEnviron` says that no access leaves its buffer and that the bytes read
  are those of `Shakti.shkReadEnviron`, whatever the system answers.
* `EnvironSource` — what is left of the block, what has been read of it, and the size of the
  last allocation. `environWorld` answers each read with as many bytes as it likes, at least one
  while there are any and the request is not empty, and every allocation succeeds.
* `Fits` — a read asks for at least one byte and for no more than the buffer has room for.
-/

namespace Shakti

open Effects Memory World
open Effects.Prog (Agree)

/-! ### The block, in memory -/

namespace Checked

/-- The read loop of `_shk_read_environ`: the buffer `buf` has `cap` bytes, of which `total` are
read. -/
def shkReadEnvironLoop (fd : Int) : Nat → Nat → Nat → Block UInt8 →
    Sys (Option (Block UInt8 × Nat))
  | 0, _, _, _ => sysBlocked
  | fuel + 1, cap, total, buf => do
      let got ← fileRead fd (cap - total)
      if got = [] then pure (some (buf, total))
      else
        match fill buf total got with
        | none => pure none
        | some buf =>
            let total := total + got.length
            if cap ≤ total then do
              let newCap := cap * 2
              let grown : Bool ← sys (.alloc newCap)
              if !grown then pure (some (buf, total))
              else
                match copyTo (loadCell buf) 0 0 total (alloc newCap) with
                | none => pure none
                | some newBuf => shkReadEnvironLoop fd fuel newCap total newBuf
            else shkReadEnvironLoop fd fuel cap total buf

/-- `_shk_read_environ`: the buffer and the length it stores. Where the source returns no buffer
the length is `0`. -/
def shkReadEnviron (fuel : Nat) : Sys (Option (Block UInt8 × Nat)) := do
  let fd : Int ← sys (.open (cstr "/proc/self/environ") 0 0)
  if fd < 0 then pure (some ([], 0))
  else do
    let buf : Bool ← sys (.alloc 16384)
    if !buf then do
      let _ ← sys (.close fd)
      pure (some ([], 0))
    else do
      let block ← shkReadEnvironLoop fd fuel 16384 0 (alloc 16384)
      let _ ← sys (.close fd)
      pure block

/-- The copy of an entry of `segl` bytes. -/
def copyEntry (buf : Block UInt8) (pos segl : Nat) : Option CStr := do
  let copy ← copyTo (loadCell buf) pos 0 segl (alloc (segl + 1))
  cstrAt (← Memory.store copy segl 0)

/-- The loop of `shk_read_environment`, from the position `pos` on. -/
def readEntries (buf : Block UInt8) (total : Nat) : Nat → Nat → List CStr →
    Sys (Option (List CStr))
  | 0, _, _ => pure none
  | fuel + 1, pos, v =>
      if pos < total then
        match scan (loadCell buf) (· != 0) total (total + 1) pos with
        | none => pure none
        | some stop =>
            let segl := stop - pos
            if 0 < segl then do
              let copied : Bool ← sys (.alloc (segl + 1))
              if !copied then readEntries buf total fuel (stop + 1) v
              else
                match copyEntry buf pos segl with
                | none => pure none
                | some entry => readEntries buf total fuel (stop + 1) (v ++ [entry])
            else readEntries buf total fuel (stop + 1) v
      else pure (some v)

/-- `shk_read_environment`. -/
def shkReadEnvironment (fuel : Nat) : Sys (Option (List CStr)) := do
  let lenOut : Bool ← sys (.alloc 8)
  if !lenOut then pure (some [])
  else do
    let block ← shkReadEnviron fuel
    match block with
    | none => pure none
    | some (buf, total) =>
        if total = 0 then pure (some []) else readEntries buf total (total + 1) 0 []

/-! ### No access leaves the buffer -/

/-- The bytes `b` are in front of a buffer that has room for them, and nothing else. -/
def Buffered (o : Option (Block UInt8 × Nat)) (b : Bytes) : Prop :=
  ∃ cap, b.length ≤ cap ∧ o = some (put (alloc cap) 0 b, b.length)

/-- What is read goes behind what has been read. -/
theorem fill_read {cap : Nat} {x got : Bytes} (h : x.length + got.length ≤ cap) :
    fill (put (alloc cap) 0 x) x.length got = some (put (alloc cap) 0 (x ++ got)) := by
  have hx : 0 + x.length ≤ (alloc cap : Block UInt8).length := by
    rw [length_alloc]
    omega
  have hroom : x.length + got.length ≤ (put (alloc cap) 0 x).length := by
    rwa [length_put hx, length_alloc]
  rw [fill_eq hroom, put_put_front (by omega)]

/-- The copy to a larger buffer. -/
theorem copyTo_grown {cap newCap : Nat} {x : Bytes} (h : x.length ≤ newCap) :
    copyTo (loadCell (put (alloc cap) 0 x)) 0 0 x.length (alloc newCap) =
      some (put (alloc newCap) 0 x) := by
  have hspan : Spans x 0 x.length x := ⟨List.prefix_rfl, (Nat.zero_add _).symm⟩
  rw [loadCell_put_alloc]
  exact copyTo_eq hspan (by rw [length_alloc]; omega)

/-- A read delivers no more than was asked for. -/
theorem agree_fileRead (fd : Int) (n : Nat) :
    Agree (fun got got' => got = got' ∧ got.length ≤ n) (fileRead fd n) (fileRead fd n) :=
  Agree.call fun _ : Option Bytes => Agree.pure ⟨rfl, List.length_take_le n _⟩

theorem agree_shkReadEnvironLoop (fd : Int) {fuel cap : Nat} {x : Bytes} (hx : x.length ≤ cap) :
    Agree Buffered (shkReadEnvironLoop fd fuel cap x.length (put (alloc cap) 0 x))
      (Shakti.shkReadEnvironLoop fd fuel cap x) := by
  induction fuel generalizing cap x with
  | zero => exact Agree.call fun r : Empty => r.elim
  | succ fuel ih =>
      refine (agree_fileRead fd _).bind fun got _ hgot => ?_
      obtain ⟨rfl, hle⟩ := hgot
      have hlen : x.length + got.length ≤ cap := by omega
      have htotal : x.length + got.length = (x ++ got).length := List.length_append.symm
      refine Agree.ite (fun _ => Agree.pure ⟨cap, hx, rfl⟩) fun _ => ?_
      simp only [fill_read hlen, htotal]
      rw [htotal] at hlen
      refine Agree.ite (fun _ => ?_) fun _ => ih hlen
      refine Agree.call fun grown : Bool => ?_
      refine Agree.ite (fun _ => Agree.pure ⟨cap, hlen, rfl⟩) fun _ => ?_
      have hgrown : (x ++ got).length ≤ cap * 2 := by omega
      simp only [copyTo_grown hgrown]
      exact ih hgrown

/-- No access of `_shk_read_environ` leaves its buffer, and the buffer holds the bytes read. -/
theorem agree_shkReadEnviron (fuel : Nat) :
    Agree Buffered (shkReadEnviron fuel) (Shakti.shkReadEnviron fuel) := by
  refine Agree.call fun fd : Int => ?_
  refine Agree.ite (fun _ => Agree.pure ⟨0, Nat.le_refl 0, rfl⟩) fun _ => ?_
  refine Agree.call fun buf : Bool => Agree.ite (fun _ => ?_) fun _ => ?_
  · exact Agree.call fun _ : Int => Agree.pure ⟨0, Nat.le_refl 0, rfl⟩
  · refine (@agree_shkReadEnvironLoop fd fuel 16384 [] (Nat.zero_le _)).bind fun o b hob => ?_
    exact Agree.call fun _ : Int => Agree.pure hob

end Checked

/-! ### The block as the system delivers it -/

/-- What is left of the block, what has been read of it, and the size of the last allocation. -/
structure EnvironSource where
  left : Bytes
  taken : Bytes
  size : Nat

/-- How a call is answered. A read delivers any part of what is left that is not longer than the
request, and nothing only where nothing is left or asked for. -/
def EnvironSource.Answers (s : EnvironSource) : Event sysSig → EnvironSource → Prop
  | ⟨.open _ _ _, fd⟩, s' => (0 : Int) ≤ fd ∧ s' = s
  | ⟨.alloc n, r⟩, s' => r = true ∧ s' = { s with size := n }
  | ⟨.read _ count, r⟩, s' => ∃ got left, r = some got ∧ s.left = got ++ left ∧
      got.length ≤ count ∧ (got = [] → left = [] ∨ count = 0) ∧
      s' = { s with left := left, taken := s.taken ++ got }
  | _, s' => s' = s

/-- The system that delivers the block. -/
def environWorld : World sysSig EnvironSource where
  answers s c r s' := s.Answers ⟨c, r⟩ s'
  other _ _ _ := False

theorem still_environWorld : environWorld.Still := fun _ _ _ => id

/-- A read asks for at least one byte, and for no more than the buffer has room for. -/
def Fits (s : EnvironSource) : SysCall → Prop
  | .read _ n => 0 < n ∧ s.taken.length + n ≤ s.size
  | _ => True

section Reading

variable {α : Type} {post : EnvironSource → α → Prop} {s : EnvironSource}

theorem ensures_open {path : CStr} {flags mode : Nat} {f : Int → Sys α}
    (h : ∀ fd, 0 ≤ fd → Ensures environWorld Fits post s (f fd)) :
    Ensures environWorld Fits post s (sys (.open path flags mode) >>= f) := by
  have hanswer : environWorld.answers s (.open path flags mode) (0 : Int) s := ⟨Int.le_refl 0, rfl⟩
  refine Ensures.call still_environWorld trivial ⟨_, _, hanswer⟩ fun fd s' hans => ?_
  obtain ⟨hfd, rfl⟩ := hans
  exact h fd hfd

theorem ensures_alloc {n : Nat} {f : Bool → Sys α}
    (h : Ensures environWorld Fits post { s with size := n } (f true)) :
    Ensures environWorld Fits post s (sys (.alloc n) >>= f) := by
  refine Ensures.call still_environWorld trivial ⟨true, _, rfl, rfl⟩ fun r s' hans => ?_
  obtain ⟨rfl, rfl⟩ := hans
  exact h

theorem ensures_close {fd : Int} {f : Int → Sys α}
    (h : ∀ r, Ensures environWorld Fits post s (f r)) :
    Ensures environWorld Fits post s (sys (.close fd) >>= f) := by
  refine Ensures.call still_environWorld trivial ⟨(0 : Int), s, rfl⟩ fun r s' hans => ?_
  obtain rfl : s' = s := hans
  exact h r

theorem ensures_fileRead {fd : Int} {n : Nat} {f : Bytes → Sys α} (hn : 0 < n)
    (hroom : s.taken.length + n ≤ s.size)
    (h : ∀ got left, s.left = got ++ left → got.length ≤ n → (got = [] → left = []) →
      Ensures environWorld Fits post { s with left := left, taken := s.taken ++ got } (f got)) :
    Ensures environWorld Fits post s (fileRead fd n >>= f) := by
  refine Ensures.call still_environWorld ⟨hn, hroom⟩ ?_ fun r s' hans => ?_
  · refine ⟨some (s.left.take n), _, s.left.take n, s.left.drop n, rfl, ?_, ?_, fun hnil => ?_, rfl⟩
    · exact (List.take_append_drop n s.left).symm
    · exact List.length_take_le n _
    · left
      rcases List.take_eq_nil_iff.mp hnil with hzero | hnil
      · omega
      · rw [hnil, List.drop_nil]
  · obtain ⟨got, left, rfl, hleft, hlen, hnil, rfl⟩ := hans
    have htake : (Option.getD (some got) []).take n = got := List.take_of_length_le hlen
    change Ensures environWorld Fits post _ (f ((Option.getD (some got) []).take n))
    rw [htake]
    exact h got left hleft hlen fun h => (hnil h).resolve_right (by omega)

end Reading

/-- The loop reads what is left. -/
theorem ensures_shkReadEnvironLoop (fd : Int) {fuel : Nat} {s : EnvironSource}
    (hroom : s.taken.length < s.size) (hfuel : s.left.length < fuel) :
    Ensures environWorld Fits (fun t b => b = s.taken ++ s.left ∧ t.taken = b ∧ t.left = []) s
      (shkReadEnvironLoop fd fuel s.size s.taken) := by
  induction fuel generalizing s with
  | zero => omega
  | succ fuel ih =>
      refine ensures_fileRead (by omega) (by omega) fun got left hleft hlen hnil => ?_
      -- A read that delivers nothing was not empty, so the block is at its end.
      by_cases hgot : got = []
      · rw [if_pos hgot]
        have hend := hnil hgot
        subst hgot hend
        exact ⟨by simp [hleft], by simp, rfl⟩
      · have hpos := List.length_pos_iff.mpr hgot
        have hlength := congrArg List.length hleft
        rw [List.length_append] at hlength
        have hall : s.taken ++ s.left = s.taken ++ got ++ left := by
          rw [hleft, List.append_assoc]
        rw [if_neg hgot, hall]
        have hshort : (s.taken ++ got).length ≤ s.size := by
          rw [List.length_append]
          omega
        -- A full buffer is doubled before the next read, so no request is empty.
        by_cases hfull : s.size ≤ (s.taken ++ got).length
        · rw [if_pos hfull]
          refine ensures_alloc ?_
          exact @ih ⟨left, s.taken ++ got, s.size * 2⟩ (by dsimp only; omega) (by dsimp only; omega)
        · rw [if_neg hfull]
          exact @ih ⟨left, s.taken ++ got, s.size⟩ (by dsimp only; omega) (by dsimp only; omega)

theorem ensures_shkReadEnviron {fuel : Nat} {block : Bytes} (size : Nat)
    (hfuel : block.length < fuel) :
    Ensures environWorld Fits (fun t b => b = block ∧ t.taken = block ∧ t.left = [])
      ⟨block, [], size⟩ (shkReadEnviron fuel) := by
  refine ensures_open fun fd hfd => ?_
  rw [if_neg (by omega)]
  refine ensures_alloc ?_
  have hloop := @ensures_shkReadEnvironLoop fd fuel ⟨block, [], 16384⟩ (Nat.zero_lt_succ _) hfuel
  refine Ensures.bind hloop fun t b hb => ensures_close fun _ => ?_
  obtain ⟨rfl, htaken, hleft⟩ := hb
  exact ⟨rfl, htaken, hleft⟩

/-! ### The entries -/

/-- The entries of a block behind its first NUL. -/
theorem environEntries_append {seg : Bytes} (h : 0 ∉ seg) (rest : Bytes) :
    environEntries (seg ++ 0 :: rest) =
      (if seg = [] then [] else [CStr.read seg]) ++ environEntries rest := by
  rw [environEntries, Records.segments_append h]
  by_cases hseg : seg = []
  · simp [hseg, environEntries]
  · simp [hseg, environEntries]

theorem environEntries_of_notMem {seg : Bytes} (h : 0 ∉ seg) :
    environEntries seg = if seg = [] then [] else [CStr.read seg] := by
  rw [environEntries, Records.segments_of_notMem h]
  by_cases hseg : seg = []
  · simp [hseg]
  · simp [hseg]

/-- The entries are the pieces between the NULs that are not empty. -/
theorem map_bytes_environEntries (block : Bytes) :
    (environEntries block).map CStr.bytes = (block.splitOn 0).filter (· ≠ []) := by
  induction block using @Records.lines_induction UInt8 _ 0 with
  | last seg h =>
      rw [environEntries_of_notMem h, List.splitOn_eq_singleton h]
      by_cases hseg : seg = []
      · simp [hseg]
      · simp [hseg, CStr.read_of_noNul h]
  | line seg rest h ih =>
      rw [environEntries_append h, List.splitOn_append_cons_self_of_not_mem h, List.map_append, ih]
      by_cases hseg : seg = []
      · simp [hseg]
      · simp [hseg, CStr.read_of_noNul h]

namespace Checked

theorem copyEntry_eq {block seg : Bytes} {pos stop : Nat} (h : Spans block pos stop seg)
    (cap : Nat) :
    copyEntry (put (alloc cap) 0 block) pos seg.length = some (CStr.read seg) := by
  have hroom : seg.length < (alloc (seg.length + 1) : Block UInt8).length := by
    rw [length_alloc]
    exact Nat.lt_succ_self _
  rw [copyEntry, loadCell_put_alloc, copyTo_eq h (by omega), Option.bind_eq_bind, Option.bind_some,
    store_front rfl hroom, Option.bind_some, cstrAt_put]

section Entries

variable {block seg tail : Bytes} {cap fuel pos : Nat} {v : List CStr} {s : EnvironSource}

/-- One turn: what stands up to the next NUL, or the end, is copied if it is not empty. -/
theorem ensures_readEntries_step {post : EnvironSource → Option (List CStr) → Prop}
    (h : Spans block pos block.length (seg ++ tail)) (hlt : pos < block.length)
    (hseg : (seg ++ tail).takeWhile (· != 0) = seg)
    (hnext : ∀ s, Ensures environWorld Fits post s
      (readEntries (put (alloc cap) 0 block) block.length fuel (pos + seg.length + 1)
        (v ++ if seg = [] then [] else [CStr.read seg]))) :
    Ensures environWorld Fits post s
      (readEntries (put (alloc cap) 0 block) block.length (fuel + 1) pos v) := by
  have hlen : (seg ++ tail).length < block.length + 1 := by
    rw [h.stop_eq]
    omega
  have hsegl : pos + seg.length - pos = seg.length := Nat.add_sub_cancel_left ..
  have hscan := scan_eq (· != 0) h hlen
  rw [hseg, ← loadCell_put_alloc block cap] at hscan
  rw [readEntries, if_pos hlt, hscan]
  dsimp only
  rw [hsegl]
  by_cases hempty : seg = []
  · rw [if_neg (by simp [hempty])]
    rw [if_pos hempty, List.append_nil] at hnext
    exact hnext s
  · rw [if_pos (List.length_pos_iff.mpr hempty)]
    rw [if_neg hempty] at hnext
    refine ensures_alloc ?_
    rw [copyEntry_eq (h.of_isPrefix (List.prefix_append seg tail))]
    exact hnext _

/-- Past the end of the block the loop is done. -/
theorem readEntries_end {buf : Block UInt8} {total : Nat} (h : total ≤ pos) :
    readEntries buf total (fuel + 1) pos v = pure (some v) := by
  rw [readEntries, if_neg (by omega)]

/-- What is left of the block from `pos` on is split; `pos` is past the end where it ends without
a NUL. -/
theorem ensures_readEntries {x : Bytes}
    (hleft : Spans block pos block.length x ∨ block.length ≤ pos ∧ x = [])
    (hfuel : x.length < fuel) :
    Ensures environWorld Fits (fun _ r => r = some (v ++ environEntries x)) s
      (readEntries (put (alloc cap) 0 block) block.length fuel pos v) := by
  obtain ⟨fuel, rfl⟩ : ∃ n, fuel = n + 1 := ⟨fuel - 1, by omega⟩
  induction x using @Records.lines_induction UInt8 _ 0 generalizing fuel pos v s with
  | last seg h =>
      by_cases hempty : seg = []
      · have hend : block.length ≤ pos := by
          rcases hleft with hspan | ⟨hend, -⟩
          · subst hempty
            exact Nat.le_of_not_lt hspan.not_lt
          · exact hend
        rw [readEntries_end hend, hempty]
        exact congrArg some (List.append_nil v).symm
      · have hspan := hleft.resolve_right fun hend => hempty hend.2
        have hpos := List.length_pos_iff.mpr hempty
        have hstop := hspan.stop_eq
        -- The last entry has no NUL behind it, and the position leaves the block.
        obtain ⟨fuel, rfl⟩ : ∃ n, fuel = n + 1 := ⟨fuel - 1, by omega⟩
        rw [← List.append_nil seg] at hspan
        refine ensures_readEntries_step hspan (by omega) ?_ fun s => ?_
        · rw [List.append_nil]
          exact CStr.read_of_noNul h
        · rw [readEntries_end (by omega), environEntries_of_notMem h]
          rfl
  | line seg rest h ih =>
      have hne : seg ++ 0 :: rest ≠ [] :=
        List.append_ne_nil_of_right_ne_nil seg (List.cons_ne_nil 0 rest)
      have hspan := hleft.resolve_right fun hend => hne hend.2
      have hrest : Spans block (pos + seg.length + 1) block.length rest := by
        have hsplit : seg ++ 0 :: rest = (seg ++ [0]) ++ rest := by simp
        have hbehind := Spans.of_append (hsplit ▸ hspan)
        rwa [List.length_append, List.length_singleton, ← Nat.add_assoc] at hbehind
      have hlen : (seg ++ 0 :: rest).length = seg.length + (rest.length + 1) := by simp
      have hstop := hspan.stop_eq
      rw [environEntries_append h, ← List.append_assoc]
      obtain ⟨fuel, rfl⟩ : ∃ n, fuel = n + 1 := ⟨fuel - 1, by omega⟩
      refine ensures_readEntries_step hspan (by omega) (Scan.takeWhile_ne_append h rest) fun s => ?_
      exact ih (Or.inl hrest) fuel (by omega)

end Entries

theorem ensures_shkReadEnviron {fuel : Nat} {block : Bytes} (size : Nat)
    (hfuel : block.length < fuel) :
    Ensures environWorld Fits (fun t o => Buffered o block ∧ t.taken = block) ⟨block, [], size⟩
      (shkReadEnviron fuel) := by
  refine Ensures.agree (agree_shkReadEnviron fuel) (Shakti.ensures_shkReadEnviron size hfuel) ?_
  intro t o b hbuf hb
  obtain ⟨rfl, htaken, -⟩ := hb
  exact ⟨hbuf, htaken⟩

theorem ensures_shkReadEnvironment {fuel : Nat} {block : Bytes} (size : Nat)
    (hfuel : block.length < fuel) :
    Ensures environWorld Fits (fun _ r => r = some (environEntries block)) ⟨block, [], size⟩
      (shkReadEnvironment fuel) := by
  refine ensures_alloc ?_
  have hread := @ensures_shkReadEnviron fuel block 8 hfuel
  refine Ensures.bind hread fun t o ho => ?_
  obtain ⟨⟨cap, -, rfl⟩, -⟩ := ho
  dsimp only
  by_cases hempty : block.length = 0
  · rw [if_pos hempty, List.length_eq_zero_iff.mp hempty]
    rfl
  · rw [if_neg hempty]
    have hwhole : Spans block 0 block.length block := ⟨List.prefix_rfl, (Nat.zero_add _).symm⟩
    exact @ensures_readEntries block cap _ 0 [] t _ (Or.inl hwhole) (Nat.lt_succ_self _)

end Checked

/-- **The block is read whole and split exactly**, whatever its length and however the reads cut
it: every read asks for at least one byte and fits the buffer; the buffer holds what all reads
delivered, which is the block; the entries are the pieces between its NULs that are not empty; and
every run comes to its end. -/
theorem shkReadEnvironment_whole (block : Bytes) {fuel : Nat} (hfuel : block.length < fuel)
    (size : Nat) :
    (∀ h t r, Completed environWorld ⟨block, [], size⟩ (Checked.shkReadEnviron fuel) h t r →
      t.taken = block ∧ ∃ buf : Block UInt8, r = some (buf, block.length) ∧
        buf.take block.length = block.map some) ∧
    (∀ h t r, Completed environWorld ⟨block, [], size⟩ (Checked.shkReadEnvironment fuel) h t r →
      ∃ entries : List CStr, r = some entries ∧
        entries.map CStr.bytes = (block.splitOn 0).filter (· ≠ [])) ∧
    ∀ h t q, Runs environWorld ⟨block, [], size⟩ (Checked.shkReadEnvironment fuel) h t q →
      (∀ m ∈ h, Fits m.state m.event.call) ∧ ∃ h' t' r, Completed environWorld t q h' t' r := by
  have hread := @Checked.ensures_shkReadEnviron fuel block size hfuel
  have hsplit := @Checked.ensures_shkReadEnvironment fuel block size hfuel
  refine ⟨fun h t r hrun => ?_, fun h t r hrun => ?_, fun h t q hrun => ?_⟩
  · obtain ⟨⟨cap, -, rfl⟩, htaken⟩ := hread.completed hrun
    refine ⟨htaken, put (alloc cap) 0 block, rfl, ?_⟩
    rw [put_zero]
    exact List.take_left' (List.length_map some)
  · exact ⟨environEntries block, hsplit.completed hrun, map_bytes_environEntries block⟩
  · obtain ⟨hfits, hleft⟩ := hsplit.runs hrun
    exact ⟨hfits, hleft.completes⟩

/-- An empty entry, and one without a NUL behind it. -/
theorem shkReadEnvironment_whole_unterminated :
    ∃ h t r, Completed environWorld ⟨utf8 "A=1" ++ [0, 0] ++ utf8 "B=2", [], 0⟩
        (Checked.shkReadEnvironment 9) h t r ∧
      ∃ entries : List CStr, r = some entries ∧
        entries.map CStr.bytes = [utf8 "A=1", utf8 "B=2"] := by
  have hwhole := @shkReadEnvironment_whole (utf8 "A=1" ++ [0, 0] ++ utf8 "B=2") 9 (by decide) 0
  obtain ⟨-, h, t, r, hrun⟩ := hwhole.2.2 [] _ _ (Runs.nil _ _)
  obtain ⟨entries, hr, hentries⟩ := hwhole.2.1 h t r hrun
  exact ⟨h, t, r, hrun, entries, hr, hentries.trans (by decide)⟩

end Shakti
