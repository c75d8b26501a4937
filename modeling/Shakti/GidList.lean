import Shakti.Identity
import Shakti.Lib.Words

/-!
# Shakti.GidList

The gid list that is handed to `setgroups`: `identity_lookup_gids` and the two backends, with the
buffers they work on.

Three buffers are in play, of `max_count` entries each: the 4-byte entries of the foreign
`getgrouplist`, the 8-byte entries of the scratch buffer, and the 4-byte slots of the caller. In
`Checked` every access to them is one to memory, at the offset the source computes; in `Shakti`
the same functions are on lists. `identityLookupGids_bounded` relates the two, whatever the
backends answer.
-/

namespace Shakti

open Effects Memory

/-! ### The buffers -/

namespace Checked

/-- A buffer of `max` entries as a call leaves it. Entries the call did not write hold something;
`0` stands for it. -/
def entriesLeft (max : Nat) (entries : List Nat) : List Nat :=
  (List.range max).map (fun i => entries.getD i 0)

/-- One turn of the loop of `_identity_widen_gids`. -/
def widenGidsTurn (src : Block UInt8) (n : Int) :
    Nat × Block UInt8 → Option (Turn (Nat × Block UInt8) (Int × Block UInt8))
  | (i, dst) =>
      if (i : Int) < n then do
        let dst ← storeWord 8 dst (i * 8) (← loadWord 4 src (i * 4))
        return .next (i + 1, dst)
      else return .done (n, dst)

/-- `_identity_widen_gids`: the count, and the destination. -/
def identityWidenGids (fuel : Nat) (src : Block UInt8) (count : Int) (max : Nat)
    (dst : Block UInt8) : Option (Int × Block UInt8) :=
  let n := if count > max then (max : Int) else count
  let n := if n < 0 then 0 else n
  run (widenGidsTurn src n) fuel (0, dst)

/-- `_identity_nss_getgrouplist`: the return code, and the scratch buffer. -/
def identityNssGetgrouplist (fuel : Nat) (nss : NssState) (user : CStr) (primaryGid : Int)
    (gidBuf : Block UInt8) (max : Nat) : Sys (Option (Int × Block UInt8) × NssState) := do
  let (ready, nss) ← identityNssInit nss
  if !ready then pure (some (-3, gidBuf), nss)
  else do
    let gid := (primaryGid % 4294967296).toNat
    let (rc, entries) ← (sys (.getgrouplist nss.ggl user gid max) : Sys (Int × List Nat))
    let u32buf := words 4 (entriesLeft max entries)
    if rc < 0 then
      pure ((identityWidenGids fuel u32buf max max gidBuf).map (fun r => (-2, r.2)), nss)
    else pure (identityWidenGids fuel u32buf rc max gidBuf, nss)

/-- `grp_getgrouplist` into the scratch buffer. -/
def grpGetgrouplist (user : CStr) (primaryGid : Int) (max : Nat) : Sys (Int × Block UInt8) := do
  let (n, entries) ← (sys (.grpGetgrouplist user primaryGid max) : Sys (Int × List Nat))
  pure (n, words 8 (entriesLeft max entries))

/-- The call of the selected backend. -/
def getgrouplist (fuel : Nat) (useNss : Bool) (nss : NssState) (user : CStr) (primaryGid : Int)
    (scratch : Block UInt8) (max : Nat) : Sys (Option (Int × Block UInt8) × NssState) :=
  if useNss then do
    let (r, nss) ← identityNssGetgrouplist fuel nss user primaryGid scratch max
    match r with
    | none => pure (none, nss)
    | some (n, scratch) =>
        if n = -3 then do
          let r ← grpGetgrouplist user primaryGid max
          pure (some r, nss)
        else pure (some (n, scratch), nss)
  else do
    let r ← grpGetgrouplist user primaryGid max
    pure (some r, nss)

/-- One turn of the narrowing loop, at entry `i` with `count` slots filled. -/
def narrowTurn (scratch : Block UInt8) (written : Nat) :
    Nat × Nat × Block UInt8 → Option (Turn (Nat × Nat × Block UInt8) (Nat × Block UInt8))
  | (i, count, out) =>
      if i < written then do
        let g ← loadWord 8 scratch (i * 8)
        let out ← storeWord 4 out (count * 4) (g &&& 4294967295)
        return .next (i + 1, count + 1, out)
      else return .done (count, out)

/-- The slots behind the first, from what the backend returned. -/
def narrowGids (fuel : Nat) (n : Int) (scratch out : Block UInt8) (max : Nat) :
    Option (Nat × Block UInt8) :=
  if n = -2 then run (narrowTurn scratch max) fuel (1, 1, out)
  else if n < 0 then some (1, out)
  else run (narrowTurn scratch n.toNat) fuel (1, 1, out)

/-- `identity_lookup_gids`: the count, and the caller's buffer. -/
def identityLookupGids (fuel : Nat) (nss : NssState) (username : CStr) (primaryGid : Nat)
    (out : Block UInt8) (maxCount : Nat) : Sys (Option (Nat × Block UInt8) × NssState) :=
  if maxCount = 0 then pure (some (0, out), nss)
  else
    match storeWord 4 out 0 primaryGid with
    | none => pure (none, nss)
    | some out =>
        if username.length = 0 then pure (some (1, out), nss)
        else do
          let scratch := alloc (maxCount * 8)
          let (viaNss, nss) ← useNss nss
          let (r, nss) ← getgrouplist fuel viaNss nss username primaryGid scratch maxCount
          pure (r.bind (fun (n, scratch) => narrowGids fuel n scratch out maxCount), nss)

/-! ### The loops -/

theorem getElem?_entriesLeft {max i : Nat} (entries : List Nat) (h : i < max) :
    (entriesLeft max entries)[i]? = some (entries.getD i 0) := by
  rw [entriesLeft, List.getElem?_map, List.getElem?_range h, Option.map_some]

theorem low_word (v : Nat) : v &&& 4294967295 = v % 256 ^ 4 := Nat.and_two_pow_sub_one_eq_mod v 32

/-- The widening loop stores what the list function lists. -/
theorem widenGids_eq (src : List Nat) (count : Int) {max fuel : Nat} {dst : Block UInt8}
    (hdst : max * 8 ≤ dst.length) (hfuel : max < fuel) :
    identityWidenGids fuel (words 4 (entriesLeft max src)) count max dst
      = some (((Shakti.identityWidenGids src count max).length : Int),
          words 8 (Shakti.identityWidenGids src count max) ++
            dst.drop ((Shakti.identityWidenGids src count max).length * 8)) := by
  obtain ⟨n, hn⟩ : ∃ n : Nat, n = (min count max).toNat := ⟨_, rfl⟩
  have hle : n ≤ max := by omega
  have hclamp : (if (if count > max then (max : Int) else count) < 0 then 0
      else (if count > max then (max : Int) else count)) = n := by
    split <;> split <;> omega
  have hlist : Shakti.identityWidenGids src count max
      = (List.range n).map (fun i => src.getD i 0 &&& 4294967295) := by
    rw [Shakti.identityWidenGids, ← hn]
  rw [identityWidenGids, hclamp, hlist, List.length_map, List.length_range]
  refine run_storeWords (fun i b => (i, b)) (fun _ b => ((n : Int), b)) ?_ ?_ []
    ((Nat.mul_le_mul_right 8 hle).trans hdst) (hle.trans_lt hfuel)
  · intro i b b' hi hstore
    have hload := loadWord_words (w := 4) (getElem?_entriesLeft src (hi.trans_le hle)) []
    rw [List.append_nil, ← low_word] at hload
    have hlt : (i : Int) < n := by exact_mod_cast hi
    simp only [widenGidsTurn, if_pos hlt, hload, Option.bind_eq_bind, Option.bind_some, hstore]
    rfl
  · intro i b hi
    have hge : ¬ (i : Int) < n := by omega
    simp only [widenGidsTurn, if_neg hge]
    rfl

/-- The narrowing loop puts the entries behind the first slot. -/
theorem narrow_eq {es : List Nat} {tail rest : Block UInt8} {primary written fuel : Nat}
    (hentries : written ≤ es.length) (hroom : (written - 1) * 4 ≤ rest.length)
    (hfuel : written < fuel) :
    run (narrowTurn (words 8 es ++ tail) written) fuel (1, 1, words 4 [primary] ++ rest)
      = some (max written 1, words 4 (primary ::
          ((List.range written).drop 1).map (fun i => es.getD i 0 &&& 4294967295)) ++
            rest.drop ((written - 1) * 4)) := by
  refine run_storeWords (fun i b => (i, i, b)) (fun i b => (i, b)) ?_ ?_ [primary] hroom hfuel
  · intro i b b' hi hstore
    have hget : es[i]? = some (es.getD i 0) := by
      rw [List.getD_eq_getElem?_getD, List.getElem?_eq_getElem (hi.trans_le hentries),
        Option.getD_some]
    have hmask : es.getD i 0 % 256 ^ 8 &&& 4294967295 = es.getD i 0 &&& 4294967295 := by
      rw [low_word, low_word]
      exact Nat.mod_mod_of_dvd _ (by decide)
    simp only [narrowTurn, if_pos hi, loadWord_words hget tail, Option.bind_eq_bind,
      Option.bind_some, hmask, hstore]
    rfl
  · intro i b hi
    simp only [narrowTurn, if_neg (Nat.not_lt.mpr hi)]
    rfl

end Checked

/-! ### What the backends deliver -/

open Effects.Prog

/-- A backend answered with these entries. -/
def Left (tr : Trace) (entries : List Nat) : Prop :=
  (∃ fn user gid max rc, ⟨.getgrouplist fn user gid max, (rc, entries)⟩ ∈ tr) ∨
    ∃ user gid max n, ⟨.grpGetgrouplist user gid max, (n, entries)⟩ ∈ tr

/-- What `grp_getgrouplist` returns: `-1`, `-2`, or a count that fits the buffer. The foreign
`getgrouplist` may return anything. -/
def GrpContract (tr : Trace) : Prop :=
  ∀ user gid (max : Nat) (n : Int) entries,
    ⟨.grpGetgrouplist user gid max, (n, entries)⟩ ∈ tr → n = -1 ∨ n = -2 ∨ 1 ≤ n ∧ n ≤ max

/-- The scratch buffer holds, as far as the return code says that entries are written, the
entries of a backend, in 32 bits those of the list. -/
def Delivers (tr : Trace) (max : Nat) (n : Int) (gids : List Nat) (scratch : Block UInt8) : Prop :=
  ∃ es tail entries, scratch = words 8 es ++ tail ∧ Left tr entries ∧
    ∀ written, gidsWritten n max = some written → written ≤ max ∧ written ≤ es.length ∧
      ∀ i < written, gids.getD i 0 = es.getD i 0 ∧
        es.getD i 0 &&& 4294967295 = entries.getD i 0 &&& 4294967295

theorem gidsWritten_eq_some_iff {n : Int} {max written : Nat} :
    gidsWritten n max = some written ↔ n = -2 ∧ written = max ∨ n = written := by
  rw [gidsWritten]
  split
  case isTrue h =>
    simp only [h, Option.some.injEq, true_and]
    omega
  case isFalse h =>
    split
    · simp only [reduceCtorEq, h, false_and, false_or, false_iff]
      omega
    · simp only [Option.some.injEq, h, false_and, false_or]
      omega

theorem length_identityWidenGids (src : List Nat) (count : Int) (max : Nat) :
    (identityWidenGids src count max).length = (min count max).toNat := by
  rw [identityWidenGids, List.length_map, List.length_range]

theorem getD_identityWidenGids {src : List Nat} {count : Int} {max i : Nat}
    (h : i < (identityWidenGids src count max).length) :
    (identityWidenGids src count max).getD i 0 = src.getD i 0 &&& 4294967295 := by
  rw [length_identityWidenGids] at h
  rw [identityWidenGids, List.getD_eq_getElem?_getD, List.getElem?_map, List.getElem?_range h]
  rfl

section Backends

variable {tr : Trace} {nss nss' : NssState} {user : CStr} {gid : Int} {max fuel : Nat}
  {n : Int} {gids : List Nat} {scratch : Block UInt8}

/-- What is left by the foreign call. Its return code only says how much of it is taken. -/
theorem delivers_nss {src : List Nat} {count : Int} {rest : Block UInt8}
    (hleft : Left tr src)
    (hn : n = -2 ∧ count = max ∨ n = (identityWidenGids src count max).length) :
    Delivers tr max n (identityWidenGids src count max)
      (words 8 (identityWidenGids src count max) ++ rest) := by
  refine ⟨_, rest, src, rfl, hleft, ?_⟩
  intro written hwritten
  have hlen := length_identityWidenGids src count max
  have hle : written ≤ (identityWidenGids src count max).length := by
    rcases gidsWritten_eq_some_iff.mp hwritten with ⟨hfull, rfl⟩ | hcount
    · rcases hn with ⟨-, rfl⟩ | hn <;> omega
    · omega
  refine ⟨by omega, hle, fun i hi => ⟨rfl, ?_⟩⟩
  rw [getD_identityWidenGids (hi.trans_le hle), Nat.and_assoc, Nat.and_self]

/-- What is left by `grp_getgrouplist`, when it keeps its contract. -/
theorem delivers_grp {entries : List Nat} (hleft : Left tr entries)
    (hn : n = -1 ∨ n = -2 ∨ 1 ≤ n ∧ n ≤ max) :
    Delivers tr max n entries (words 8 (Checked.entriesLeft max entries)) := by
  refine ⟨_, [], entries, (List.append_nil _).symm, hleft, ?_⟩
  intro written hwritten
  have hle : written ≤ max := by
    rcases gidsWritten_eq_some_iff.mp hwritten with ⟨-, rfl⟩ | hcount
    · exact le_rfl
    · omega
  have hlen : (Checked.entriesLeft max entries).length = max := by
    rw [Checked.entriesLeft, List.length_map, List.length_range]
  have hget : ∀ i < written, (Checked.entriesLeft max entries).getD i 0 = entries.getD i 0 := by
    intro i hi
    rw [List.getD_eq_getElem?_getD, Checked.getElem?_entriesLeft entries (hi.trans_le hle),
      Option.getD_some]
  refine ⟨hle, by omega, fun i hi => ?_⟩
  rw [hget i hi]
  exact ⟨rfl, rfl⟩

/-- The foreign backend on the buffers does what it does on lists. -/
theorem checked_nssGetgrouplist
    (h : Returns (identityNssGetgrouplist nss user gid max) tr ((n, gids), nss'))
    (hscratch : max * 8 ≤ scratch.length) (hfuel : max < fuel) :
    ∃ scratch', Returns (Checked.identityNssGetgrouplist fuel nss user gid scratch max) tr
        (some (n, scratch'), nss') ∧
      (n = -3 ∨ Delivers tr max n gids scratch') := by
  obtain ⟨tr₁, tr₂, ⟨ready, nss₁⟩, rfl, hinit, h⟩ := returns_bind_iff.mp h
  dsimp only at h
  by_cases hready : ready
  · rw [if_neg (by simp [hready])] at h
    obtain ⟨⟨rc, src⟩, tr₃, rfl, hrest⟩ := returns_ask_bind_iff.mp h
    dsimp only at hrest
    have hleft : ∀ tr₂, Left (tr₁ ++ ⟨.getgrouplist nss₁.ggl user (gid % 4294967296).toNat max,
        (rc, src)⟩ :: tr₂) src := fun tr₂ =>
      Or.inl ⟨_, _, _, _, rc, List.mem_append_right _ (List.mem_cons_self ..)⟩
    -- A negative code means that the buffer was too small, and all of it is taken.
    by_cases hrc : rc < 0
    · rw [if_pos hrc] at hrest
      obtain ⟨rfl, heq⟩ := returns_pure_iff.mp hrest
      cases heq
      refine ⟨words 8 (identityWidenGids src max max) ++
          scratch.drop ((identityWidenGids src max max).length * 8), hinit.bind ?_,
        Or.inr (delivers_nss (hleft []) (Or.inl ⟨rfl, rfl⟩))⟩
      dsimp only
      rw [if_neg (by simp [hready])]
      refine returns_ask_bind_iff.mpr ⟨_, _, rfl, ?_⟩
      rw [if_pos hrc, Checked.widenGids_eq src max hscratch hfuel]
      exact returns_pure_iff.mpr ⟨rfl, rfl⟩
    · rw [if_neg hrc] at hrest
      obtain ⟨rfl, heq⟩ := returns_pure_iff.mp hrest
      cases heq
      refine ⟨words 8 (identityWidenGids src rc max) ++
          scratch.drop ((identityWidenGids src rc max).length * 8), hinit.bind ?_,
        Or.inr (delivers_nss (hleft []) (Or.inr rfl))⟩
      dsimp only
      rw [if_neg (by simp [hready])]
      refine returns_ask_bind_iff.mpr ⟨_, _, rfl, ?_⟩
      rw [if_neg hrc, Checked.widenGids_eq src rc hscratch hfuel]
      exact returns_pure_iff.mpr ⟨rfl, rfl⟩
  · rw [if_pos (by simp [hready])] at h
    obtain ⟨rfl, heq⟩ := returns_pure_iff.mp h
    cases heq
    refine ⟨scratch, hinit.bind ?_, Or.inl rfl⟩
    dsimp only
    rw [if_pos (by simp [hready])]
    exact returns_pure_iff.mpr ⟨rfl, rfl⟩

/-- The reader of the local files, on the scratch buffer. -/
theorem checked_grpGetgrouplist {tr' : Trace}
    (h : Returns (sys (.grpGetgrouplist user gid max) : Sys (Int × List Nat)) tr (n, gids))
    (hgrp : GrpContract (tr' ++ tr)) :
    ∃ scratch', Returns (Checked.grpGetgrouplist user gid max) tr (n, scratch') ∧
      Delivers (tr' ++ tr) max n gids scratch' := by
  obtain ⟨r, tr₁, rfl, hpure⟩ := returns_call_iff.mp h
  obtain ⟨rfl, rfl⟩ := returns_pure_iff.mp hpure
  have hmem : ⟨.grpGetgrouplist user gid max, (n, gids)⟩
      ∈ tr' ++ [⟨SysCall.grpGetgrouplist user gid max, (n, gids)⟩] := by simp
  refine ⟨words 8 (Checked.entriesLeft max gids), ?_,
    delivers_grp (Or.inr ⟨user, gid, max, n, hmem⟩) (hgrp _ _ _ _ _ hmem)⟩
  exact returns_ask_bind_iff.mpr ⟨_, _, rfl, returns_pure_iff.mpr ⟨rfl, rfl⟩⟩

/-- The selected backend. -/
theorem checked_getgrouplist {viaNss viaNss' : Bool}
    (h : Returns (getgrouplist viaNss nss user gid max) tr ((n, gids), viaNss', nss'))
    (hgrp : GrpContract tr) (hscratch : max * 8 ≤ scratch.length) (hfuel : max < fuel) :
    ∃ scratch', Returns (Checked.getgrouplist fuel viaNss nss user gid scratch max) tr
        (some (n, scratch'), nss') ∧ Delivers tr max n gids scratch' := by
  rw [getgrouplist] at h
  rw [Checked.getgrouplist]
  split at h
  case isTrue hvia =>
    rw [if_pos hvia]
    obtain ⟨tr₁, tr₂, ⟨⟨n₁, gids₁⟩, nss₁⟩, rfl, hnss, h⟩ := returns_bind_iff.mp h
    obtain ⟨scratch₁, hchecked, hdelivers⟩ := checked_nssGetgrouplist hnss hscratch hfuel
    dsimp only at h
    -- Where the foreign call was not possible, the local files are read into the same buffer.
    by_cases hn : n₁ = -3
    · rw [if_pos hn] at h
      obtain ⟨tr₃, tr₄, r, rfl, hfiles, h⟩ := returns_bind_iff.mp h
      obtain ⟨rfl, heq⟩ := returns_pure_iff.mp h
      cases heq
      rw [List.append_nil] at hgrp ⊢
      obtain ⟨scratch', hrun, hdel⟩ := checked_grpGetgrouplist hfiles hgrp
      refine ⟨scratch', hchecked.bind ?_, hdel⟩
      dsimp only
      rw [if_pos hn]
      exact returns_map_iff.mpr ⟨_, hrun, rfl⟩
    · rw [if_neg hn] at h
      obtain ⟨rfl, heq⟩ := returns_pure_iff.mp h
      cases heq
      rw [List.append_nil]
      refine ⟨scratch₁, ?_, hdelivers.resolve_left hn⟩
      rw [← List.append_nil tr₁]
      refine hchecked.bind ?_
      dsimp only
      rw [if_neg hn]
      exact returns_pure_iff.mpr ⟨rfl, rfl⟩
  case isFalse hvia =>
    rw [if_neg hvia]
    obtain ⟨r, hfiles, heq⟩ := returns_map_iff.mp h
    cases heq
    have hgrp' : GrpContract ([] ++ tr) := hgrp
    obtain ⟨scratch', hrun, hdel⟩ := checked_grpGetgrouplist hfiles hgrp'
    exact ⟨scratch', returns_map_iff.mpr ⟨_, hrun, rfl⟩, hdel⟩

end Backends

/-! ### The list -/

/-- The list has at least the primary gid, which comes first, and no more entries than there are
slots; what follows are entries of a backend; and the function on memory, with the caller's
buffer and a scratch buffer of that many entries, fills that many slots with them and leaves the
rest of the buffer alone. -/
structure GidsBounded (nss nss' : NssState) (username : CStr) (primaryGid maxCount : Nat)
    (tr : Trace) (gids : List Nat) : Prop where
  pos : 1 ≤ gids.length
  le : gids.length ≤ maxCount
  primary : gids.head? = some (primaryGid &&& 4294967295)
  entries : gids.length = 1 ∨ ∃ entries, Left tr entries ∧
    ∀ i, 1 ≤ i → i < gids.length → gids[i]? = some (entries.getD i 0 &&& 4294967295)
  memory : ∀ fuel out, maxCount < fuel → maxCount * 4 ≤ out.length →
    Returns (Checked.identityLookupGids fuel nss username primaryGid out maxCount) tr
      (some (gids.length, words 4 gids ++ out.drop (gids.length * 4)), nss')

/-- The first slot. -/
theorem storeWord_primary {out : Block UInt8} (primaryGid : Nat) (hout : 4 ≤ out.length) :
    storeWord 4 out 0 primaryGid
      = some (words 4 [primaryGid &&& 4294967295] ++ out.drop 4) := by
  have hstore := storeWord_words hout [] primaryGid
  rw [List.nil_append, words_singleton] at hstore
  rw [Checked.low_word, words_singleton, wordBytes_mod, ← hstore]
  simp

/-- The slots behind the first. -/
def otherSlots (n : Int) (max : Nat) (gids : List Nat) : List Nat :=
  match gidsWritten n max with
  | none => []
  | some written => ((List.range written).drop 1).map (fun i => gids.getD i 0 &&& 4294967295)

section Slots

variable {tr : Trace} {n : Int} {gids : List Nat} {scratch rest : Block UInt8}
  {primary max fuel written : Nat}

theorem length_otherSlots (h : gidsWritten n max = some written) :
    (otherSlots n max gids).length = written - 1 := by
  simp [otherSlots, h]

theorem getElem?_otherSlots (h : gidsWritten n max = some written) {i : Nat}
    (hi : i + 1 < written) :
    (otherSlots n max gids)[i]? = some (gids.getD (i + 1) 0 &&& 4294967295) := by
  simp only [otherSlots, h]
  rw [List.getElem?_map, List.getElem?_drop, Nat.add_comm, List.getElem?_range hi,
    Option.map_some]

theorem length_otherSlots_le (h : Delivers tr max n gids scratch) :
    (otherSlots n max gids).length ≤ max - 1 := by
  obtain ⟨es, tail, entries, -, -, hentries⟩ := h
  cases hwritten : gidsWritten n max with
  | none => simp [otherSlots, hwritten]
  | some written =>
      have hle := (hentries written hwritten).1
      rw [length_otherSlots hwritten]
      omega

/-- The slots behind the first hold entries of a backend. -/
theorem otherSlots_entries (h : Delivers tr max n gids scratch) :
    ∃ entries, Left tr entries ∧ ∀ i, i < (otherSlots n max gids).length →
      (otherSlots n max gids)[i]? = some (entries.getD (i + 1) 0 &&& 4294967295) := by
  obtain ⟨es, tail, entries, -, hleft, hentries⟩ := h
  refine ⟨entries, hleft, fun i hi => ?_⟩
  cases hwritten : gidsWritten n max with
  | none => simp [otherSlots, hwritten] at hi
  | some written =>
      rw [length_otherSlots hwritten] at hi
      obtain ⟨hgids, hes⟩ := (hentries written hwritten).2.2 (i + 1) (by omega)
      rw [getElem?_otherSlots hwritten (by omega), hgids, hes]

/-- The narrowing loop fills the slots behind the first. -/
theorem run_narrow (h : gidsWritten n max = some written)
    (hdelivers : Delivers tr max n gids scratch) (hrest : (max - 1) * 4 ≤ rest.length)
    (hfuel : max < fuel) :
    run (Checked.narrowTurn scratch written) fuel (1, 1, words 4 [primary] ++ rest)
      = some ((otherSlots n max gids).length + 1,
          words 4 (primary :: otherSlots n max gids) ++
            rest.drop ((otherSlots n max gids).length * 4)) := by
  obtain ⟨es, tail, entries, rfl, -, hentries⟩ := hdelivers
  obtain ⟨hle, hlen, hget⟩ := hentries written h
  have hroom : (written - 1) * 4 ≤ rest.length := by omega
  have hslots : otherSlots n max gids
      = ((List.range written).drop 1).map (fun i => es.getD i 0 &&& 4294967295) := by
    simp only [otherSlots, h]
    refine List.map_congr_left fun i hi => ?_
    rw [(hget i (List.mem_range.mp (List.mem_of_mem_drop hi))).1]
  have hcount : Max.max written 1 = written - 1 + 1 := by omega
  rw [Checked.narrow_eq hlen hroom (by omega), length_otherSlots h, hslots, hcount]

/-- The slots behind the first, on memory and as a list. -/
theorem narrowGids_eq (h : Delivers tr max n gids scratch)
    (hrest : (max - 1) * 4 ≤ rest.length) (hfuel : max < fuel) :
    Checked.narrowGids fuel n scratch (words 4 [primary] ++ rest) max
      = some ((otherSlots n max gids).length + 1,
          words 4 (primary :: otherSlots n max gids) ++
            rest.drop ((otherSlots n max gids).length * 4)) := by
  rw [Checked.narrowGids]
  split
  case isTrue hn =>
    exact run_narrow (gidsWritten_eq_some_iff.mpr (Or.inl ⟨hn, rfl⟩)) h hrest hfuel
  case isFalse hn =>
    split
    case isTrue hneg => simp [otherSlots, gidsWritten, hn, hneg]
    case isFalse hneg =>
      exact run_narrow (gidsWritten_eq_some_iff.mpr (Or.inr (by omega))) h hrest hfuel

end Slots

section Lookup

variable {nss nss' nss₁ : NssState} {username : CStr} {primaryGid maxCount : Nat}
  {tr tr₁ tr₂ : Trace} {gids found : List Nat} {viaNss viaNss' : Bool} {n : Int}

/-- A lookup of a name: the backend is chosen and asked, and the primary comes before what it
delivered. -/
theorem returns_identityLookupGids (hne : maxCount ≠ 0) (hname : username.length ≠ 0)
    (h : Returns (identityLookupGids nss username primaryGid maxCount) tr (gids, nss')) :
    ∃ tr₁ tr₂ viaNss nss₁ n found viaNss', tr = tr₁ ++ tr₂ ∧
      Returns (useNss nss) tr₁ (viaNss, nss₁) ∧
      Returns (getgrouplist viaNss nss₁ username primaryGid maxCount) tr₂
        ((n, found), viaNss', nss') ∧
      gids = (primaryGid &&& 4294967295) :: otherSlots n maxCount found := by
  rw [identityLookupGids, if_neg hne] at h
  dsimp only at h
  rw [if_neg hname] at h
  obtain ⟨tr₁, rest, ⟨viaNss, nss₁⟩, rfl, huse, h⟩ := returns_bind_iff.mp h
  dsimp only at h
  obtain ⟨tr₂, tr₃, ⟨⟨n, found⟩, viaNss', nss₂⟩, rfl, hback, h⟩ := returns_bind_iff.mp h
  have hlist : tr₃ = [] ∧
      (gids, nss') = ((primaryGid &&& 4294967295) :: otherSlots n maxCount found, nss₂) := by
    dsimp only at h
    rw [otherSlots]
    cases hwritten : gidsWritten n maxCount with
    | none =>
        rw [hwritten] at h
        exact returns_pure_iff.mp h
    | some written =>
        rw [hwritten] at h
        exact returns_pure_iff.mp h
  obtain ⟨rfl, heq⟩ := hlist
  obtain ⟨rfl, rfl⟩ := Prod.mk.inj heq
  rw [List.append_nil]
  exact ⟨tr₁, tr₂, viaNss, nss₁, n, found, viaNss', rfl, huse, hback, rfl⟩

/-- The same lookup on memory. -/
theorem checked_identityLookupGids (hne : maxCount ≠ 0) (hname : username.length ≠ 0)
    (huse : Returns (useNss nss) tr₁ (viaNss, nss₁))
    (hback : Returns (getgrouplist viaNss nss₁ username primaryGid maxCount) tr₂
      ((n, found), viaNss', nss'))
    (hgrp : GrpContract tr₂) {fuel : Nat} {out : Block UInt8} (hfuel : maxCount < fuel)
    (hout : maxCount * 4 ≤ out.length) :
    Returns (Checked.identityLookupGids fuel nss username primaryGid out maxCount) (tr₁ ++ tr₂)
      (some ((otherSlots n maxCount found).length + 1,
        words 4 ((primaryGid &&& 4294967295) :: otherSlots n maxCount found) ++
          out.drop (((otherSlots n maxCount found).length + 1) * 4)), nss') := by
  have hscratch : maxCount * 8 ≤ (alloc (maxCount * 8) : Block UInt8).length := by simp [alloc]
  obtain ⟨scratch, hrun, hdelivers⟩ := checked_getgrouplist hback hgrp hscratch hfuel
  rw [Checked.identityLookupGids, if_neg hne, storeWord_primary primaryGid (by omega)]
  dsimp only
  rw [if_neg hname]
  refine huse.bind ?_
  rw [← List.append_nil tr₂]
  refine hrun.bind (returns_pure_iff.mpr ⟨rfl, ?_⟩)
  have hrest : (maxCount - 1) * 4 ≤ (out.drop 4).length := by
    rw [List.length_drop]
    omega
  rw [Option.bind_some, narrowGids_eq hdelivers hrest hfuel, List.drop_drop, Nat.succ_mul,
    Nat.add_comm 4]

end Lookup

/-- **The gid list is bounded** and starts with the primary, whatever the foreign backend
answers. -/
theorem identityLookupGids_bounded {nss nss' : NssState} {username : CStr}
    {primaryGid maxCount : Nat} {tr : Trace} {gids : List Nat} (hmax : 1 ≤ maxCount)
    (hgrp : GrpContract tr)
    (h : Returns (identityLookupGids nss username primaryGid maxCount) tr (gids, nss')) :
    GidsBounded nss nss' username primaryGid maxCount tr gids := by
  have hne : maxCount ≠ 0 := by omega
  -- Without a name there is nothing to look up, and the primary group is all.
  by_cases hname : username.length = 0
  · rw [identityLookupGids, if_neg hne] at h
    dsimp only at h
    rw [if_pos hname] at h
    obtain ⟨rfl, heq⟩ := returns_pure_iff.mp h
    cases heq
    refine ⟨le_rfl, hmax, rfl, Or.inl rfl, ?_⟩
    intro fuel out hfuel hout
    rw [Checked.identityLookupGids, if_neg hne, storeWord_primary primaryGid (by omega)]
    dsimp only
    rw [if_pos hname]
    exact returns_pure_iff.mpr ⟨rfl, rfl⟩
  · obtain ⟨tr₁, tr₂, viaNss, nss₁, n, found, viaNss', rfl, huse, hback, rfl⟩ :=
      returns_identityLookupGids hne hname h
    have hgrp₂ : GrpContract tr₂ := fun user gid max n entries hmem =>
      hgrp user gid max n entries (List.mem_append_right _ hmem)
    have hscratch : maxCount * 8 ≤ (alloc (maxCount * 8) : Block UInt8).length := by simp [alloc]
    obtain ⟨_, -, hdelivers⟩ := checked_getgrouplist hback hgrp₂ hscratch (Nat.lt_succ_self _)
    have hle := length_otherSlots_le hdelivers
    constructor
    case pos => exact Nat.le_add_left 1 _
    case le =>
      rw [List.length_cons]
      omega
    case primary => rfl
    case entries =>
      obtain ⟨entries, hleft, hget⟩ := otherSlots_entries hdelivers
      refine Or.inr ⟨entries, ?_, ?_⟩
      · rcases hleft with hforeign | hlocal
        · obtain ⟨fn, user, gid, max, rc, hmem⟩ := hforeign
          exact Or.inl ⟨fn, user, gid, max, rc, List.mem_append_right _ hmem⟩
        · obtain ⟨user, gid, max, n, hmem⟩ := hlocal
          exact Or.inr ⟨user, gid, max, n, List.mem_append_right _ hmem⟩
      · intro i hi hlen
        -- Slot 0 is the primary group, so slot `i` comes from the entry before.
        obtain ⟨j, rfl⟩ : ∃ j, i = j + 1 := ⟨i - 1, by omega⟩
        rw [List.getElem?_cons_succ]
        exact hget j (by simpa using hlen)
    case memory =>
      intro fuel out hfuel hout
      exact checked_identityLookupGids hne hname huse hback hgrp₂ hfuel hout

/-- A backend whose `-1` was not sign-extended, with room for two entries: both are taken. -/
theorem identityLookupGids_bounded_unsigned :
    GidsBounded ⟨true, some true, 2, 3⟩ ⟨true, some true, 2, 3⟩ (cstr "al") 100 2
      [⟨.getgrouplist 2 (cstr "al") 100 2, ((4294967295 : Int), [100, 27])⟩] [100, 27] := by
  have hrun : Returns (identityLookupGids ⟨true, some true, 2, 3⟩ (cstr "al") 100 2)
      [⟨.getgrouplist 2 (cstr "al") 100 2, ((4294967295 : Int), [100, 27])⟩]
      ([100, 27], ⟨true, some true, 2, 3⟩) := Steps.cons (Steps.nil _)
  refine identityLookupGids_bounded (by decide) ?_ hrun
  intro user gid max n entries hmem
  simp at hmem

end Shakti
