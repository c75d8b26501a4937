import Shakti.Passwd
import Shakti.Policy.Matching

/-!
# Shakti.PasswdLookups

The two passwd lookups together: one is the inverse of the other, and both stay inside the
bytes that were read.

* `Checked.identityLookupUid`, `Checked.identityLookupUser` — the scanners by positions, as
  `identity.cyr` writes them, with every access checked against the bytes read.
* `passwdLookups_inverse` — a name found by uid is found by name, with the same ids, when no
  two lines have the same first field. That the scanner by name gives up at a malformed line
  where the other passes over it does no harm then: the line with the name is the only one.
-/

namespace Shakti

open Effects.Prog FirstMatch Records Scan

/-! ### The scanners by positions -/

namespace Checked

open Memory

/-- One turn of `_identity_find_byte`. -/
def identityFindByteTurn (load : Nat → Option UInt8) (stop : Nat) (needle : UInt8) (p : Nat) :
    Option (Turn Nat Nat) :=
  if p < stop then do
    if (← load p) = needle then return .done p else return .next (p + 1)
  else return .done stop

/-- `_identity_find_byte`. -/
def identityFindByte (fuel : Nat) (load : Nat → Option UInt8) (start stop : Nat)
    (needle : UInt8) : Option Nat :=
  run (identityFindByteTurn load stop needle) fuel start

/-- One turn of `_identity_parse_uint`, at position `p` with the value `v` so far. -/
def identityParseUintTurn (load : Nat → Option UInt8) (stop : Nat) :
    Nat × Nat → Option (Turn (Nat × Nat) (Option Nat))
  | (p, v) =>
      if p < stop then do
        let c ← load p
        if c < 48 ∨ 57 < c then return .done none
        else
          let digit := c.toNat - 48
          if (4294967295 - digit) / 10 < v then return .done none
          else return .next (p + 1, v * 10 + digit)
      else return .done (some v)

/-- `_identity_parse_uint`; the inner `none` is the source's `-1`. -/
def identityParseUint (fuel : Nat) (load : Nat → Option UInt8) (start stop : Nat) :
    Option (Option Nat) :=
  run (identityParseUintTurn load stop) fuel (start, 0)

/-- One turn of the line loop of `identity_lookup_uid`, in the `n` bytes read. -/
def lookupUidTurn (fuel : Nat) (load : Nat → Option UInt8) (n uid pos : Nat) :
    Option (Turn Nat (Lookup (CStr × Nat))) :=
  if pos < n then do
    let lineEnd ← identityFindByte fuel load pos n 10
    let c1 ← identityFindByte fuel load pos lineEnd 58
    if c1 = lineEnd then return .next (lineEnd + 1)
    else do
      let c2 ← identityFindByte fuel load (c1 + 1) lineEnd 58
      if c2 = lineEnd then return .next (lineEnd + 1)
      else do
        let c3 ← identityFindByte fuel load (c2 + 1) lineEnd 58
        if c3 = lineEnd then return .next (lineEnd + 1)
        else do
          let parsedUid ← identityParseUint fuel load (c2 + 1) c3
          if parsedUid = some uid then do
            let c4 ← identityFindByte fuel load (c3 + 1) lineEnd 58
            let parsedGid ← identityParseUint fuel load (c3 + 1) c4
            match parsedGid with
            | none => return .done .notFound
            | some gid =>
                let nlen := c1 - pos
                if nlen = 0 then return .next (lineEnd + 1)
                else do
                  let name ← (do
                    let out ← copy load pos nlen (alloc (nlen + 1))
                    cstrAt (← Memory.store out nlen 0))
                  return .done (.found (name, gid))
          else return .next (lineEnd + 1)
  else return .done .notFound

/-- `identity_lookup_uid` on the bytes read. -/
def identityLookupUid (fuel : Nat) (buf : Bytes) (uid : Nat) : Option (Lookup (CStr × Nat)) :=
  run (lookupUidTurn fuel (buf[·]?) buf.length uid) fuel 0

/-- One turn of the line loop of `identity_lookup_user`, in the `n` bytes read. -/
def lookupUserTurn (fuel : Nat) (load : Nat → Option UInt8) (n : Nat) (name : CStr)
    (nlen pos : Nat) : Option (Turn Nat (Lookup (Nat × Nat))) :=
  if pos < n then do
    let lineEnd ← identityFindByte fuel load pos n 10
    let c1 ← identityFindByte fuel load pos lineEnd 58
    let same ← (if c1 - pos = nlen then memeq fuel load pos (chars name) 0 nlen else return 0)
    if same = 1 then do
      let c2 ← identityFindByte fuel load (c1 + 1) lineEnd 58
      if c2 = lineEnd then return .done .notFound
      else do
        let c3 ← identityFindByte fuel load (c2 + 1) lineEnd 58
        if c3 = lineEnd then return .done .notFound
        else do
          let parsedUid ← identityParseUint fuel load (c2 + 1) c3
          match parsedUid with
          | none => return .done .notFound
          | some uid => do
              let c4 ← identityFindByte fuel load (c3 + 1) lineEnd 58
              let parsedGid ← identityParseUint fuel load (c3 + 1) c4
              match parsedGid with
              | none => return .done .notFound
              | some gid => return .done (.found (uid, gid))
    else return .next (lineEnd + 1)
  else return .done .notFound

/-- `identity_lookup_user` on the bytes read. -/
def identityLookupUser (fuel : Nat) (buf : Bytes) (name : CStr) : Option (Lookup (Nat × Nat)) := do
  let nlen ← strlen fuel name
  if nlen = 0 then return .notFound
  else run (lookupUserTurn fuel (buf[·]?) buf.length name nlen) fuel 0

/-! ### They stay in bounds -/

theorem identityFindByte_eq {l x : Bytes} {pos stop fuel : Nat} (needle : UInt8)
    (h : Spans l pos stop x) (hfuel : x.length < fuel) :
    identityFindByte fuel (l[·]?) pos stop needle
      = some (pos + (x.takeWhile (· != needle)).length) := by
  refine run_eq (fun n p b =>
    ∃ x, x.length = n ∧ Spans l p stop x ∧ b = p + (x.takeWhile (· != needle)).length)
    ?_ ⟨x, rfl, h, rfl⟩ hfuel
  intro n p b hleft
  obtain ⟨x, rfl, h, rfl⟩ := hleft
  cases x with
  | nil =>
      left
      simpa [identityFindByteTurn, h.not_lt] using h.stop_eq
  | cons c x =>
      by_cases hc : c = needle
      · left
        simp [identityFindByteTurn, h.lt, h.head, hc]
      · refine Or.inr ⟨x.length, p + 1, by simp, ?_, x, rfl, h.tail, ?_⟩
        · simp [identityFindByteTurn, h.lt, h.head, hc]
        · rw [List.takeWhile_cons_of_pos (by simpa using hc), List.length_cons]
          omega

/-- A search that starts behind its end finds the end. -/
theorem identityFindByte_past {l : Bytes} {start stop fuel : Nat} (needle : UInt8)
    (h : stop ≤ start) (hfuel : 0 < fuel) :
    identityFindByte fuel (l[·]?) start stop needle = some stop := by
  cases fuel with
  | zero => omega
  | succ fuel => simp [identityFindByte, run, identityFindByteTurn, Nat.not_lt.mpr h]

/-- The search for a colon finds none. -/
theorem identityFindByte_cut_none {l x : Bytes} {pos stop fuel : Nat} (h : Spans l pos stop x)
    (hfuel : x.length < fuel) (hcut : cut 58 x = none) :
    identityFindByte fuel (l[·]?) pos stop 58 = some stop := by
  have hno : (58 : UInt8) ∉ x := by
    intro hmem
    obtain ⟨a, b, rfl, ha⟩ := List.eq_append_cons_of_mem hmem
    rw [cut_append ha] at hcut
    contradiction
  have hall : x.takeWhile (· != 58) = x :=
    List.takeWhile_eq_self_iff.mpr fun c hc => by simpa using ne_of_mem_of_not_mem hc hno
  rw [identityFindByte_eq 58 h hfuel, hall, h.stop_eq]

/-- The search for a colon finds the one in front of the rest. -/
theorem identityFindByte_cut_some {l x a b : Bytes} {pos stop fuel : Nat}
    (h : Spans l pos stop x) (hfuel : x.length < fuel) (hcut : cut 58 x = some (a, b)) :
    identityFindByte fuel (l[·]?) pos stop 58 = some (pos + a.length) ∧ pos + a.length ≠ stop ∧
      Spans l pos (pos + a.length) a ∧ Spans l (pos + a.length + 1) stop b ∧
      b.length < fuel ∧ a.length < fuel := by
  rcases cut_cases (58 : UInt8) x with ⟨-, hnone⟩ | ⟨a', b', rfl, ha, hsome⟩
  · rw [hnone] at hcut
    contradiction
  · obtain ⟨rfl, rfl⟩ := Prod.mk.inj (Option.some.inj (hsome.symm.trans hcut))
    have hstop := h.stop_eq
    rw [List.length_append, List.length_cons] at hstop hfuel
    have hsplit : a' ++ 58 :: b' = (a' ++ [58]) ++ b' := by simp
    refine ⟨?_, by omega, h.of_isPrefix (List.prefix_append _ _), ?_, by omega, by omega⟩
    · rw [identityFindByte_eq 58 h (by simp; omega), takeWhile_ne_append ha]
    · have hrest := Spans.of_append (hsplit ▸ h)
      simpa [Nat.add_assoc] using hrest

theorem identityParseUint_eq {l x : Bytes} {pos stop fuel : Nat} (h : Spans l pos stop x)
    (hfuel : x.length < fuel) :
    identityParseUint fuel (l[·]?) pos stop = some (Shakti.identityParseUint x) := by
  refine run_eq (fun n st b =>
    ∃ x, x.length = n ∧ Spans l st.1 stop x ∧ b = identityParseUintLoop x st.2)
    ?_ ⟨x, rfl, h, rfl⟩ hfuel
  intro n st b hleft
  obtain ⟨p, v⟩ := st
  obtain ⟨x, rfl, h, rfl⟩ := hleft
  cases x with
  | nil =>
      left
      simp [identityParseUintTurn, h.not_lt, identityParseUintLoop]
  | cons c x =>
      simp only [identityParseUintTurn, h.lt, if_true, h.head, Option.bind_eq_bind,
        Option.bind_some, identityParseUintLoop]
      split
      · exact Or.inl rfl
      · split
        · exact Or.inl rfl
        · exact Or.inr ⟨x.length, _, by simp, rfl, x, rfl, h.tail, rfl⟩

/-- At `pos` of the `n` bytes read stands a line, and behind it nothing, or a newline and
more. -/
structure LineAt (buf : Bytes) (n pos : Nat) (line tail : Bytes) : Prop where
  spans : Spans buf pos n (line ++ tail)
  noNewline : 10 ∉ line
  tail_eq : tail = [] ∨ ∃ rest, tail = 10 :: rest
  lt : pos < n

section Line

variable {buf line tail : Bytes} {n pos fuel uid : Nat} {name : CStr}

theorem LineAt.length_lt (h : LineAt buf n pos line tail) (hfuel : n < fuel) :
    line.length < fuel := by
  have hstop := h.spans.stop_eq
  rw [List.length_append] at hstop
  omega

theorem LineAt.lineEnd (h : LineAt buf n pos line tail) (hfuel : n < fuel) :
    identityFindByte fuel (buf[·]?) pos n 10 = some (pos + line.length) := by
  have hstop := h.spans.stop_eq
  have htake : (line ++ tail).takeWhile (· != 10) = line := by
    rcases h.tail_eq with rfl | ⟨rest, rfl⟩
    · rw [List.append_nil, List.takeWhile_eq_self_iff]
      exact fun c hc => by simpa using ne_of_mem_of_not_mem hc h.noNewline
    · exact takeWhile_ne_append h.noNewline rest
  rw [identityFindByte_eq 10 h.spans (by omega), htake]

theorem LineAt.whole (h : LineAt buf n pos line tail) : Spans buf pos (pos + line.length) line :=
  h.spans.of_isPrefix (List.prefix_append _ _)

/-- The positions of the fields of a line with four fields. -/
theorem LineAt.fields (h : LineAt buf n pos line tail) (hfuel : n < fuel) {a r₁ p r₂ u r₃ : Bytes}
    (h₁ : cut 58 line = some (a, r₁)) (h₂ : cut 58 r₁ = some (p, r₂))
    (h₃ : cut 58 r₂ = some (u, r₃)) :
    ∃ c1 c2 c3, identityFindByte fuel (buf[·]?) pos (pos + line.length) 58 = some c1 ∧
      identityFindByte fuel (buf[·]?) (c1 + 1) (pos + line.length) 58 = some c2 ∧
      identityFindByte fuel (buf[·]?) (c2 + 1) (pos + line.length) 58 = some c3 ∧
      c1 ≠ pos + line.length ∧ c2 ≠ pos + line.length ∧ c3 ≠ pos + line.length ∧
      Spans buf pos c1 a ∧ c1 = pos + a.length ∧
      identityParseUint fuel (buf[·]?) (c2 + 1) c3 = some (Shakti.identityParseUint u) ∧
      ∃ c4, identityFindByte fuel (buf[·]?) (c3 + 1) (pos + line.length) 58 = some c4 ∧
        identityParseUint fuel (buf[·]?) (c3 + 1) c4
          = some (Shakti.identityParseUint (field r₃)) := by
  obtain ⟨f₁, hne₁, ha, hr₁, hlen₁, -⟩ := identityFindByte_cut_some h.whole (h.length_lt hfuel) h₁
  obtain ⟨f₂, hne₂, -, hr₂, hlen₂, -⟩ := identityFindByte_cut_some hr₁ hlen₁ h₂
  obtain ⟨f₃, hne₃, hu, hr₃, hlen₃, hulen⟩ := identityFindByte_cut_some hr₂ hlen₂ h₃
  refine ⟨_, _, _, f₁, f₂, f₃, hne₁, hne₂, hne₃, ha, rfl, identityParseUint_eq hu hulen, _,
    identityFindByte_eq 58 hr₃ hlen₃, ?_⟩
  have hshort : (field r₃).length ≤ r₃.length := (List.takeWhile_prefix _).length_le
  exact identityParseUint_eq (hr₃.takeWhile (· != 58)) (by omega)

/-- A line with fewer fields: the searches find its end. -/
theorem LineAt.short (h : LineAt buf n pos line tail) (hfuel : n < fuel)
    (hcuts : cut 58 line = none ∨ ∃ a r₁, cut 58 line = some (a, r₁) ∧
      (cut 58 r₁ = none ∨ ∃ p r₂, cut 58 r₁ = some (p, r₂) ∧ cut 58 r₂ = none)) :
    ∃ c1, identityFindByte fuel (buf[·]?) pos (pos + line.length) 58 = some c1 ∧
      (c1 = pos + line.length ∨ c1 ≠ pos + line.length ∧
        ∃ c2, identityFindByte fuel (buf[·]?) (c1 + 1) (pos + line.length) 58 = some c2 ∧
          (c2 = pos + line.length ∨ c2 ≠ pos + line.length ∧
            identityFindByte fuel (buf[·]?) (c2 + 1) (pos + line.length) 58
              = some (pos + line.length))) := by
  rcases hcuts with h₁ | ⟨a, r₁, h₁, hcuts⟩
  · exact ⟨_, identityFindByte_cut_none h.whole (h.length_lt hfuel) h₁, Or.inl rfl⟩
  obtain ⟨f₁, hne₁, -, hr₁, hlen₁, -⟩ := identityFindByte_cut_some h.whole (h.length_lt hfuel) h₁
  refine ⟨_, f₁, Or.inr ⟨hne₁, ?_⟩⟩
  rcases hcuts with h₂ | ⟨p, r₂, h₂, h₃⟩
  · exact ⟨_, identityFindByte_cut_none hr₁ hlen₁ h₂, Or.inl rfl⟩
  obtain ⟨f₂, hne₂, -, hr₂, hlen₂, -⟩ := identityFindByte_cut_some hr₁ hlen₁ h₂
  exact ⟨_, f₂, Or.inr ⟨hne₂, identityFindByte_cut_none hr₂ hlen₂ h₃⟩⟩

/-- The scanner by uid passes over the lines the lookup passes over. -/
theorem lookupUidTurn_skip (h : LineAt buf n pos line tail) (hfuel : n < fuel)
    (hno : ¬ UidLine uid line) :
    lookupUidTurn fuel (buf[·]?) n uid pos = some (.next (pos + line.length + 1)) := by
  simp only [lookupUidTurn, h.lt, if_true, h.lineEnd hfuel, Option.bind_eq_bind,
    Option.bind_some, Option.pure_def]
  rcases fourFields_cases line with ⟨-, -, hcuts⟩ | ⟨a, r₁, p, r₂, u, r₃, h₁, h₂, h₃, ha, hu, hg⟩
  · obtain ⟨c1, f₁, rfl | ⟨hne₁, c2, f₂, rfl | ⟨hne₂, f₃⟩⟩⟩ := h.short hfuel hcuts
    · simp [f₁]
    · simp [f₁, hne₁, f₂]
    · simp [f₁, hne₁, f₂, hne₂, f₃]
  · obtain ⟨c1, c2, c3, f₁, f₂, f₃, hne₁, hne₂, hne₃, -, hc1, fu, c4, f₄, fg⟩ :=
      h.fields hfuel h₁ h₂ h₃
    simp only [f₁, hne₁, f₂, hne₂, f₃, hne₃, fu, if_false, Option.bind_some]
    by_cases huid : Shakti.identityParseUint u = some uid
    · have hblank : ¬ (Shakti.identityParseUint (field r₃) = none ∨ field line ≠ []) :=
        fun hor => hno ⟨u, _, hu, hg, huid, hor⟩
      push Not at hblank
      obtain ⟨gid, hgid⟩ := Option.ne_none_iff_exists'.mp hblank.1
      have hnlen : c1 - pos = 0 := by
        rw [hc1, ← ha, hblank.2]
        simp
      simp [huid, f₄, fg, hgid, hnlen]
    · simp [huid]

/-- The scanner by uid stops where the lookup does. -/
theorem lookupUidTurn_take (h : LineAt buf n pos line tail) (hfuel : n < fuel)
    (hline : UidLine uid line) :
    lookupUidTurn fuel (buf[·]?) n uid pos = some (.done
      (match entryIds line with
      | none => .notFound
      | some (_, gid) => .found (CStr.read (field line), gid))) := by
  obtain ⟨u', g', hu', hg', huid, hor⟩ := hline
  simp only [lookupUidTurn, h.lt, if_true, h.lineEnd hfuel, Option.bind_eq_bind,
    Option.bind_some, Option.pure_def]
  rcases fourFields_cases line with ⟨h3, -⟩ | ⟨a, r₁, p, r₂, u, r₃, h₁, h₂, h₃, ha, hu, hg⟩
  · rw [h3] at hg'
    contradiction
  · obtain rfl := Option.some.inj (hu.symm.trans hu')
    obtain rfl := Option.some.inj (hg.symm.trans hg')
    obtain ⟨c1, c2, c3, f₁, f₂, f₃, hne₁, hne₂, hne₃, hspan, hc1, fu, c4, f₄, fg⟩ :=
      h.fields hfuel h₁ h₂ h₃
    have hlen : c1 - pos = a.length := by omega
    simp only [f₁, hne₁, f₂, hne₂, f₃, hne₃, fu, huid, f₄, fg, if_false, if_true,
      Option.bind_some, entryIds, hu, hg, Option.bind_eq_bind]
    cases hgid : Shakti.identityParseUint (field r₃) with
    | none => rfl
    | some gid =>
        have hne : a ≠ [] := by
          rw [← ha]
          exact hor.resolve_left (by simp [hgid])
        have hcopy := cstrAt_copy hspan
        rw [Option.bind_eq_bind] at hcopy
        simp only [hlen, List.length_eq_zero_iff, hne, if_false, hcopy, Option.bind_some, ha,
          Option.pure_def]

/-- The comparison of the first field with the name. -/
theorem LineAt.sameName (h : LineAt buf n pos line tail) (hname : name.length < fuel) :
    (if pos + (field line).length - pos = name.length then
      memeq fuel (buf[·]?) pos (chars name) 0 name.length else some 0)
      = some (if field line = name.bytes then 1 else 0) := by
  rw [Nat.add_sub_cancel_left]
  by_cases hlen : (field line).length = name.length
  · have hspan : Spans buf pos (pos + (field line).length) (field line) :=
      h.whole.of_isPrefix (List.takeWhile_prefix (· != 58))
    rw [if_pos hlen, chars_eq, memeq_eq hspan (rest_zero name) hlen.symm.le le_rfl hname,
      List.take_of_length_le hlen.le, CStr.length, List.take_length]
  · rw [if_neg hlen, if_neg (fun heq => hlen (congrArg List.length heq))]

theorem LineAt.firstField (h : LineAt buf n pos line tail) (hfuel : n < fuel) :
    identityFindByte fuel (buf[·]?) pos (pos + line.length) 58
      = some (pos + (field line).length) :=
  identityFindByte_eq 58 h.whole (h.length_lt hfuel)

/-- The scanner by name passes over the lines with other names. -/
theorem lookupUserTurn_skip (h : LineAt buf n pos line tail) (hfuel : n < fuel)
    (hname : name.length < fuel) (hno : field line ≠ name.bytes) :
    lookupUserTurn fuel (buf[·]?) n name name.length pos
      = some (.next (pos + line.length + 1)) := by
  simp only [lookupUserTurn, h.lt, if_true, h.lineEnd hfuel, h.firstField hfuel,
    Option.bind_eq_bind, Option.bind_some, Option.pure_def, h.sameName hname, if_neg hno]
  rfl

/-- The scanner by name stops at the line with the name, as the lookup does. -/
theorem lookupUserTurn_take (h : LineAt buf n pos line tail) (hfuel : n < fuel)
    (hname : name.length < fuel) (hline : field line = name.bytes) :
    lookupUserTurn fuel (buf[·]?) n name name.length pos = some (.done
      (match entryIds line with
      | none => .notFound
      | some ids => .found ids)) := by
  simp only [lookupUserTurn, h.lt, if_true, h.lineEnd hfuel, h.firstField hfuel,
    Option.bind_eq_bind, Option.bind_some, Option.pure_def, h.sameName hname, if_pos hline]
  have hfirst := h.firstField hfuel
  rcases fourFields_cases line with ⟨-, hids, hcuts⟩ | ⟨a, r₁, p, r₂, u, r₃, h₁, h₂, h₃, -, hu, hg⟩
  · rw [hids]
    obtain ⟨c1, f₁, hc1⟩ := h.short hfuel hcuts
    obtain rfl := Option.some.inj (hfirst.symm.trans f₁)
    rcases hc1 with hend | ⟨-, c2, f₂, rfl | ⟨hne₂, f₃⟩⟩
    · -- Without a colon the search for the second one starts behind the line.
      rw [hend, identityFindByte_past 58 (Nat.le_succ _) (by omega)]
      simp
    · simp [f₂]
    · simp [f₂, hne₂, f₃]
  · obtain ⟨c1, c2, c3, f₁, f₂, f₃, -, hne₂, hne₃, -, -, fu, c4, f₄, fg⟩ := h.fields hfuel h₁ h₂ h₃
    obtain rfl := Option.some.inj (hfirst.symm.trans f₁)
    simp only [f₂, hne₂, f₃, hne₃, fu, if_false, Option.bind_some, entryIds, hu, hg,
      Option.bind_eq_bind]
    cases Shakti.identityParseUint u with
    | none => rfl
    | some uid =>
        simp only [f₄, fg, Option.bind_some]
        cases Shakti.identityParseUint (field r₃) <;> rfl

end Line

/-- A text that is left at `pos` begins with a line, and what is left behind it is left one
position behind the end of the line. -/
theorem exists_lineAt {buf x : Bytes} {n pos : Nat} (h : Spans buf pos n x) (hne : x ≠ []) :
    ∃ line tail, LineAt buf n pos line tail ∧ segments 10 x = line :: segments 10 (tail.drop 1) ∧
      (tail.drop 1).length < x.length ∧
      (Spans buf (pos + line.length + 1) n (tail.drop 1) ∨
        n < pos + line.length + 1 ∧ tail.drop 1 = []) := by
  have hlt : pos < n := by
    have hstop := h.stop_eq
    have hpos := List.length_pos_iff.mpr hne
    omega
  rcases cut_cases (10 : UInt8) x with ⟨hx, -⟩ | ⟨line, rest, rfl, hline, -⟩
  · have hend : n < pos + x.length + 1 := by
      rw [h.stop_eq]
      exact Nat.lt_succ_self _
    refine ⟨x, [], ⟨by simpa using h, hx, Or.inl rfl, hlt⟩, ?_, List.length_pos_iff.mpr hne,
      Or.inr ⟨hend, rfl⟩⟩
    rw [segments_of_notMem hx, if_neg hne]
    rfl
  · refine ⟨line, 10 :: rest, ⟨h, hline, Or.inr ⟨rest, rfl⟩, hlt⟩, segments_append hline rest,
      ?_, Or.inl ?_⟩
    · rw [List.drop_one, List.tail_cons, List.length_append, List.length_cons]
      omega
    have hsplit : line ++ 10 :: rest = (line ++ [10]) ++ rest := by simp
    have hrest := Spans.of_append (hsplit ▸ h)
    simpa [Nat.add_assoc] using hrest

/-- A loop over lines. It computes `f` of the lines when each turn either moves on to the next
line, where `f` passes over this one, or stops with what `f` finds in it. -/
theorem run_lines {β : Type} {buf : Bytes} {fuel : Nat} {turn : Nat → Option (Turn Nat β)}
    {f : List Bytes → β} (hnil : ∀ pos, buf.length ≤ pos → turn pos = some (.done (f [])))
    (hline : ∀ pos line tail, LineAt buf buf.length pos line tail →
      (turn pos = some (.next (pos + line.length + 1)) ∧ ∀ ls, f (line :: ls) = f ls) ∨
      (∃ b, turn pos = some (.done b) ∧ ∀ ls, f (line :: ls) = b))
    (hfuel : buf.length < fuel) : run turn fuel 0 = some (f (segments 10 buf)) := by
  refine run_eq (fun m pos b => ∃ x, x.length = m ∧
      (Spans buf pos buf.length x ∨ buf.length < pos ∧ x = []) ∧ b = f (segments 10 x))
    ?_ ⟨buf, rfl, Or.inl ⟨by simp, by simp⟩, rfl⟩ hfuel
  intro m pos b hleft
  obtain ⟨x, rfl, hx, rfl⟩ := hleft
  by_cases hne : x = []
  · subst hne
    refine Or.inl (hnil pos ?_)
    rcases hx with h | ⟨h, -⟩
    · exact Nat.le_of_not_lt h.not_lt
    · exact h.le
  · have h : Spans buf pos buf.length x := hx.resolve_right (fun h => hne h.2)
    obtain ⟨line, tail, hat, hseg, hless, hnext⟩ := exists_lineAt h hne
    rw [hseg]
    rcases hline pos line tail hat with ⟨hturn, hskip⟩ | ⟨b, hturn, htake⟩
    · exact Or.inr ⟨_, _, hless, hturn, tail.drop 1, rfl, hnext, hskip _⟩
    · exact Or.inl (by rw [hturn, htake])

theorem identityLookupUid_eq {buf : Bytes} {fuel : Nat} (uid : Nat) (hfuel : buf.length < fuel) :
    identityLookupUid fuel buf uid = some (lookupUidIn uid buf) := by
  refine run_lines ?_ ?_ hfuel
  · intro pos hpos
    simp [lookupUidTurn, Nat.not_lt.mpr hpos, lookupUidLines]
  · intro pos line tail h
    by_cases hline : UidLine uid line
    · exact Or.inr ⟨_, lookupUidTurn_take h hfuel hline, fun ls => lookupUidLines_take hline⟩
    · exact Or.inl ⟨lookupUidTurn_skip h hfuel hline, fun ls => lookupUidLines_skip hline⟩

theorem identityLookupUser_eq {buf : Bytes} {fuel : Nat} (name : CStr) (hfuel : buf.length < fuel)
    (hname : name.length < fuel) :
    identityLookupUser fuel buf name = some (lookupUserIn name buf) := by
  rw [identityLookupUser, strlen_eq hname, lookupUserIn]
  simp only [Option.bind_eq_bind, Option.bind_some]
  split
  · rfl
  · refine run_lines ?_ ?_ hfuel
    · intro pos hpos
      simp [lookupUserTurn, Nat.not_lt.mpr hpos, lookupUserLines]
    · intro pos line tail h
      by_cases hline : field line = name.bytes
      · exact Or.inr ⟨_, lookupUserTurn_take h hfuel hname hline,
          fun ls => lookupUserLines_take hline⟩
      · exact Or.inl ⟨lookupUserTurn_skip h hfuel hname hline,
          fun ls => lookupUserLines_skip hline⟩

end Checked

/-! ### One lookup is the inverse of the other -/

/-- In the buffer as in the file, no line stands behind another with its first field, if it has
a second one. -/
theorem field_ne_of_nodup {F : Bytes} (hdistinct : ((segments 10 F).map field).Nodup)
    {pre post : List Bytes} {line v : Bytes} (hlines : passwdLines F = pre ++ line :: post)
    (hline : piece 58 1 line = some v) : ∀ q ∈ pre, field q ≠ field line := by
  have hfield : piece 58 0 line = some (field line) := rfl
  obtain ⟨l, post', hfile, hsame⟩ : ∃ l post', segments 10 F = pre ++ l :: post' ∧
      field line = field l := by
    rcases segments_take hlines with ⟨post', hwhole⟩ | ⟨-, l, post', hsplit, hprefix⟩
    · exact ⟨line, post', hwhole, rfl⟩
    · have hpiece := (piece_of_isPrefix hprefix hfield).2 (by simp [hline])
      exact ⟨l, post', hsplit, (Option.some.inj hpiece).symm⟩
  intro q hq heq
  rw [hfile, List.map_append, List.map_cons, List.nodup_append] at hdistinct
  exact hdistinct.2.2 (field q) (List.mem_map_of_mem hq) (field l) (List.mem_cons_self ..)
    (heq.trans hsame)

/-- **The two passwd lookups are inverse.** On a content without NUL bytes whose lines have
distinct first fields, what is found by uid is found by name. Whatever the content and the
question, both scanners come to an end and read nothing but the bytes read. -/
theorem passwdLookups_inverse (F : Bytes) :
    (0 ∉ F → ((segments 10 F).map field).Nodup → ∀ uid n gid,
      ReturnsOn (identityLookupUid uid) F (.found (n, gid)) →
        ReturnsOn (identityLookupUser n) F (.found (uid, gid)) ∧
          n.bytes ≠ [] ∧ 58 ∉ n.bytes ∧ 10 ∉ n.bytes) ∧
    (∀ uid fuel, (F.take identityBufMax).length < fuel → ∀ r,
      ReturnsOn (identityLookupUid uid) F r →
        Checked.identityLookupUid fuel (F.take identityBufMax) uid = some r) ∧
    (∀ name fuel, (F.take identityBufMax).length < fuel → name.length < fuel → ∀ r,
      ReturnsOn (identityLookupUser name) F r →
        Checked.identityLookupUser fuel (F.take identityBufMax) name = some r) := by
  refine ⟨?_, ?_, ?_⟩
  · intro hnul hdistinct uid n gid hfound
    rw [returnsOn_identityLookupUid_iff, eq_comm, lookupUidIn, lookupUidLines_found_iff] at hfound
    obtain ⟨pre, line, hfirst, hids, rfl⟩ := hfound
    obtain ⟨⟨post, hlines⟩, hline, -⟩ := hfirst
    obtain ⟨u, g, hu, hg, -, hor⟩ := hline
    -- The name is the first field of its line.
    have hmem : line ∈ passwdLines F := by
      rw [passwdLines, hlines]
      simp
    have hsubset : field line ⊆ F := fun c hc =>
      List.mem_of_mem_take (segments_subset hmem (List.takeWhile_subset _ hc))
    have hbytes : (CStr.read (field line)).bytes = field line :=
      CStr.read_of_noNul (fun h => hnul (hsubset h))
    have hne : field line ≠ [] := by
      refine hor.resolve_left ?_
      obtain ⟨-, g', -, hg', -, hgid⟩ := entryIds_eq_some_iff.mp hids
      obtain rfl := Option.some.inj (hg.symm.trans hg')
      simp [hgid]
    have hfield : piece 58 0 line = some (field line) := rfl
    have hcolon : 58 ∉ field line := notMem_piece hfield
    have hnewline : 10 ∉ field line := fun h =>
      notMem_of_mem_segments hmem (List.takeWhile_subset _ h)
    rw [hbytes]
    refine ⟨?_, hne, hcolon, hnewline⟩
    obtain ⟨v, hv⟩ := exists_piece hu
    rw [returnsOn_identityLookupUser_iff, eq_comm, lookupUserIn, if_neg (by
      rw [CStr.length, hbytes]
      exact (List.length_pos_iff.mpr hne).ne'), lookupUserLines_found_iff, hbytes]
    exact ⟨pre, line, ⟨⟨post, hlines⟩, rfl, field_ne_of_nodup hdistinct hlines hv⟩, hids⟩
  · intro uid fuel hfuel r hr
    rw [Checked.identityLookupUid_eq uid hfuel, returnsOn_identityLookupUid_iff.mp hr]
  · intro name fuel hfuel hname r hr
    rw [Checked.identityLookupUser_eq name hfuel hname, returnsOn_identityLookupUser_iff.mp hr]

/-- A line without colons, one without ids, and one that both lookups find, at the end of a file
without a last newline. -/
theorem passwdLookups_inverse_three :
    ReturnsOn (identityLookupUser (cstr "al")) (utf8 "al2\nbo:x:z:1\nal:x:7:9") (.found (7, 9)) ∧
      (cstr "al").bytes ≠ [] ∧ 58 ∉ (cstr "al").bytes ∧ 10 ∉ (cstr "al").bytes :=
  (passwdLookups_inverse (utf8 "al2\nbo:x:z:1\nal:x:7:9")).1 (by decide)
    (by decide) 7 (cstr "al") 9
    (returnsOn_identityLookupUid_iff.mpr (by decide))

end Shakti
