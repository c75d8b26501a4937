import Shakti.Identity
import Shakti.Lib.FirstMatch
import Shakti.Lib.Records
import Shakti.Policy.Values

/-!
# Shakti.Passwd

What the two passwd lookups read off `/etc/passwd`.

Both take the first line they select, and then its third and fourth fields (`entryIds`).
`identity_lookup_user` selects by the first field; `identity_lookup_uid` by the third, and only
among lines with four fields (`UidLine`).

* `lookupUserLines_found_iff`, `lookupUidLines_found_iff` — the lookups as statements about
  the first selected line.
* `identityLookupUser_ids_iff` — when an id that `identity_lookup_user` returns was written:
  the empty text reads as `0` (`identityParseUint_eq_some_iff`), and `0` is root.
* `passwdLookups_cut_iff` — when a file that is cut at the size of the read buffer is cut
  safely.
-/

namespace Shakti

open Effects Effects.Prog FirstMatch Records Scan

/-! ### Ids -/

/-- The loop accepts digits that keep the number within 32 bits. -/
theorem identityParseUintLoop_eq_some_iff {ds : Bytes} {v n : Nat} (hv : v ≤ 4294967295) :
    identityParseUintLoop ds v = some n ↔ (∀ c ∈ ds, 48 ≤ c ∧ c ≤ 57) ∧
      ds.foldl (fun v c => v * 10 + (c.toNat - 48)) v = n ∧ n ≤ 4294967295 := by
  induction ds generalizing v with
  | nil =>
      simp only [identityParseUintLoop, List.foldl_nil, Option.some.injEq]
      constructor
      · rintro rfl
        exact ⟨by simp, rfl, hv⟩
      · exact fun h => h.2.1
  | cons c cs ih =>
      rw [identityParseUintLoop, List.forall_mem_cons, List.foldl_cons]
      by_cases hc : c < 48 ∨ 57 < c
      · rw [if_pos hc]
        refine iff_of_false (by simp) ?_
        intro h
        exact hc.elim (UInt8.not_lt.mpr h.1.1.1) (UInt8.not_lt.mpr h.1.1.2)
      · rw [if_neg hc]
        rw [not_or, UInt8.not_lt, UInt8.not_lt] at hc
        dsimp only
        by_cases hover : (4294967295 - (c.toNat - 48)) / 10 < v
        · rw [if_pos hover]
          refine iff_of_false (by simp) ?_
          intro h
          obtain ⟨-, hfold, hn⟩ := h
          have hle := le_foldl_digits cs (v * 10 + (c.toNat - 48))
          omega
        · have hdigit : c.toNat ≤ 57 := UInt8.le_iff_toNat_le.mp hc.2
          rw [if_neg hover, ih (by omega)]
          simp only [hc, and_self, true_and]

/-- **What reads as an id**: a numeral in range, and the empty text, which reads as `0`. -/
theorem identityParseUint_eq_some_iff {ds : Bytes} {n : Nat} :
    identityParseUint ds = some n ↔ ds = [] ∧ n = 0 ∨ Decimal n ds ∧ n ≤ 4294967295 := by
  rw [identityParseUint, identityParseUintLoop_eq_some_iff (by omega), Decimal]
  by_cases hds : ds = []
  · subst hds
    simp only [List.foldl_nil, ne_eq, not_true_eq_false, false_and, or_false, true_and]
    constructor
    · exact fun h => h.2.1.symm
    · rintro rfl
      exact ⟨by simp, rfl, by omega⟩
  · simp only [hds, ne_eq, not_false_eq_true, true_and, false_and, false_or, and_assoc]

/-- The ids a line gives: its third and fourth fields, as far as they read as ids. -/
def entryIds (line : Bytes) : Option (Nat × Nat) := do
  let uid ← identityParseUint (← piece 58 2 line)
  let gid ← identityParseUint (← piece 58 3 line)
  pure (uid, gid)

theorem entryIds_eq_some_iff {line : Bytes} {uid gid : Nat} :
    entryIds line = some (uid, gid) ↔
      ∃ u g, piece 58 2 line = some u ∧ piece 58 3 line = some g ∧
        identityParseUint u = some uid ∧ identityParseUint g = some gid := by
  simp only [entryIds, Option.bind_eq_bind, Option.bind_eq_some_iff, Option.pure_def,
    Option.some.injEq, Prod.mk.injEq]
  constructor
  · intro h
    obtain ⟨u, hu, uid', huid, g, hg, gid', hgid, rfl, rfl⟩ := h
    exact ⟨u, g, hu, hg, huid, hgid⟩
  · intro ⟨u, g, hu, hg, huid, hgid⟩
    exact ⟨u, hu, uid, huid, g, hg, gid, hgid, rfl, rfl⟩

/-- A line with four fields, or one with fewer. -/
theorem fourFields_cases (line : Bytes) :
    (piece 58 3 line = none ∧ entryIds line = none ∧
      (cut 58 line = none ∨ ∃ n r₁, cut 58 line = some (n, r₁) ∧
        (cut 58 r₁ = none ∨ ∃ p r₂, cut 58 r₁ = some (p, r₂) ∧ cut 58 r₂ = none))) ∨
    ∃ n r₁ p r₂ u r₃, cut 58 line = some (n, r₁) ∧ cut 58 r₁ = some (p, r₂) ∧
      cut 58 r₂ = some (u, r₃) ∧ field line = n ∧ piece 58 2 line = some u ∧
      piece 58 3 line = some (field r₃) := by
  have hids : piece 58 3 line = none → entryIds line = none := by
    intro h
    rw [Option.eq_none_iff_forall_ne_some]
    intro ids hsome
    obtain ⟨u, g, -, hg, -⟩ := entryIds_eq_some_iff.mp hsome
    rw [h] at hg
    contradiction
  rcases cut_cases (58 : UInt8) line with ⟨h, hcut⟩ | ⟨n, r₁, rfl, hn, hcut⟩
  · have h3 := piece_succ_of_notMem h 2
    exact Or.inl ⟨h3, hids h3, Or.inl hcut⟩
  rcases cut_cases (58 : UInt8) r₁ with ⟨h, hcut₁⟩ | ⟨p, r₂, rfl, hp, hcut₁⟩
  · have h3 : piece 58 3 (n ++ 58 :: r₁) = none := by
      rw [piece_succ_append hn, piece_succ_of_notMem h]
    exact Or.inl ⟨h3, hids h3, Or.inr ⟨n, r₁, hcut, Or.inl hcut₁⟩⟩
  rcases cut_cases (58 : UInt8) r₂ with ⟨h, hcut₂⟩ | ⟨u, r₃, rfl, hu, hcut₂⟩
  · have h3 : piece 58 3 (n ++ 58 :: (p ++ 58 :: r₂)) = none := by
      rw [piece_succ_append hn, piece_succ_append hp, piece_succ_of_notMem h]
    exact Or.inl ⟨h3, hids h3, Or.inr ⟨n, _, hcut, Or.inr ⟨p, r₂, hcut₁, hcut₂⟩⟩⟩
  · refine Or.inr ⟨n, _, p, _, u, r₃, hcut, hcut₁, hcut₂, takeWhile_ne_append hn _, ?_, ?_⟩
    · rw [piece_succ_append hn, piece_succ_append hp, piece_zero, takeWhile_ne_append hu]
    · rw [piece_succ_append hn, piece_succ_append hp, piece_succ_append hu, piece_zero, field]

/-! ### The lookup by name -/

section Lines

variable {name : CStr} {uid gid : Nat} {lines pre : List Bytes} {line : Bytes}

theorem lookupUserLines_skip (h : field line ≠ name.bytes) :
    lookupUserLines name (line :: lines) = lookupUserLines name lines := by
  rw [lookupUserLines, if_neg h]

/-- The line with the name gives its ids, or ends the search. -/
theorem lookupUserLines_take (h : field line = name.bytes) :
    lookupUserLines name (line :: lines) =
      match entryIds line with
      | none => .notFound
      | some ids => .found ids := by
  rw [lookupUserLines, if_pos h]
  rcases fourFields_cases line with ⟨-, hids, hcuts⟩ | ⟨n, r₁, p, r₂, u, r₃, h₁, h₂, h₃, -, hu, hg⟩
  · rw [hids]
    rcases hcuts with h₁ | ⟨n, r₁, h₁, h₂ | ⟨p, r₂, h₂, h₃⟩⟩ <;> simp [*]
  · simp only [h₁, h₂, h₃, entryIds, hu, hg, Option.bind_eq_bind, Option.bind_some]
    cases identityParseUint u with
    | none => rfl
    | some uid => cases identityParseUint (field r₃) <;> rfl

theorem lookupUserLines_noMatch (h : ∀ line ∈ lines, field line ≠ name.bytes) :
    lookupUserLines name lines = .notFound := by
  induction lines with
  | nil => rfl
  | cons line lines ih =>
      rw [List.forall_mem_cons] at h
      rw [lookupUserLines_skip h.1, ih h.2]

theorem lookupUserLines_first
    (h : First (fun line => field line = name.bytes) lines pre line) :
    lookupUserLines name lines =
      match entryIds line with
      | none => .notFound
      | some ids => .found ids := by
  obtain ⟨⟨post, rfl⟩, hline, hpre⟩ := h
  induction pre with
  | nil => exact lookupUserLines_take hline
  | cons q pre ih =>
      rw [List.forall_mem_cons] at hpre
      rw [List.cons_append, lookupUserLines_skip hpre.1, ih hpre.2]

/-- **The lookup by name** finds the ids of the first line with the name. -/
theorem lookupUserLines_found_iff {ids : Nat × Nat} :
    lookupUserLines name lines = .found ids ↔
      ∃ pre line, First (fun line => field line = name.bytes) lines pre line ∧
        entryIds line = some ids := by
  constructor
  · intro h
    by_cases hex : ∃ line ∈ lines, field line = name.bytes
    · obtain ⟨line, hmem, hline⟩ := hex
      obtain ⟨pre, first, hfirst⟩ :=
        exists_first (p := fun line => field line = name.bytes) hmem hline
      rw [lookupUserLines_first hfirst] at h
      refine ⟨pre, first, hfirst, ?_⟩
      cases hids : entryIds first with
      | none => simp [hids] at h
      | some ids' => simpa [hids] using h
    · push Not at hex
      rw [lookupUserLines_noMatch hex] at h
      contradiction
  · intro ⟨pre, line, hfirst, hids⟩
    rw [lookupUserLines_first hfirst, hids]

/-! ### The lookup by uid -/

/-- The line the lookup by uid stops at: it has four fields, the third reads as the uid, and
the name is not empty, or the fourth does not read as an id. -/
def UidLine (uid : Nat) (line : Bytes) : Prop :=
  ∃ u g, piece 58 2 line = some u ∧ piece 58 3 line = some g ∧ identityParseUint u = some uid ∧
    (identityParseUint g = none ∨ field line ≠ [])

theorem lookupUidLines_skip (h : ¬ UidLine uid line) :
    lookupUidLines uid (line :: lines) = lookupUidLines uid lines := by
  rw [lookupUidLines]
  rcases fourFields_cases line with ⟨-, -, hcuts⟩ | ⟨n, r₁, p, r₂, u, r₃, h₁, h₂, h₃, hn, hu, hg⟩
  · rcases hcuts with h₁ | ⟨n, r₁, h₁, h₂ | ⟨p, r₂, h₂, h₃⟩⟩ <;> simp [*]
  · simp only [h₁, h₂, h₃]
    by_cases huid : identityParseUint u = some uid
    · rw [if_pos huid]
      have hno : ¬ (identityParseUint (field r₃) = none ∨ field line ≠ []) :=
        fun hor => h ⟨u, _, hu, hg, huid, hor⟩
      push Not at hno
      obtain ⟨gid, hgid⟩ := Option.ne_none_iff_exists'.mp hno.1
      rw [hgid]
      dsimp only
      rw [if_pos (hn.symm.trans hno.2)]
    · rw [if_neg huid]

theorem lookupUidLines_take (h : UidLine uid line) :
    lookupUidLines uid (line :: lines) =
      match entryIds line with
      | none => .notFound
      | some (_, gid) => .found (CStr.read (field line), gid) := by
  obtain ⟨u, g, hu, hg, huid, hor⟩ := h
  rw [lookupUidLines]
  rcases fourFields_cases line with ⟨h3, -⟩ | ⟨n, r₁, p, r₂, u', r₃, h₁, h₂, h₃, hn, hu', hg'⟩
  · rw [h3] at hg
    contradiction
  · obtain rfl := Option.some.inj (hu'.symm.trans hu)
    obtain rfl := Option.some.inj (hg'.symm.trans hg)
    simp only [h₁, h₂, h₃, huid, if_true, entryIds, hu, hg, Option.bind_eq_bind, Option.bind_some]
    cases hgid : identityParseUint (field r₃) with
    | none => rfl
    | some gid =>
        have hne : n ≠ [] := by
          rw [← hn]
          exact hor.resolve_left (by simp [hgid])
        simp only [Option.bind_some, Option.pure_def, if_neg hne, hn]

theorem lookupUidLines_noMatch (h : ∀ line ∈ lines, ¬ UidLine uid line) :
    lookupUidLines uid lines = .notFound := by
  induction lines with
  | nil => rfl
  | cons line lines ih =>
      rw [List.forall_mem_cons] at h
      rw [lookupUidLines_skip h.1, ih h.2]

theorem lookupUidLines_first (h : First (UidLine uid) lines pre line) :
    lookupUidLines uid lines =
      match entryIds line with
      | none => .notFound
      | some (_, gid) => .found (CStr.read (field line), gid) := by
  obtain ⟨⟨post, rfl⟩, hline, hpre⟩ := h
  induction pre with
  | nil => exact lookupUidLines_take hline
  | cons q pre ih =>
      rw [List.forall_mem_cons] at hpre
      rw [List.cons_append, lookupUidLines_skip hpre.1, ih hpre.2]

/-- **The lookup by uid** finds the name and the gid of the first line it stops at. -/
theorem lookupUidLines_found_iff {n : CStr} :
    lookupUidLines uid lines = .found (n, gid) ↔
      ∃ pre line, First (UidLine uid) lines pre line ∧ entryIds line = some (uid, gid) ∧
        n = CStr.read (field line) := by
  constructor
  · intro h
    by_cases hex : ∃ line ∈ lines, UidLine uid line
    · obtain ⟨line, hmem, hline⟩ := hex
      obtain ⟨pre, first, hfirst⟩ := exists_first (p := UidLine uid) hmem hline
      rw [lookupUidLines_first hfirst] at h
      refine ⟨pre, first, hfirst, ?_⟩
      obtain ⟨-, ⟨u, g, hu, hg, huid, -⟩, -⟩ := hfirst
      simp only [entryIds, hu, hg, huid, Option.bind_eq_bind, Option.bind_some] at h ⊢
      cases hgid : identityParseUint g with
      | none => simp [hgid] at h
      | some gid' =>
          simp only [hgid, Option.bind_some, Option.pure_def, Lookup.found.injEq,
            Prod.mk.injEq] at h ⊢
          exact ⟨by rw [h.2], h.1.symm⟩
    · push Not at hex
      rw [lookupUidLines_noMatch hex] at h
      contradiction
  · intro ⟨pre, line, hfirst, hids, hn⟩
    rw [lookupUidLines_first hfirst, hids, hn]

end Lines

/-! ### The file -/

/-- The program returns `a` when `/etc/passwd` holds `F` and it does nothing but read it. -/
def ReturnsOn {α : Type} (p : Sys α) (F : Bytes) (a : α) : Prop :=
  ∃ tr : Trace, (∀ e ∈ tr, e = ⟨.readFile passwdPath, some F⟩) ∧ Returns p tr a

theorem returnsOn_pure_iff {α : Type} {F : Bytes} {a b : α} :
    ReturnsOn (Pure.pure b : Sys α) F a ↔ a = b := by
  constructor
  · intro ⟨tr, _, hrun⟩
    exact (returns_pure_iff.mp hrun).2
  · rintro rfl
    exact ⟨[], by simp, returns_pure_iff.mpr ⟨rfl, rfl⟩⟩

/-- The read delivers what the buffer has room for. -/
theorem returnsOn_read_iff {α : Type} {cap : Nat} {f : Option Bytes → Sys α} {F : Bytes} {a : α} :
    ReturnsOn (fileReadAll passwdPath cap >>= f) F a ↔ ReturnsOn (f (some (F.take cap))) F a := by
  constructor
  · intro ⟨tr, htr, hrun⟩
    obtain ⟨tr₁, tr₂, content, rfl, hread, hrest⟩ := returns_bind_iff.mp hrun
    obtain ⟨r, tr', rfl, hpure⟩ := returns_ask_bind_iff.mp hread
    have hr := htr _ (List.mem_append_left tr₂ (List.mem_cons_self ..))
    cases hr
    obtain ⟨-, rfl⟩ := returns_pure_iff.mp hpure
    exact ⟨tr₂, fun e he => htr e (List.mem_append_right _ he), hrest⟩
  · intro ⟨tr, htr, hrun⟩
    refine ⟨⟨.readFile passwdPath, some F⟩ :: tr, ?_, ?_⟩
    · intro e he
      rcases List.mem_cons.mp he with rfl | he
      · rfl
      · exact htr e he
    · exact Steps.cons hrun

/-- The lookup by name in a content, whatever its length. -/
def lookupUserIn (name : CStr) (F : Bytes) : Lookup (Nat × Nat) :=
  if name.length = 0 then .notFound else lookupUserLines name (segments 10 F)

/-- The lookup by uid in a content, whatever its length. -/
def lookupUidIn (uid : Nat) (F : Bytes) : Lookup (CStr × Nat) :=
  lookupUidLines uid (segments 10 F)

theorem returnsOn_identityLookupUser_iff {name : CStr} {F : Bytes} {r : Lookup (Nat × Nat)} :
    ReturnsOn (identityLookupUser name) F r ↔ r = lookupUserIn name (F.take identityBufMax) := by
  rw [identityLookupUser, lookupUserIn]
  split
  · exact returnsOn_pure_iff
  · rw [returnsOn_read_iff, returnsOn_pure_iff]

theorem returnsOn_identityLookupUid_iff {uid : Nat} {F : Bytes} {r : Lookup (CStr × Nat)} :
    ReturnsOn (identityLookupUid uid) F r ↔ r = lookupUidIn uid (F.take identityBufMax) := by
  rw [identityLookupUid, returnsOn_read_iff, returnsOn_pure_iff, lookupUidIn]

/-! ### Ids that were written -/

/-- The ids the lookup by name finds are those written in the first line with the name. -/
def IdsWritten (name : CStr) (F : Bytes) : Prop :=
  ∀ uid gid, ReturnsOn (identityLookupUser name) F (.found (uid, gid)) →
    ∃ pre line u g, First (fun line => field line = name.bytes) (segments 10 F) pre line ∧
      piece 58 2 line = some u ∧ piece 58 3 line = some g ∧
      (Decimal uid u ∧ uid ≤ 4294967295) ∧ (Decimal gid g ∧ gid ≤ 4294967295)

/-- Nothing, or a numeral in range. -/
def BlankOrId (ds : Bytes) : Prop := ds = [] ∨ ∃ n, Decimal n ds ∧ n ≤ 4294967295

/-- In the first line with the name, neither id field is empty beside one that is empty or a
numeral in range. -/
def NoBlankId (name : CStr) (F : Bytes) : Prop :=
  ∀ pre line u g, First (fun line => field line = name.bytes) (segments 10 F) pre line →
    piece 58 2 line = some u → piece 58 3 line = some g → BlankOrId u → BlankOrId g →
    u ≠ [] ∧ g ≠ []

theorem blankOrId_iff {ds : Bytes} : BlankOrId ds ↔ ∃ n, identityParseUint ds = some n := by
  simp only [identityParseUint_eq_some_iff, BlankOrId]
  constructor
  · intro hds
    rcases hds with h | ⟨n, h⟩
    · exact ⟨0, Or.inl ⟨h, rfl⟩⟩
    · exact ⟨n, Or.inr h⟩
  · intro ⟨n, h⟩
    exact h.imp (fun h => h.1) (fun h => ⟨n, h⟩)

/-- A field that reads as an id and is not empty is the numeral of that id. -/
theorem decimal_of_parse {ds : Bytes} {n : Nat} (h : identityParseUint ds = some n)
    (hne : ds ≠ []) : Decimal n ds ∧ n ≤ 4294967295 :=
  (identityParseUint_eq_some_iff.mp h).resolve_left (fun hblank => hne hblank.1)

/-- **Ids are never invented** exactly when the line with the name has no empty id field that
the lookup accepts. -/
theorem identityLookupUser_ids_iff (name : CStr) (F : Bytes) (hF : F.length ≤ identityBufMax) :
    IdsWritten name F ↔ (name.length ≠ 0 → NoBlankId name F) := by
  have hlookup : ∀ ids, ReturnsOn (identityLookupUser name) F (.found ids) ↔
      name.length ≠ 0 ∧ ∃ pre line,
        First (fun line => field line = name.bytes) (segments 10 F) pre line ∧
          entryIds line = some ids := by
    intro ids
    rw [returnsOn_identityLookupUser_iff, List.take_of_length_le hF, lookupUserIn, eq_comm]
    split
    case isTrue hlen => simp [hlen]
    case isFalse hlen =>
      rw [lookupUserLines_found_iff]
      simp only [ne_eq, hlen, not_false_eq_true, true_and]
  constructor
  · intro hwritten hlen pre line u g hfirst hu hg hblanku hblankg
    obtain ⟨uid, huid⟩ := blankOrId_iff.mp hblanku
    obtain ⟨gid, hgid⟩ := blankOrId_iff.mp hblankg
    have hfound : ReturnsOn (identityLookupUser name) F (.found (uid, gid)) :=
      (hlookup _).mpr ⟨hlen, pre, line, hfirst,
        entryIds_eq_some_iff.mpr ⟨u, g, hu, hg, huid, hgid⟩⟩
    obtain ⟨pre', line', u', g', hfirst', hu', hg', hdecu, hdecg⟩ := hwritten uid gid hfound
    obtain ⟨rfl, rfl⟩ := hfirst.unique hfirst'
    obtain rfl := Option.some.inj (hu.symm.trans hu')
    obtain rfl := Option.some.inj (hg.symm.trans hg')
    exact ⟨hdecu.1.1, hdecg.1.1⟩
  · intro hfilled uid gid hfound
    obtain ⟨hlen, pre, line, hfirst, hids⟩ := (hlookup _).mp hfound
    obtain ⟨u, g, hu, hg, huid, hgid⟩ := entryIds_eq_some_iff.mp hids
    obtain ⟨hneu, hneg⟩ := hfilled hlen pre line u g hfirst hu hg
      (blankOrId_iff.mpr ⟨uid, huid⟩) (blankOrId_iff.mpr ⟨gid, hgid⟩)
    exact ⟨pre, line, u, g, hfirst, hu, hg, decimal_of_parse huid hneu, decimal_of_parse hgid hneg⟩

/-- Two users; nothing is empty that has to be a number. -/
theorem identityLookupUser_ids_two :
    IdsWritten (cstr "al")
      (utf8 "root:x:0:0::/root:/bin/sh\nal:x:1000:100::/home/al:/bin/sh\n") := by
  refine (identityLookupUser_ids_iff _ _ (by decide)).mpr fun _ => ?_
  have hfirst' : First (fun line => field line = (cstr "al").bytes)
      (segments 10 (utf8 "root:x:0:0::/root:/bin/sh\nal:x:1000:100::/home/al:/bin/sh\n"))
      [utf8 "root:x:0:0::/root:/bin/sh"] (utf8 "al:x:1000:100::/home/al:/bin/sh") :=
    ⟨⟨[], by decide⟩, by decide, by decide⟩
  intro pre line u g hfirst hu hg _ _
  obtain ⟨rfl, rfl⟩ := hfirst.unique hfirst'
  have hu' : piece 58 2 (utf8 "al:x:1000:100::/home/al:/bin/sh") = some (utf8 "1000") := by
    decide
  have hg' : piece 58 3 (utf8 "al:x:1000:100::/home/al:/bin/sh") = some (utf8 "100") := by
    decide
  obtain rfl := Option.some.inj (hu.symm.trans hu')
  obtain rfl := Option.some.inj (hg.symm.trans hg')
  exact ⟨by decide, by decide⟩

/-- **An empty uid field resolves to root.** -/
theorem identityLookupUser_invents :
    ¬ IdsWritten (cstr "al") (utf8 "al:x::100::/home/al:/bin/sh\n") := by
  intro hwritten
  have hfound : ReturnsOn (identityLookupUser (cstr "al"))
      (utf8 "al:x::100::/home/al:/bin/sh\n") (.found (0, 100)) :=
    returnsOn_identityLookupUser_iff.mpr (by decide)
  obtain ⟨pre, line, u, g, hfirst, hu, -, hdec, -⟩ := hwritten 0 100 hfound
  have hfirst' : First (fun line => field line = (cstr "al").bytes)
      (segments 10 (utf8 "al:x::100::/home/al:/bin/sh\n")) []
      (utf8 "al:x::100::/home/al:/bin/sh") :=
    ⟨⟨[], by decide⟩, by decide, by simp⟩
  obtain ⟨rfl, rfl⟩ := hfirst.unique hfirst'
  have hu' : piece 58 2 (utf8 "al:x::100::/home/al:/bin/sh") = some [] := by decide
  obtain rfl := Option.some.inj (hu.symm.trans hu')
  exact hdec.1.1 rfl

/-! ### A file that is cut -/

/-- The lines of the read buffer. -/
def passwdLines (F : Bytes) : List Bytes := segments 10 (F.take identityBufMax)

/-- The cut leaves `p` of the line `l` behind `pre`. -/
structure CutAt (F : Bytes) (pre : List Bytes) (l p : Bytes) : Prop where
  whole : ∃ post, segments 10 F = pre ++ l :: post
  left : passwdLines F = pre ++ [p]

/-- The name and the ids of `p` are those of `l`. -/
structure WholeIds (p l : Bytes) : Prop where
  name : piece 58 0 p = piece 58 0 l
  uid : piece 58 2 p = piece 58 2 l
  gid : piece 58 3 p = piece 58 3 l

/-- A lookup that takes the first line it selects, and from that line a value made of its name
and ids. -/
structure LineLookup (α : Type) where
  selects : Bytes → Prop
  value : Bytes → Option α
  run : List Bytes → Lookup α
  found_iff : ∀ lines a,
    run lines = .found a ↔ ∃ pre line, First selects lines pre line ∧ value line = some a
  ne_ioError : ∀ lines, run lines ≠ .ioError
  selects_congr : ∀ p l, WholeIds p l → (selects p ↔ selects l)
  value_congr : ∀ p l, WholeIds p l → value p = value l
  value_iff : ∀ line, value line ≠ none ↔ entryIds line ≠ none

/-- The line has the name, which is not empty. -/
def NameLine (name : CStr) (line : Bytes) : Prop := name.length ≠ 0 ∧ field line = name.bytes

theorem entryIds_congr {p l : Bytes} (h : WholeIds p l) : entryIds p = entryIds l := by
  rw [entryIds, entryIds, h.uid, h.gid]

theorem field_congr {p l : Bytes} (h : WholeIds p l) : field p = field l := Option.some.inj h.name

theorem lookupUserLines_ne_ioError {name : CStr} (lines : List Bytes) :
    lookupUserLines name lines ≠ .ioError := by
  by_cases hex : ∃ line ∈ lines, field line = name.bytes
  · obtain ⟨line, hmem, hline⟩ := hex
    obtain ⟨pre, first, hfirst⟩ :=
      exists_first (p := fun line => field line = name.bytes) hmem hline
    rw [lookupUserLines_first hfirst]
    cases entryIds first <;> simp
  · push Not at hex
    rw [lookupUserLines_noMatch hex]
    simp

theorem lookupUidLines_ne_ioError {uid : Nat} (lines : List Bytes) :
    lookupUidLines uid lines ≠ .ioError := by
  by_cases hex : ∃ line ∈ lines, UidLine uid line
  · obtain ⟨line, hmem, hline⟩ := hex
    obtain ⟨pre, first, hfirst⟩ := exists_first (p := UidLine uid) hmem hline
    rw [lookupUidLines_first hfirst]
    cases entryIds first <;> simp
  · push Not at hex
    rw [lookupUidLines_noMatch hex]
    simp

/-- The lookup by name. -/
def userLookup (name : CStr) : LineLookup (Nat × Nat) where
  selects := NameLine name
  value := entryIds
  run lines := if name.length = 0 then .notFound else lookupUserLines name lines
  found_iff lines ids := by
    by_cases hlen : name.length = 0
    · simp [hlen, NameLine, First]
    · have hname : NameLine name = fun line => field line = name.bytes := by
        funext line
        simp [NameLine, hlen]
      rw [if_neg hlen, lookupUserLines_found_iff, hname]
  ne_ioError lines := by
    split
    · simp
    · exact lookupUserLines_ne_ioError lines
  selects_congr p l h := by rw [NameLine, NameLine, field_congr h]
  value_congr _ _ := entryIds_congr
  value_iff _ := Iff.rfl

/-- The lookup by uid. -/
def uidLookup (uid : Nat) : LineLookup (CStr × Nat) where
  selects := UidLine uid
  value line := (entryIds line).map (fun ids => (CStr.read (field line), ids.2))
  run := lookupUidLines uid
  found_iff lines a := by
    obtain ⟨n, gid⟩ := a
    rw [lookupUidLines_found_iff]
    constructor
    · intro ⟨pre, line, hfirst, hids, hn⟩
      exact ⟨pre, line, hfirst, by rw [hids, hn]; rfl⟩
    · intro ⟨pre, line, hfirst, hvalue⟩
      obtain ⟨⟨uid', gid'⟩, hids, hpair⟩ := Option.map_eq_some_iff.mp hvalue
      obtain ⟨hn, rfl⟩ := Prod.mk.inj hpair
      refine ⟨pre, line, hfirst, ?_, hn.symm⟩
      obtain ⟨u, g, hu, hg, huid, hgid⟩ := entryIds_eq_some_iff.mp hids
      obtain ⟨u', g', hu', -, huid', -⟩ := hfirst.2.1
      obtain rfl := Option.some.inj (hu.symm.trans hu')
      obtain rfl := Option.some.inj (huid.symm.trans huid')
      exact hids
  ne_ioError := lookupUidLines_ne_ioError
  selects_congr p l h := by rw [UidLine, UidLine, h.uid, h.gid, field_congr h]
  value_congr p l h := by rw [entryIds_congr h, field_congr h]
  value_iff line := by simp

/-- The lookup in the buffer is as good as the one in the file: it has the same result, or
finds nothing; and the line it takes is not one whose name or ids the cut has shortened. -/
structure CutSafe {α : Type} (L : LineLookup α) (F : Bytes) : Prop where
  agrees : L.run (passwdLines F) = L.run (segments 10 F) ∨ L.run (passwdLines F) = .notFound
  unsplit : ∀ pre l p, CutAt F pre l p → First L.selects (passwdLines F) pre p →
    L.run (passwdLines F) ≠ .notFound → WholeIds p l

/-- The cut is in the gid field of the line that is selected, behind a uid that reads as an id
and digits that do (or none). -/
def GidCut (selects : Bytes → Prop) (F : Bytes) : Prop :=
  ∃ pre l p, CutAt F pre l p ∧ First selects (passwdLines F) pre p ∧ entryIds p ≠ none ∧
    piece 58 3 p ≠ piece 58 3 l

/-- What is left of a line has whole fields in front of the last. -/
theorem wholeIds_of_gid {p l : Bytes} (hp : p <+: l) (hids : entryIds p ≠ none)
    (hgid : piece 58 3 p = piece 58 3 l) : WholeIds p l := by
  obtain ⟨⟨uid, gid⟩, hsome⟩ := Option.ne_none_iff_exists'.mp hids
  obtain ⟨u, g, hu, hg, -⟩ := entryIds_eq_some_iff.mp hsome
  have hne : piece 58 3 p ≠ none := by simp [hg]
  obtain ⟨v, hv⟩ := exists_piece hu
  have hu' := (piece_of_isPrefix hp hu).2 hne
  have hn : piece 58 0 p = some (field p) := rfl
  have hn' := (piece_of_isPrefix hp hn).2 (by simp [hv])
  exact ⟨hn.trans hn'.symm, hu.trans hu'.symm, hgid⟩

/-- **A cut is safe** for a lookup exactly when it is not in the gid of the line selected. -/
theorem cutSafe_iff {α : Type} (L : LineLookup α) (F : Bytes) :
    CutSafe L F ↔ ¬ GidCut L.selects F := by
  constructor
  · intro hsafe hcutGid
    obtain ⟨pre, l, p, hcut, hfirst, hids, hgid⟩ := hcutGid
    refine hgid (hsafe.unsplit pre l p hcut hfirst ?_).gid
    obtain ⟨a, ha⟩ := Option.ne_none_iff_exists'.mp ((L.value_iff p).mpr hids)
    rw [(L.found_iff _ a).mpr ⟨pre, p, hfirst, ha⟩]
    simp
  · intro hno
    cases hr : L.run (passwdLines F) with
    | ioError => exact absurd hr (L.ne_ioError _)
    | notFound => exact ⟨Or.inr hr, fun _ _ _ _ _ h => absurd hr h⟩
    | found a =>
        obtain ⟨pre, p, hfirst, hvalue⟩ := (L.found_iff _ a).mp hr
        have hids : entryIds p ≠ none := (L.value_iff p).mp (by simp [hvalue])
        -- The line of the file in the place of the selected one has the same name and ids.
        obtain ⟨l, post, hlines, hwhole⟩ : ∃ l post, segments 10 F = pre ++ l :: post ∧
            WholeIds p l := by
          obtain ⟨post', hleft⟩ := hfirst.1
          rcases segments_take hleft with ⟨post, hsame⟩ | ⟨rfl, l, post, hsplit, hp⟩
          · exact ⟨p, post, hsame, ⟨rfl, rfl, rfl⟩⟩
          · refine ⟨l, post, hsplit, wholeIds_of_gid hp hids ?_⟩
            by_contra hgid
            exact hno ⟨pre, l, p, ⟨⟨post, hsplit⟩, hleft⟩, hfirst, hids, hgid⟩
        have hfirst' : First L.selects (segments 10 F) pre l :=
          ⟨⟨post, hlines⟩, (L.selects_congr p l hwhole).mp hfirst.2.1, hfirst.2.2⟩
        constructor
        case agrees =>
          refine Or.inl (hr.trans ?_)
          rw [eq_comm, L.found_iff]
          exact ⟨pre, l, hfirst', by rw [← L.value_congr p l hwhole, hvalue]⟩
        case unsplit =>
          intro pre' l' p' hcut hfirst'' _
          obtain ⟨rfl, rfl⟩ := hfirst.unique hfirst''
          obtain ⟨post', hlines'⟩ := hcut.whole
          have hsame := List.append_cancel_left (hlines.symm.trans hlines')
          rw [← (List.cons.inj hsame).1]
          exact hwhole

/-- The lookups that the programs make. -/
theorem returnsOn_userLookup_iff {name : CStr} {F : Bytes} {r : Lookup (Nat × Nat)} :
    ReturnsOn (identityLookupUser name) F r ↔ r = (userLookup name).run (passwdLines F) :=
  returnsOn_identityLookupUser_iff

theorem returnsOn_uidLookup_iff {uid : Nat} {F : Bytes} {r : Lookup (CStr × Nat)} :
    ReturnsOn (identityLookupUid uid) F r ↔ r = (uidLookup uid).run (passwdLines F) :=
  returnsOn_identityLookupUid_iff

/-- On a file of any length the two lookups return what they would in the whole of it, or find
nothing, and neither takes a line whose name or ids the cut has shortened. -/
structure PasswdCutSafe (F : Bytes) (name : CStr) (uid : Nat) : Prop where
  user : ∀ r, ReturnsOn (identityLookupUser name) F r →
    (r = lookupUserIn name F ∨ r = .notFound) ∧
    ∀ pre l p, CutAt F pre l p → First (NameLine name) (passwdLines F) pre p →
      r ≠ .notFound → WholeIds p l
  uid : ∀ r, ReturnsOn (identityLookupUid uid) F r →
    (r = lookupUidIn uid F ∨ r = .notFound) ∧
    ∀ pre l p, CutAt F pre l p → First (UidLine uid) (passwdLines F) pre p →
      r ≠ .notFound → WholeIds p l

/-- **A large passwd file is cut safely** exactly when the cut is in the gid of neither of the
lines that the lookups select. -/
theorem passwdLookups_cut_iff (F : Bytes) (name : CStr) (uid : Nat) :
    PasswdCutSafe F name uid ↔ ¬ GidCut (NameLine name) F ∧ ¬ GidCut (UidLine uid) F := by
  have huser : CutSafe (userLookup name) F ↔ ¬ GidCut (NameLine name) F := cutSafe_iff _ F
  have huid : CutSafe (uidLookup uid) F ↔ ¬ GidCut (UidLine uid) F := cutSafe_iff _ F
  rw [← huser, ← huid]
  constructor
  · intro hsafe
    obtain ⟨hagrees, hunsplit⟩ := hsafe.user _ (returnsOn_userLookup_iff.mpr rfl)
    obtain ⟨hagrees', hunsplit'⟩ := hsafe.uid _ (returnsOn_uidLookup_iff.mpr rfl)
    exact ⟨⟨hagrees, hunsplit⟩, ⟨hagrees', hunsplit'⟩⟩
  · intro hsafe
    obtain ⟨hbyName, hbyUid⟩ := hsafe
    constructor
    case user =>
      intro r hr
      rw [returnsOn_userLookup_iff.mp hr]
      exact ⟨hbyName.agrees, hbyName.unsplit⟩
    case uid =>
      intro r hr
      rw [returnsOn_uidLookup_iff.mp hr]
      exact ⟨hbyUid.agrees, hbyUid.unsplit⟩

/-! ### A cut through a gid -/

/-- A well-formed line: seven fields, a name that is not empty, and numerals for the ids. -/
structure WellFormedLine (line : Bytes) : Prop where
  seven : piece 58 6 line ≠ none ∧ piece 58 7 line = none
  name : field line ≠ []
  uid : ∃ u n, piece 58 2 line = some u ∧ Decimal n u
  gid : ∃ g n, piece 58 3 line = some g ∧ Decimal n g

/-- A line with a password field of `n` bytes, and `rest` from the gid on. -/
def longLine (n : Nat) (rest : Bytes) : Bytes :=
  utf8 "al" ++ 58 :: (List.replicate n 120 ++ 58 :: (utf8 "5" ++ 58 :: rest))

/-- What follows the first digit of the gid, in the file of that one line. -/
def longRest : Bytes := utf8 "00:::/bin/sh"

/-- The file of that one line. -/
def longPasswd (n : Nat) : Bytes := longLine n (49 :: longRest) ++ [10]

theorem piece_longLine (n : Nat) (rest : Bytes) :
    field (longLine n rest) = utf8 "al" ∧ piece 58 2 (longLine n rest) = some (utf8 "5") ∧
      ∀ k, piece 58 (k + 3) (longLine n rest) = piece 58 k rest := by
  have hname : (58 : UInt8) ∉ utf8 "al" := by decide
  have hpassword : (58 : UInt8) ∉ List.replicate n (120 : UInt8) := by
    simp [List.mem_replicate]
  have huid : (58 : UInt8) ∉ utf8 "5" := by decide
  refine ⟨takeWhile_ne_append hname _, ?_, fun k => ?_⟩
  · rw [longLine, piece_succ_append hname, piece_succ_append hpassword, piece_zero,
      takeWhile_ne_append huid]
  · rw [longLine, piece_succ_append hname, piece_succ_append hpassword, piece_succ_append huid]

theorem newline_notMem_longLine {n : Nat} {rest : Bytes} (h : 10 ∉ rest) :
    10 ∉ longLine n rest := by
  have hname : (10 : UInt8) ∉ utf8 "al" := by decide
  have huid : (10 : UInt8) ∉ utf8 "5" := by decide
  simp [longLine, hname, huid, h, List.mem_replicate]

/-- The file has the one line. -/
theorem segments_longPasswd (n : Nat) :
    segments 10 (longPasswd n) = [longLine n (49 :: longRest)] := by
  have h : (10 : UInt8) ∉ 49 :: longRest := by decide
  rw [longPasswd, segments_append (newline_notMem_longLine h)]
  rfl

/-- The buffer ends behind the first digit of its gid. -/
theorem passwdLines_longPasswd {n : Nat} (hn : n + 7 = identityBufMax) :
    passwdLines (longPasswd n) = [longLine n [49]] := by
  have hsplit : longPasswd n = longLine n [49] ++ (longRest ++ [10]) := by
    simp [longPasswd, longLine]
  have hname : (utf8 "al").length = 2 := by decide
  have huid : (utf8 "5").length = 1 := by decide
  have hlen : (longLine n [49]).length = identityBufMax := by
    simp only [longLine, List.length_append, List.length_cons, List.length_replicate,
      List.length_nil, hname, huid, ← hn]
    omega
  have hno : 10 ∉ longLine n [49] := newline_notMem_longLine (by simp)
  rw [passwdLines, hsplit, List.take_left' hlen, segments_of_notMem hno, if_neg]
  simp [longLine]

theorem entryIds_longLine {n gid : Nat} {rest g : Bytes} (hg : piece 58 0 rest = some g)
    (hgid : identityParseUint g = some gid) : entryIds (longLine n rest) = some (5, gid) := by
  obtain ⟨-, hu, hrest⟩ := piece_longLine n rest
  exact entryIds_eq_some_iff.mpr
    ⟨utf8 "5", g, hu, (hrest 0).trans hg, by decide, hgid⟩

/-- What the lookups find for a line whose gid the buffer ends in. -/
theorem longPasswd_found {n : Nat} (hn : n + 7 = identityBufMax) :
    ReturnsOn (identityLookupUser (cstr "al")) (longPasswd n) (.found (5, 1)) ∧
      lookupUserIn (cstr "al") (longPasswd n) = .found (5, 100) := by
  have hname : ∀ rest, NameLine (cstr "al") (longLine n rest) := by
    intro rest
    refine ⟨by decide, (piece_longLine n rest).1.trans ?_⟩
    decide
  have hgid : piece 58 0 (49 :: longRest) = some (utf8 "100") := by decide
  constructor
  · rw [returnsOn_userLookup_iff, eq_comm, (userLookup (cstr "al")).found_iff,
      passwdLines_longPasswd hn]
    exact ⟨[], longLine n [49], ⟨⟨[], rfl⟩, hname _, by simp⟩,
      entryIds_longLine rfl (by decide)⟩
  · refine ((userLookup (cstr "al")).found_iff (segments 10 (longPasswd n)) (5, 100)).mpr ?_
    rw [segments_longPasswd]
    exact ⟨[], longLine n (49 :: longRest), ⟨⟨[], rfl⟩, hname _, by simp⟩,
      entryIds_longLine hgid (by decide)⟩

theorem longPasswd_wellFormed (n : Nat) :
    ∀ line ∈ segments 10 (longPasswd n), WellFormedLine line := by
  intro line hline
  rw [segments_longPasswd, List.mem_singleton] at hline
  subst hline
  obtain ⟨hfield, hu, hrest⟩ := piece_longLine n (49 :: longRest)
  constructor
  case seven =>
    rw [hrest 3, hrest 4]
    decide
  case name =>
    rw [hfield]
    decide
  case uid => exact ⟨utf8 "5", 5, hu, by decide⟩
  case gid => exact ⟨utf8 "100", 100, (hrest 0).trans (by decide), by decide⟩

/-- **A gid cut short is accepted.** The line is well formed, with the gid 100; the buffer ends
behind the `1`, and that is the gid found. -/
theorem identityLookupUser_cut :
    (∀ line ∈ segments 10 (longPasswd 65529), WellFormedLine line) ∧
      ¬ PasswdCutSafe (longPasswd 65529) (cstr "al") 5 := by
  refine ⟨longPasswd_wellFormed _, fun hsafe => ?_⟩
  obtain ⟨hbuffer, hfile⟩ := longPasswd_found (n := 65529) rfl
  rcases (hsafe.user _ hbuffer).1 with h | h
  · rw [hfile] at h
    simp at h
  · simp at h

end Shakti
