import Shakti.Passwd

/-!
# Shakti.TargetFields

Where HOME and SHELL come from.

`_target_home` and `_target_shell` look for the start of a line that reads the name and a colon,
and then count colons, to the end of the buffer if need be (`afterColons`). They differ in the
number of colons, in what ends the copy, and in the fallback (`PasswdField`).

* `PasswdField.Own` — the text returned is the field of the first line with the name, or the
  fallback, and nothing outside that line is copied.
* `PasswdField.Whole` — what this takes: the line has the field, and the buffer has all of it.
* `targetFields_iff` — the two are the same.
-/

namespace Shakti

open Effects.Prog FirstMatch Records Scan

/-! ### The two fields -/

/-- A field as it is copied: from behind so many colons, as long as the bytes stay in it; or a
fallback, which is some text. -/
structure PasswdField where
  colons : Nat
  stays : UInt8 → Bool
  fallback : CStr → CStr
  colons_pos : 0 < colons
  stays_newline : stays 10 = false
  fallback_ne : ∀ user, (fallback user).bytes ≠ []

/-- The sixth field, for HOME. -/
def homeField : PasswdField where
  colons := 5
  stays c := c != 58 && c != 10
  fallback user := cstr "/home/" ++ user
  colons_pos := by decide
  stays_newline := rfl
  fallback_ne user := by
    rw [CStr.append_bytes]
    exact List.append_ne_nil_of_left_ne_nil (by decide) _

/-- The seventh field, for SHELL: it is copied up to the end of the line. -/
def shellField : PasswdField where
  colons := 6
  stays := (· != 10)
  fallback _ := cstr "/bin/sh"
  colons_pos := by decide
  stays_newline := rfl
  fallback_ne _ := by decide

namespace PasswdField

/-- The buffer from the field on, when some line in it starts with the name. -/
def source (c : PasswdField) (user : CStr) (buf : Bytes) : Option Bytes :=
  (passwdEntry user (lineSuffixes 10 buf)).map (afterColons c.colons)

/-- The text that is returned. -/
def result (c : PasswdField) (user : CStr) (buf : Bytes) : CStr :=
  match c.source user buf with
  | none => c.fallback user
  | some r => CStr.read (r.takeWhile c.stays)

/-- What the copy takes of a line. -/
def kept (c : PasswdField) (line : Bytes) : Bytes :=
  ((fromPiece 58 c.colons line).getD []).takeWhile c.stays

end PasswdField

theorem returnsOn_targetHome_iff {user : CStr} {F : Bytes} {r : CStr} (hroot : user ≠ cstr "root") :
    ReturnsOn (targetHome user) F r ↔ r = homeField.result user (F.take identityBufMax) := by
  have hcap : identityBufMax = 65536 := rfl
  rw [targetHome, if_neg hroot, PasswdField.result, PasswdField.source, hcap]
  refine returnsOn_read_iff.trans ?_
  rw [Option.getD_some]
  cases passwdEntry user (lineSuffixes 10 (F.take 65536)) with
  | none => exact returnsOn_pure_iff
  | some s => exact returnsOn_pure_iff

theorem returnsOn_targetShell_iff {user : CStr} {F : Bytes} {r : CStr} :
    ReturnsOn (targetShell user) F r ↔ r = shellField.result user (F.take identityBufMax) := by
  have hcap : identityBufMax = 65536 := rfl
  rw [targetShell, PasswdField.result, PasswdField.source, hcap]
  refine returnsOn_read_iff.trans ?_
  rw [Option.getD_some]
  cases passwdEntry user (lineSuffixes 10 (F.take 65536)) with
  | none => exact returnsOn_pure_iff
  | some s => exact returnsOn_pure_iff

/-! ### The line that is taken -/

/-- The text starts with the name and a colon. -/
def StartsWith (user : CStr) (s : Bytes) : Prop := user.bytes ++ [58] <+: s

/-- The line's first field is the name. -/
def OwnLine (user : CStr) (line : Bytes) : Prop := field line = user.bytes

section Entry

variable {user : CStr} {s line : Bytes}

theorem passwdEntry_eq_none_iff {ss : List Bytes} :
    passwdEntry user ss = none ↔ ∀ s ∈ ss, ¬ StartsWith user s := by
  induction ss with
  | nil => simp [passwdEntry]
  | cons t ss ih =>
      rw [passwdEntry, List.forall_mem_cons, ← ih]
      split
      case isTrue h =>
        exact iff_of_false (by simp) (fun hno => hno.1 (List.isPrefixOf_iff_prefix.mp h))
      case isFalse h =>
        exact (and_iff_right (fun h' => h (List.isPrefixOf_iff_prefix.mpr h'))).symm

theorem passwdEntry_eq_some {ss : List Bytes} (h : passwdEntry user ss = some s) :
    ∃ before, First (StartsWith user) ss before s := by
  induction ss with
  | nil => simp [passwdEntry] at h
  | cons t ss ih =>
      rw [passwdEntry] at h
      split at h
      case isTrue hstarts =>
        obtain rfl := Option.some.inj h
        exact ⟨[], ⟨ss, rfl⟩, List.isPrefixOf_iff_prefix.mp hstarts, by simp⟩
      case isFalse hstarts =>
        obtain ⟨before, hfirst⟩ := ih h
        exact ⟨t :: before,
          hfirst.cons (fun h' => hstarts (List.isPrefixOf_iff_prefix.mpr h'))⟩

theorem OwnLine.noColon (h : OwnLine user line) : 58 ∉ user.bytes := by
  have hfield : piece 58 0 line = some (field line) := rfl
  rw [← h]
  exact notMem_piece hfield

/-- A line that starts with the name and a colon has the name. -/
theorem StartsWith.own (h : StartsWith user line) (hcolon : 58 ∉ user.bytes) :
    OwnLine user line := by
  obtain ⟨t, rfl⟩ := h
  rw [OwnLine, field, List.append_assoc]
  exact takeWhile_ne_append hcolon t

/-- A line with the name and a second field starts with the name and a colon. -/
theorem OwnLine.startsWith (h : OwnLine user line) (hcolon : 58 ∈ line) :
    StartsWith user line := by
  obtain ⟨a, b, rfl, ha⟩ := List.eq_append_cons_of_mem hcolon
  rw [OwnLine, field, takeWhile_ne_append ha] at h
  refine ⟨b, ?_⟩
  rw [← h, List.append_assoc]
  rfl

/-- The suffix that is taken starts at the first line that starts with the name. -/
theorem entry_place {buf : Bytes} (hline : 10 ∉ user.bytes)
    (h : passwdEntry user (lineSuffixes 10 buf) = some s) :
    ∃ pre p post, segments 10 buf = pre ++ p :: post ∧ StartsWith user p ∧
      (∀ q ∈ pre, ¬ StartsWith user q) ∧ s = buf.drop (span pre) := by
  obtain ⟨before, ⟨behind, hbefore⟩, hstarts, hno⟩ := passwdEntry_eq_some h
  obtain ⟨pre, p, post, hseg, hcount, -⟩ := exists_segment hbefore
  obtain ⟨before', behind', hbefore', hcount', hpre, -, hheads⟩ := lineSuffixes_split hseg
  rw [hbefore] at hbefore'
  obtain ⟨rfl, htail⟩ := List.append_inj hbefore' (by omega)
  obtain ⟨rfl, -⟩ := List.cons.inj htail
  have hsep : 10 ∉ user.bytes ++ [58] := by simp [hline]
  refine ⟨pre, p, post, hseg, (hheads.isPrefix_iff hsep).mp hstarts, ?_, rfl⟩
  intro q hq hq'
  obtain ⟨rest, hmem⟩ := hpre q hq
  exact hno _ hmem (hq'.trans (List.prefix_append _ _))

/-- When no suffix is taken, no line starts with the name. -/
theorem entry_none {buf : Bytes} (h : passwdEntry user (lineSuffixes 10 buf) = none) :
    ∀ p ∈ segments 10 buf, ¬ StartsWith user p := by
  intro p hp hstarts
  obtain ⟨pre, post, hseg⟩ := List.append_of_mem hp
  obtain ⟨before, behind, hbefore, -, -, -, hheads⟩ := lineSuffixes_split hseg
  refine passwdEntry_eq_none_iff.mp h (buf.drop (span pre)) (by simp [hbefore]) ?_
  rcases hheads.2 with heq | ⟨rest, heq⟩
  · rwa [heq]
  · rw [heq]
    exact hstarts.trans (List.prefix_append _ _)

end Entry

/-! ### What is copied -/

theorem afterColons_eq (k : Nat) (s : Bytes) : afterColons k s = (fromPiece 58 k s).getD [] := by
  induction k generalizing s with
  | zero => rfl
  | succ k ih =>
      rw [afterColons, fromPiece]
      cases cut 58 s with
      | none => rfl
      | some p => exact ih p.2

theorem afterColons_length_le (k : Nat) (s : Bytes) : (afterColons k s).length ≤ s.length := by
  rw [afterColons_eq]
  cases h : fromPiece 58 k s with
  | none => exact Nat.zero_le _
  | some w => exact fromPiece_length_le h

section Copy

variable {c : PasswdField} {d p w : Bytes}

/-- Of a line that has the field, the copy takes what stands in the line. -/
theorem copied_of_some (hd : Heads 10 p d) (hw : fromPiece 58 c.colons p = some w) :
    (afterColons c.colons d).takeWhile c.stays = c.kept p ∧
      p.length + (afterColons c.colons d).length = d.length + w.length := by
  rw [afterColons_eq, PasswdField.kept, hw, Option.getD_some]
  rcases hd.2 with rfl | ⟨rest, rfl⟩
  · rw [hw]
    exact ⟨rfl, rfl⟩
  · rw [fromPiece_append hw, Option.getD_some]
    refine ⟨?_, by simp; omega⟩
    rw [List.takeWhile_append, List.takeWhile_cons_of_neg (by simp [c.stays_newline]),
      List.append_nil]
    split
    case isTrue hall => exact ((List.takeWhile_prefix _).eq_of_length hall).symm
    case isFalse => rfl

/-- Of a line that does not, it takes nothing, or what stands behind the line. -/
theorem copied_of_none (hd : Heads 10 p d) (hno : fromPiece 58 c.colons p = none) :
    afterColons c.colons d = [] ∨ (afterColons c.colons d).length + p.length < d.length := by
  rw [afterColons_eq]
  rcases hd.2 with rfl | ⟨rest, rfl⟩
  · rw [hno]
    exact Or.inl rfl
  · cases hw : fromPiece 58 c.colons (p ++ 10 :: rest) with
    | none => exact Or.inl rfl
    | some w =>
        have hlt := fromPiece_length_lt hno hw
        rw [Option.getD_some, List.length_append]
        omega

end Copy

/-! ### The line in the file -/

/-- The suffix `s` of the buffer that is taken starts at the line `p`, behind `pre`; in the file,
the line there is `l`. -/
structure EntryAt (user : CStr) (F s : Bytes) (pre : List Bytes) (p l : Bytes) : Prop where
  buffer : ∃ post, passwdLines F = pre ++ p :: post
  file : ∃ post, segments 10 F = pre ++ l :: post
  starts : StartsWith user p
  earlier : ∀ q ∈ pre, ¬ StartsWith user q
  shortened : p <+: l
  heads : Heads 10 p s
  cut : s = p ∨ p = l
  length : span pre + s.length = (F.take identityBufMax).length

section Place

variable {user : CStr} {F s p l : Bytes} {pre : List Bytes} {c : PasswdField}

/-- A line of the buffer and the line of the file in its place. -/
theorem passwdLines_place {post : List Bytes} (h : passwdLines F = pre ++ p :: post) :
    ∃ l, (∃ post', segments 10 F = pre ++ l :: post') ∧ p <+: l ∧
      ((F.take identityBufMax).drop (span pre) = p ∨ p = l) ∧ (post ≠ [] → p = l) := by
  obtain ⟨-, -, -, -, -, -, hp⟩ := lineSuffixes_split h
  obtain ⟨l, post', hfile, hlast⟩ : ∃ l post', segments 10 F = pre ++ l :: post' ∧
      (post ≠ [] → p = l) := by
    rcases segments_take h with ⟨post', hwhole⟩ | ⟨hpost, l, post', hsplit, -⟩
    · exact ⟨p, post', hwhole, fun _ => rfl⟩
    · exact ⟨l, post', hsplit, fun hne => absurd hpost hne⟩
  obtain ⟨-, -, -, -, -, -, hl⟩ := lineSuffixes_split hfile
  obtain ⟨hshort, hcut⟩ := hp.take hl ((List.take_prefix _ F).drop _)
  exact ⟨l, ⟨post', hfile⟩, hshort, hcut, hlast⟩

theorem exists_entryAt (hline : 10 ∉ user.bytes)
    (h : passwdEntry user (lineSuffixes 10 (F.take identityBufMax)) = some s) :
    ∃ pre p l, EntryAt user F s pre p l := by
  obtain ⟨pre, p, post, hseg, hstarts, hearlier, rfl⟩ := entry_place hline h
  obtain ⟨-, -, -, -, -, hle, hheads⟩ := lineSuffixes_split hseg
  obtain ⟨l, hfile, hshort, hcut, -⟩ := passwdLines_place hseg
  refine ⟨pre, p, l, ⟨post, hseg⟩, hfile, hstarts, hearlier, hshort, hheads, hcut, ?_⟩
  rw [List.length_drop]
  omega

/-- The first line with the name is the one taken, or stands in front of it and is nothing but
the name. -/
theorem EntryAt.first (h : EntryAt user F s pre p l) {pre' : List Bytes} {l' : Bytes}
    (hfirst : First (OwnLine user) (segments 10 F) pre' l') :
    pre' = pre ∧ l' = l ∨ 58 ∉ l' ∧ ∃ mid, pre = pre' ++ l' :: mid := by
  obtain ⟨post, hfile⟩ := h.file
  have hstarts : StartsWith user l := h.starts.trans h.shortened
  have hown : OwnLine user l := hstarts.own hfirst.2.1.noColon
  rcases hfirst.le hfile hown with hsame | ⟨mid, rfl⟩
  · exact Or.inl hsame
  · refine Or.inr ⟨fun hcolon => ?_, mid, rfl⟩
    exact h.earlier l' (by simp) (hfirst.2.1.startsWith hcolon)

/-- A line that has the field of the file's line, or is cut in front of it. -/
theorem EntryAt.copied (h : EntryAt user F s pre p l) {v : Bytes}
    (hv : piece 58 c.colons l = some v) :
    (afterColons c.colons s).takeWhile c.stays = c.kept p := by
  cases hp : fromPiece 58 c.colons p with
  | some w => exact (copied_of_some h.heads hp).1
  | none =>
      have hne : p ≠ l := by
        rintro rfl
        rw [piece_eq_fromPiece, hp] at hv
        contradiction
      rw [h.cut.resolve_right hne, afterColons_eq, PasswdField.kept, hp]

/-- Nothing of a line without the field is copied. -/
theorem EntryAt.outside (h : EntryAt user F s pre p l) {pre' : List Bytes} {l' : Bytes}
    {start : Nat} (hfirst : First (OwnLine user) (segments 10 F) pre' l')
    (hnone : piece 58 c.colons l' = none)
    (hstart : (F.take identityBufMax).length = start + (afterColons c.colons s).length)
    (hne : (afterColons c.colons s).takeWhile c.stays ≠ []) :
    span pre' + l'.length ≤ start := by
  have hlen := h.length
  rcases h.first hfirst with ⟨rfl, rfl⟩ | ⟨-, mid, rfl⟩
  · have hno : fromPiece 58 c.colons p = none := by
      rw [Option.eq_none_iff_forall_ne_some]
      intro w hw
      obtain ⟨t, ht⟩ := h.shortened
      rw [piece_eq_fromPiece, ← ht, fromPiece_append hw] at hnone
      contradiction
    rcases copied_of_none h.heads hno with hnil | hlt
    · rw [hnil] at hne
      exact absurd rfl hne
    · rcases h.cut with hs | rfl
      · rw [hs] at hlt
        omega
      · omega
  · have hle := afterColons_length_le c.colons s
    rw [span_append, span] at hlen
    omega

end Place

/-! ### The field of the own line -/

namespace PasswdField

/-- The text is the field of the first line with the name, or the fallback when there is no such
line or it has no such field; and what is copied stands in that line. -/
structure Own (c : PasswdField) (user : CStr) (F : Bytes) (text : CStr) : Prop where
  field : ∀ pre l v, First (OwnLine user) (segments 10 F) pre l →
    piece 58 c.colons l = some v → text = CStr.read v
  fallback : (∀ pre l, First (OwnLine user) (segments 10 F) pre l →
    piece 58 c.colons l = none) → text = c.fallback user
  inside : ∀ r, c.source user (F.take identityBufMax) = some r → r.takeWhile c.stays ≠ [] →
    ∃ pre l start, First (OwnLine user) (segments 10 F) pre l ∧
      (F.take identityBufMax).length = start + r.length ∧ span pre ≤ start ∧
      start + (r.takeWhile c.stays).length ≤ span pre + l.length

/-- Where a line of the buffer starts with the name, the first line with the name has the field,
and what the copy takes of its part in the buffer reads as the field. Where none does, the
field reads as the fallback, if there is one behind the buffer. -/
structure Whole (c : PasswdField) (user : CStr) (F : Bytes) : Prop where
  inBuffer : (∃ s ∈ lineSuffixes 10 (F.take identityBufMax), StartsWith user s) →
    ∃ pre l p v, First (OwnLine user) (segments 10 F) pre l ∧
      First (OwnLine user) (passwdLines F) pre p ∧ piece 58 c.colons l = some v ∧
      CStr.read (c.kept p) = CStr.read v
  beyond : (∀ s ∈ lineSuffixes 10 (F.take identityBufMax), ¬ StartsWith user s) →
    ∀ pre l v, First (OwnLine user) (segments 10 F) pre l →
      piece 58 c.colons l = some v → CStr.read v = c.fallback user

variable {c : PasswdField} {user : CStr} {F s : Bytes}

theorem source_of_some (h : passwdEntry user (lineSuffixes 10 (F.take identityBufMax)) = some s) :
    c.source user (F.take identityBufMax) = some (afterColons c.colons s) := by
  rw [source, h, Option.map_some]

theorem result_of_some (h : passwdEntry user (lineSuffixes 10 (F.take identityBufMax)) = some s) :
    c.result user (F.take identityBufMax)
      = CStr.read ((afterColons c.colons s).takeWhile c.stays) := by
  rw [result, source_of_some h]

theorem result_of_none (h : passwdEntry user (lineSuffixes 10 (F.take identityBufMax)) = none) :
    c.result user (F.take identityBufMax) = c.fallback user := by
  rw [result, source, h, Option.map_none]

/-- A file's lines have no newline, and neither has a name that one of them has. -/
theorem noNewline_of_first {pre : List Bytes} {l : Bytes}
    (h : First (OwnLine user) (segments 10 F) pre l) : 10 ∉ user.bytes := by
  obtain ⟨⟨post, hfile⟩, hown, -⟩ := h
  have hmem : l ∈ segments 10 F := by simp [hfile]
  rw [← hown]
  exact fun hc => notMem_of_mem_segments hmem (List.takeWhile_subset _ hc)

/-- When a line is taken, the text is right only if the first line with the name has the field. -/
theorem exists_field (hown : c.Own user F (c.result user (F.take identityBufMax)))
    (h : passwdEntry user (lineSuffixes 10 (F.take identityBufMax)) = some s) :
    ∃ pre l v, First (OwnLine user) (segments 10 F) pre l ∧ piece 58 c.colons l = some v := by
  by_contra hno
  have hnone : ∀ pre l, First (OwnLine user) (segments 10 F) pre l →
      piece 58 c.colons l = none := by
    intro pre l hfirst
    rw [Option.eq_none_iff_forall_ne_some]
    exact fun v hv => hno ⟨pre, l, v, hfirst, hv⟩
  have htext := hown.fallback hnone
  rw [result_of_some h] at htext
  have hne : (afterColons c.colons s).takeWhile c.stays ≠ [] := by
    intro hnil
    rw [hnil] at htext
    exact c.fallback_ne user (congrArg CStr.bytes htext).symm
  obtain ⟨pre, l, start, hfirst, hstart, -, hstop⟩ :=
    hown.inside _ (source_of_some h) hne
  obtain ⟨pre', p, l', hentry⟩ := exists_entryAt (noNewline_of_first hfirst) h
  have hout := hentry.outside hfirst (hnone pre l hfirst) hstart hne
  have hpos := List.length_pos_iff.mpr hne
  omega

theorem colon_of_field {l v : Bytes} (hv : piece 58 c.colons l = some v) : 58 ∈ l := by
  obtain ⟨k, hk⟩ := Nat.exists_eq_succ_of_ne_zero c.colons_pos.ne'
  rw [hk] at hv
  exact mem_of_piece hv

/-- The line taken is the first with the name, when that has the field. -/
theorem entry_of_first (h : passwdEntry user (lineSuffixes 10 (F.take identityBufMax)) = some s)
    {pre : List Bytes} {l v : Bytes} (hfirst : First (OwnLine user) (segments 10 F) pre l)
    (hv : piece 58 c.colons l = some v) :
    ∃ p, EntryAt user F s pre p l ∧ First (OwnLine user) (passwdLines F) pre p := by
  obtain ⟨pre', p, l', hentry⟩ := exists_entryAt (noNewline_of_first hfirst) h
  rcases hentry.first hfirst with ⟨rfl, rfl⟩ | ⟨hno, -⟩
  · exact ⟨p, hentry, hentry.buffer, hentry.starts.own hfirst.2.1.noColon, hfirst.2.2⟩
  · exact absurd (colon_of_field hv) hno

theorem whole_of_own (hown : c.Own user F (c.result user (F.take identityBufMax))) :
    c.Whole user F := by
  constructor
  case inBuffer =>
    intro hstarts
    cases h : passwdEntry user (lineSuffixes 10 (F.take identityBufMax)) with
    | none =>
        obtain ⟨s, hs, hstart⟩ := hstarts
        exact absurd hstart (passwdEntry_eq_none_iff.mp h s hs)
    | some s =>
        obtain ⟨pre, l, v, hfirst, hv⟩ := exists_field hown h
        obtain ⟨p, hentry, hbuffer⟩ := entry_of_first h hfirst hv
        refine ⟨pre, l, p, v, hfirst, hbuffer, hv, ?_⟩
        rw [← hentry.copied hv, ← result_of_some h, hown.field pre l v hfirst hv]
  case beyond =>
    intro hno pre l v hfirst hv
    rw [← hown.field pre l v hfirst hv, result_of_none (passwdEntry_eq_none_iff.mpr hno)]

theorem own_of_whole (h : c.Whole user F) :
    c.Own user F (c.result user (F.take identityBufMax)) := by
  cases hsuffix : passwdEntry user (lineSuffixes 10 (F.take identityBufMax)) with
  | none =>
      -- No line starts with the name: every part speaks of the fallback.
      rw [result_of_none hsuffix]
      constructor
      case field =>
        intro pre l v hfirst hv
        exact (h.beyond (passwdEntry_eq_none_iff.mp hsuffix) pre l v hfirst hv).symm
      case fallback => exact fun _ => rfl
      case inside =>
        intro r hr
        rw [source, hsuffix] at hr
        contradiction
  | some s =>
      -- The line found in the buffer is the first one of the file, cut at most at its end.
      obtain ⟨before, ⟨⟨behind, hsplit⟩, hstarts, -⟩⟩ := passwdEntry_eq_some hsuffix
      obtain ⟨pre, l, p, v, hfile, hbuffer, hv, hread⟩ :=
        h.inBuffer ⟨s, by simp [hsplit], hstarts⟩
      obtain ⟨p', hentry, hbuffer'⟩ := entry_of_first hsuffix hfile hv
      obtain ⟨-, rfl⟩ := hbuffer.unique hbuffer'
      have hkept := hentry.copied hv
      rw [result_of_some hsuffix, hkept, hread]
      constructor
      case field =>
        intro pre' l' v' hfirst hv'
        obtain ⟨rfl, rfl⟩ := hfile.unique hfirst
        rw [Option.some.inj (hv.symm.trans hv')]
      case fallback =>
        intro hnone
        rw [hnone pre l hfile] at hv
        contradiction
      case inside =>
        intro r hr hne
        obtain rfl := Option.some.inj ((source_of_some hsuffix).symm.trans hr)
        rw [hkept] at hne ⊢
        cases hw : fromPiece 58 c.colons p with
        | none =>
            rw [kept, hw] at hne
            exact absurd rfl hne
        | some w =>
            obtain ⟨-, hlen⟩ := copied_of_some hentry.heads hw
            have hbuf := hentry.length
            have hw' := fromPiece_length_le hw
            have hshort := hentry.shortened.length_le
            have hle : (c.kept p).length ≤ w.length := by
              rw [kept, hw]
              exact (List.takeWhile_prefix _).length_le
            exact ⟨pre, l, span pre + (p.length - w.length), hfile, by omega, by omega, by omega⟩

/-- **The field is right** exactly when the line has it and the buffer has all of it. -/
theorem own_iff : c.Own user F (c.result user (F.take identityBufMax)) ↔ c.Whole user F :=
  ⟨whole_of_own, own_of_whole⟩

/-- In a file that fits the buffer, a line with the field, of which the copy takes no more, is
enough. -/
theorem whole_of_fits (hF : F.length ≤ identityBufMax) {pre : List Bytes} {l : Bytes}
    (hfirst : First (OwnLine user) (segments 10 F) pre l)
    (hv : piece 58 c.colons l = some (c.kept l)) : c.Whole user F := by
  have hbuffer : passwdLines F = segments 10 F := by
    rw [passwdLines, List.take_of_length_le hF]
  constructor
  case inBuffer => exact fun _ => ⟨pre, l, l, c.kept l, hfirst, hbuffer ▸ hfirst, hv, rfl⟩
  case beyond =>
    intro hno
    obtain ⟨⟨post, hfile⟩, hown, -⟩ := hfirst
    have hmem : l ∈ passwdLines F := by simp [hbuffer, hfile]
    have hstarts := hown.startsWith (colon_of_field hv)
    exact absurd hstarts (entry_none (passwdEntry_eq_none_iff.mpr hno) l hmem)

end PasswdField

/-! ### HOME and SHELL -/

/-- HOME and SHELL are the fields of the first line with the name; and where the lookup by name
finds ids, it has them from that line. -/
structure TargetFieldsOwn (user : CStr) (F : Bytes) : Prop where
  home : ∀ text, ReturnsOn (targetHome user) F text → homeField.Own user F text
  shell : ∀ text, ReturnsOn (targetShell user) F text → shellField.Own user F text
  ids : ∀ ids, ReturnsOn (identityLookupUser user) F (.found ids) →
    ∃ pre l p, First (OwnLine user) (segments 10 F) pre l ∧
      First (OwnLine user) (passwdLines F) pre p ∧ p <+: l ∧ entryIds p = some ids

/-- The lookup by name takes its ids from what the buffer has of the first line with the name. -/
theorem identityLookupUser_own {user : CStr} {F : Bytes} {ids : Nat × Nat}
    (h : ReturnsOn (identityLookupUser user) F (.found ids)) :
    ∃ pre l p, First (OwnLine user) (segments 10 F) pre l ∧
      First (OwnLine user) (passwdLines F) pre p ∧ p <+: l ∧ entryIds p = some ids := by
  rw [returnsOn_identityLookupUser_iff, eq_comm, lookupUserIn] at h
  split at h
  case isTrue => contradiction
  case isFalse =>
    obtain ⟨pre, p, hbuffer, hids⟩ := lookupUserLines_found_iff.mp h
    obtain ⟨⟨post, hlines⟩, hown, hpre⟩ := hbuffer
    obtain ⟨l, hfile, hshort, -⟩ := passwdLines_place hlines
    refine ⟨pre, l, p, ⟨hfile, ?_, hpre⟩, ⟨⟨post, hlines⟩, hown, hpre⟩, hshort, hids⟩
    -- Ids stand behind the name, so that the name is whole.
    obtain ⟨uid, gid⟩ := ids
    obtain ⟨u, -, hu, -⟩ := entryIds_eq_some_iff.mp hids
    obtain ⟨v, hv⟩ := exists_piece hu
    have hname : piece 58 0 p = some (field p) := rfl
    have hwhole := (piece_of_isPrefix hshort hname).2 (by simp [hv])
    rw [OwnLine, ← hown]
    exact Option.some.inj hwhole

/-- **HOME and SHELL come from the user's own line** exactly when the line has both fields, the
shell last, and the buffer has all of them; or when there is no such line and no field to miss. -/
theorem targetFields_iff {user : CStr} (F : Bytes) (hroot : user ≠ cstr "root") :
    TargetFieldsOwn user F ↔ homeField.Whole user F ∧ shellField.Whole user F := by
  rw [← PasswdField.own_iff, ← PasswdField.own_iff]
  constructor
  · intro h
    exact ⟨h.home _ ((returnsOn_targetHome_iff hroot).mpr rfl),
      h.shell _ (returnsOn_targetShell_iff.mpr rfl)⟩
  · intro h
    obtain ⟨hhome, hshell⟩ := h
    constructor
    case home =>
      intro text htext
      rwa [(returnsOn_targetHome_iff hroot).mp htext]
    case shell =>
      intro text htext
      rwa [returnsOn_targetShell_iff.mp htext]
    case ids => exact fun ids => identityLookupUser_own

/-- Behind a user whose name starts with this one, on a last line without a newline. -/
theorem targetFields_last :
    TargetFieldsOwn (cstr "al")
      (utf8 "ali:x:6:6::/home/ali:/bin/sh\nal:x:5:5:Al:/srv/al:/bin/zsh") := by
  have hfirst : First (OwnLine (cstr "al"))
      (segments 10 (utf8 "ali:x:6:6::/home/ali:/bin/sh\nal:x:5:5:Al:/srv/al:/bin/zsh"))
      [utf8 "ali:x:6:6::/home/ali:/bin/sh"] (utf8 "al:x:5:5:Al:/srv/al:/bin/zsh") := by
    refine ⟨⟨[], by decide⟩, by unfold OwnLine; decide, ?_⟩
    intro q hq
    rw [List.mem_singleton.mp hq, OwnLine]
    decide
  exact (targetFields_iff _ (by decide)).mpr
    ⟨PasswdField.whole_of_fits (by decide) hfirst (by decide),
      PasswdField.whole_of_fits (by decide) hfirst (by decide)⟩

/-- **HOME from the next line.** The line of al ends in front of its home field, and the count of
colons goes on in the line of bo. -/
theorem targetHome_nextLine :
    ¬ TargetFieldsOwn (cstr "al")
      (utf8 "al:x:5:5:Al\nbo:x:6:6:Bo:/home/bo:/bin/bash\n") := by
  intro h
  have hresult : homeField.result (cstr "al")
      ((utf8 "al:x:5:5:Al\nbo:x:6:6:Bo:/home/bo:/bin/bash\n").take identityBufMax)
      = cstr "x" := by decide
  have hreturns := (returnsOn_targetHome_iff (by decide)).mpr hresult.symm
  have hshort : ∀ line ∈ segments 10 (utf8 "al:x:5:5:Al\nbo:x:6:6:Bo:/home/bo:/bin/bash\n"),
      field line = (cstr "al").bytes → piece 58 5 line = none := by decide
  have htext := (h.home _ hreturns).fallback (by
    intro pre l hfirst
    obtain ⟨⟨post, hlines⟩, hown, -⟩ := hfirst
    exact hshort l (by simp [hlines]) hown)
  have hne : cstr "x" ≠ homeField.fallback (cstr "al") := by decide
  exact hne htext

end Shakti
