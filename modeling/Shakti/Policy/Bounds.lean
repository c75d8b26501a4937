import Shakti.Policy.Checked
import Shakti.Policy.Locality

/-!
# Shakti.Policy.Bounds

`parse_policy` and its helpers end and stay in bounds, and compute what the parser by
suffixes says.

A position of the source stands for the suffix it starts (`Spans`), so each loop is
followed along the list that the function by suffixes takes apart: a turn either leaves
the loop with its result or goes on with a shorter list.
-/

namespace Shakti
namespace Checked

open Memory

/-! ### Strings -/

theorem buffer_eq (buf : Bytes) (buflen : Nat) : buffer buf buflen = ((buf.take buflen)[·]?) := by
  funext i
  rw [buffer, List.getElem?_take]

theorem chars_eq (s : CStr) : chars s = ((s.bytes ++ [0])[·]?) := rfl

/-- `x` is what a string holds from position `i` on. -/
abbrev Rest (s : CStr) (i : Nat) (x : Bytes) : Prop := Spans (s.bytes ++ [0]) i s.length x

theorem rest_zero (s : CStr) : Rest s 0 s.bytes :=
  ⟨List.prefix_append _ _, (Nat.zero_add _).symm⟩

/-- At the end of a string stands its terminator. -/
theorem Rest.chars_nil {s : CStr} {i : Nat} (h : Rest s i []) : chars s i = some 0 := by
  have hi : i = s.bytes.length := by simpa [CStr.length] using h.stop_eq.symm
  rw [chars, hi]
  simp

theorem Rest.chars_cons {s : CStr} {i : Nat} {c : UInt8} {x : Bytes}
    (h : Rest s i (c :: x)) : chars s i = some c := h.head

theorem strlen_eq {s : CStr} {fuel : Nat} (hfuel : s.length < fuel) :
    strlen fuel s = some s.length := by
  refine run_eq (fun n i b =>
    ∃ x, x.length = n ∧ Rest s i x ∧ (0 : UInt8) ∉ x ∧ b = s.length)
    ?_ ⟨s.bytes, rfl, rest_zero s, s.noNul, rfl⟩ hfuel
  rintro n i b ⟨x, rfl, h, h0, rfl⟩
  cases x with
  | nil =>
      left
      simpa [h.chars_nil] using h.stop_eq.symm
  | cons c x =>
      rw [List.mem_cons, not_or] at h0
      refine Or.inr ⟨x.length, i + 1, by simp, ?_, x, rfl, h.tail, h0.2, rfl⟩
      simp [h.chars_cons, Ne.symm h0.1]

theorem streq_eq {a b : CStr} {fuel : Nat} (hfuel : a.length < fuel) :
    streq fuel a b = some (decide (a = b)) := by
  have hstart : decide (a = b) = decide (a.bytes = b.bytes) :=
    decide_eq_decide.mpr ⟨congrArg CStr.bytes, CStr.ext⟩
  refine run_eq (fun n i r => ∃ x y, x.length = n ∧ Rest a i x ∧ Rest b i y ∧
      (0 : UInt8) ∉ x ∧ (0 : UInt8) ∉ y ∧ r = decide (x = y))
    ?_ ⟨a.bytes, b.bytes, rfl, rest_zero a, rest_zero b, a.noNul, b.noNul, hstart⟩ hfuel
  rintro n i r ⟨x, y, rfl, hx, hy, hx0, hy0, rfl⟩
  cases x with
  | nil =>
      left
      cases y with
      | nil => simp [streqTurn, hx.chars_nil, hy.chars_nil]
      | cons d y =>
          rw [List.mem_cons, not_or] at hy0
          simp [streqTurn, hx.chars_nil, hy.chars_cons, hy0.1]
  | cons c x =>
      rw [List.mem_cons, not_or] at hx0
      cases y with
      | nil =>
          left
          simp [streqTurn, hx.chars_cons, hy.chars_nil, Ne.symm hx0.1]
      | cons d y =>
          rw [List.mem_cons, not_or] at hy0
          by_cases hcd : c = d
          · subst hcd
            refine Or.inr ⟨x.length, i + 1, by simp, ?_, x, y, rfl, hx.tail, hy.tail, hx0.2,
              hy0.2, by simp⟩
            simp [streqTurn, hx.chars_cons, hy.chars_cons, Ne.symm hx0.1]
          · left
            simp [streqTurn, hx.chars_cons, hy.chars_cons, hcd]

theorem textOf_eq (x : Bytes) (rest : Block UInt8) :
    textOf (x.map some ++ some 0 :: rest) = some (x.takeWhile (· != 0)) := by
  induction x with
  | nil => rfl
  | cons c x ih =>
      by_cases hc : c = 0
      · simp [textOf, hc]
      · simp [textOf, hc, ih]

/-- A slice copied to a fresh block and terminated there is read back up to its first
NUL. -/
theorem cstrAt_copy {l x : Bytes} {src stop : Nat} (h : Spans l src stop x) :
    (do let out ← copy (l[·]?) src x.length (alloc (x.length + 1))
        cstrAt (← store out x.length 0)) = some (CStr.read x) := by
  have hcopy := copy_store h (0 : UInt8)
  obtain ⟨out, hout, hstore⟩ := Option.bind_eq_some_iff.mp hcopy
  have hread : CStr.read (x.takeWhile (· != 0)) = CStr.read x :=
    CStr.read_bytes_self (CStr.read x)
  rw [hout]
  simp only [Option.bind_eq_bind, Option.bind_some, hstore, cstrAt, textOf_eq, Option.map_some,
    hread]

/-! ### Values -/

theorem shkCopyTrim_eq {l x : Bytes} {start len fuel : Nat} (h : Spans l start (start + len) x)
    (hfuel : x.length < fuel) :
    shkCopyTrim fuel (l[·]?) start len = some (Shakti.shkCopyTrim x) := by
  have hskip : (x.dropWhile isTrimmed).length < fuel :=
    lt_of_le_of_lt (List.dropWhile_suffix _).length_le hfuel
  have hs := h.dropWhile isTrimmed
  -- What is left of the slice when both ends are trimmed.
  have hkept : ((x.dropWhile isTrimmed).reverse.dropWhile isTrimmed).reverse <+:
      x.dropWhile isTrimmed := by
    rw [← List.reverse_suffix, List.reverse_reverse]
    exact List.dropWhile_suffix isTrimmed
  have hcopy := cstrAt_copy (hs.of_isPrefix hkept)
  rw [List.length_reverse] at hcopy
  simp only [shkCopyTrim, scan_eq isTrimmed h hfuel, scanBack_eq isTrimmed hs hskip,
    Option.bind_eq_bind, Option.bind_some, Nat.add_sub_cancel_left]
  exact hcopy

theorem shkCopyTrim_length_le (x : Bytes) : (Shakti.shkCopyTrim x).length ≤ x.length := by
  have hread := (List.takeWhile_prefix (l := ((x.dropWhile isTrimmed).reverse.dropWhile
    isTrimmed).reverse) (· != (0 : UInt8))).length_le
  have hback := (List.dropWhile_suffix isTrimmed (l := (x.dropWhile isTrimmed).reverse)).length_le
  have hfront := (List.dropWhile_suffix isTrimmed (l := x)).length_le
  rw [List.length_reverse] at hread hback
  exact hread.trans (hback.trans hfront)

theorem shkUnquote_eq {s : CStr} {fuel : Nat} (hfuel : s.length < fuel) :
    shkUnquote fuel s = some (Shakti.shkUnquote s) := by
  rw [shkUnquote, strlen_eq hfuel, Shakti.shkUnquote]
  simp only [Option.bind_eq_bind, Option.bind_some]
  split
  case isTrue => rfl
  case isFalse hlen =>
    have hload : ∀ i, i < s.length → chars s i = some (s.load8 i) := fun i hi => by
      have hget : s.bytes[i]? = some s.bytes[i] := List.getElem?_eq_getElem hi
      rw [chars, List.getElem?_append_left hi, CStr.load8, List.getD_eq_getElem?_getD, hget]
      rfl
    have hinner : (s.bytes.drop 1).take (s.length - 2) <+: s.bytes.drop 1 :=
      List.take_prefix _ _
    have hspan := ((rest_zero s).drop (k := 1) (by rw [← CStr.length]; omega)).of_isPrefix hinner
    have hcopy := cstrAt_copy hspan
    have hlenInner : ((s.bytes.drop 1).take (s.length - 2)).length = s.length - 2 := by
      rw [List.length_take, List.length_drop, ← CStr.length]
      omega
    have hroom : s.length - 2 + 1 = s.length - 1 := by omega
    rw [hlenInner, hroom] at hcopy
    simp only [hload 0 (by omega), hload (s.length - 1) (by omega), Option.bind_some, chars_eq]
    split
    · exact hcopy
    · split
      · exact hcopy
      · rfl

theorem shkParseInt_eq {s : CStr} {fuel : Nat} (hfuel : s.length < fuel) :
    shkParseInt fuel s = some (Shakti.shkParseInt s) := by
  rw [shkParseInt, strlen_eq hfuel, Shakti.shkParseInt]
  simp only [Option.bind_eq_bind, Option.bind_some]
  split
  case isTrue => rfl
  case isFalse =>
    refine run_eq (fun n st b =>
      ∃ x, x.length = n ∧ Rest s st.1 x ∧ b = shkParseIntLoop x st.2)
      ?_ ⟨s.bytes, rfl, rest_zero s, rfl⟩ hfuel
    rintro n ⟨i, v⟩ b ⟨x, rfl, h, rfl⟩
    cases x with
    | nil =>
        left
        simp [shkParseIntTurn, h.not_lt, shkParseIntLoop]
    | cons c x =>
        simp only [shkParseIntTurn, h.lt, if_true, h.chars_cons, Option.bind_eq_bind,
          Option.bind_some, shkParseIntLoop]
        split
        · exact Or.inl rfl
        · split
          · exact Or.inl rfl
          · split
            · exact Or.inl rfl
            · exact Or.inr ⟨x.length, _, by simp, rfl, x, rfl, h.tail, rfl⟩

theorem shkParseBool_eq {s : CStr} {fuel : Nat} (hfuel : s.length < fuel) :
    shkParseBool fuel s = some (Shakti.shkParseBool s) := by
  simp only [shkParseBool, Shakti.shkParseBool, streq_eq hfuel, Option.bind_eq_bind,
    Option.bind_some, decide_eq_true_eq, apply_ite some]
  rfl

/-! ### String arrays -/

/-- The search for the last `]` ends where the item list does. -/
theorem closeTurn_eq {l x : Bytes} {start stop fuel : Nat} (h : Spans l start stop x)
    (hfuel : x.length < fuel) :
    run (closeTurn (l[·]?) start) fuel stop = some (start + (arrayBody x).length) := by
  refine run_eq (fun n stop b =>
    ∃ x, x.length = n ∧ Spans l start stop x ∧ b = start + (arrayBody x).length)
    ?_ ⟨x, rfl, h, rfl⟩ hfuel
  rintro n stop b ⟨x, rfl, h, rfl⟩
  rcases List.eq_nil_or_concat x with rfl | ⟨x, c, rfl⟩
  · left
    simpa [closeTurn, h.not_lt, arrayBody] using h.stop_eq
  · rw [List.concat_eq_append] at h ⊢
    have hstop : stop = start + x.length + 1 := by
      simpa [Nat.add_assoc] using h.stop_eq
    have hload : l[stop - 1]? = some c := by
      rw [show stop - 1 = start + x.length by omega, h.getElem? (by simp)]
      simp
    have hlt : start < stop := by omega
    have hbefore : Spans l start (stop - 1) x := by
      simpa [hstop] using h.of_isPrefix (List.prefix_append x [c])
    by_cases hc : c = 93
    · left
      simpa [closeTurn, hlt, hload, hc, arrayBody] using hbefore.stop_eq
    · refine Or.inr ⟨x.length, stop - 1, by simp, ?_, x, rfl, hbefore, ?_⟩
      · simp [closeTurn, hlt, hload, hc]
      · simp [arrayBody, hc]

theorem skipCommaTurn_eq {l x : Bytes} {pos stop fuel : Nat} (h : Spans l pos stop x)
    (hfuel : x.length < fuel) :
    ∃ p, run (skipCommaTurn (l[·]?) stop) fuel pos = some p ∧ Spans l p stop (skipComma x) := by
  obtain ⟨p, hp⟩ := h.of_suffix (skipComma_suffix x)
  refine ⟨p, ?_, hp⟩
  refine run_eq (fun n pos b =>
    ∃ x, x.length = n ∧ Spans l pos stop x ∧ Spans l b stop (skipComma x))
    ?_ ⟨x, rfl, h, hp⟩ hfuel
  rintro n pos b ⟨x, rfl, h, hb⟩
  cases x with
  | nil =>
      left
      simp [skipCommaTurn, h.not_lt, hb.pos_unique h]
  | cons c x =>
      simp only [skipCommaTurn, h.lt, if_true, h.head, Option.bind_eq_bind, Option.bind_some]
      rw [skipComma] at hb
      split
      case isTrue hc =>
        rw [if_pos hc] at hb
        exact Or.inl (by rw [hb.pos_unique h.tail]; rfl)
      case isFalse hc =>
        rw [if_neg hc] at hb
        split
        case isTrue hskip =>
          rw [if_pos hskip] at hb
          exact Or.inr ⟨x.length, pos + 1, by simp, rfl, x, rfl, h.tail, hb⟩
        case isFalse hskip =>
          rw [if_neg hskip] at hb
          exact Or.inl (by rw [hb.pos_unique h]; rfl)

theorem quotedItem_eq {l x : Bytes} {pos stop fuel : Nat} (h : Spans l pos stop x)
    (hfuel : x.length < fuel) (qchar : UInt8) :
    ∃ p, quotedItem fuel (l[·]?) stop qchar pos =
        some (CStr.read (x.takeWhile (· != qchar)), p) ∧
      Spans l p stop ((x.dropWhile (· != qchar)).drop 1) := by
  refine ⟨_, ?_, (h.dropWhile (· != qchar)).step⟩
  obtain ⟨out, hout, hitem⟩ :=
    Option.bind_eq_some_iff.mp (cstrAt_copy (h.takeWhile (· != qchar)))
  obtain ⟨block, hblock, hread⟩ := Option.bind_eq_some_iff.mp hitem
  rw [quotedItem, scan_eq _ h hfuel]
  simp only [Option.bind_eq_bind, Option.bind_some, Nat.add_sub_cancel_left, hout, hblock, hread]
  rfl

/-- One turn of the item loop finds what the turn on the body finds. -/
theorem arrayTurn_eq {l x : Bytes} {pos stop fuel : Nat} (h : Spans l pos stop x)
    (hne : x ≠ []) (hfuel : x.length < fuel) (v : List CStr) :
    (x.dropWhile isTrimmed = [] ∧ arrayTurn fuel (l[·]?) stop (pos, v) = some (.done v)) ∨
      ∃ p, arrayTurn fuel (l[·]?) stop (pos, v) =
          some (.next (p, v ++ (Shakti.arrayTurn x).1.toList)) ∧
        Spans l p stop (Shakti.arrayTurn x).2 := by
  have hlt : pos < stop := by
    cases x with
    | nil => exact absurd rfl hne
    | cons c x => exact h.lt
  have hs := h.dropWhile isTrimmed
  have hless := arrayTurn_length_lt hne
  have hlen : (x.takeWhile isTrimmed).length + (x.dropWhile isTrimmed).length = x.length := by
    rw [← List.length_append, List.takeWhile_append_dropWhile]
  rw [arrayTurn]
  simp only [hlt, if_true, scan_eq isTrimmed h hfuel, Option.bind_eq_bind, Option.bind_some]
  cases hd : x.dropWhile isTrimmed with
  | nil =>
      rw [hd] at hs
      exact Or.inl ⟨rfl, by simp [hs.not_lt]⟩
  | cons qchar rest =>
      right
      rw [hd] at hs hlen
      rw [List.length_cons] at hlen
      simp only [not_le.mpr hs.lt, if_false, hs.head, Option.bind_some]
      rw [Shakti.arrayTurn, hd] at hless ⊢
      dsimp only at hless ⊢
      split
      case isTrue hq =>
        rw [if_pos hq] at hless
        have hrest : rest.length < fuel := by omega
        obtain ⟨close, hitem, hclose⟩ := quotedItem_eq hs.tail hrest qchar
        have hshort : ((rest.dropWhile (· != qchar)).drop 1).length ≤ rest.length :=
          ((List.drop_suffix _ _).trans (List.dropWhile_suffix _)).length_le
        obtain ⟨p, hcomma, hp⟩ := skipCommaTurn_eq hclose (lt_of_le_of_lt hshort hrest)
        refine ⟨p, ?_, hp⟩
        have hmoved : p ≠ pos := (h.pos_lt hp hless).ne'
        simp [hitem, hcomma, hmoved]
      case isFalse hq =>
        have hleft : (qchar :: rest).length < fuel := by
          rw [List.length_cons]
          omega
        obtain ⟨p, hcomma, hp⟩ := skipCommaTurn_eq hs hleft
        -- The position stays exactly when nothing was skipped.
        have hstay : p = pos ↔ (skipComma (qchar :: rest)).length = x.length := by
          have := h.stop_eq
          have := hp.stop_eq
          omega
        simp only [Option.bind_some, Option.pure_def, hcomma]
        by_cases hpos : p = pos
        · refine ⟨p + 1, by simp [hpos], ?_⟩
          rw [if_pos (hstay.mp hpos)]
          have hstep := hp.step
          rwa [if_pos (hpos ▸ hlt)] at hstep
        · refine ⟨p, by simp [hpos], ?_⟩
          rwa [if_neg (hstay.not.mp hpos)]

theorem shkParseStrArray_eq {s : CStr} {fuel : Nat} (hfuel : s.length < fuel) :
    shkParseStrArray fuel s = some (Shakti.shkParseStrArray s) := by
  have hstart := rest_zero s
  rw [shkParseStrArray, strlen_eq hfuel, Shakti.shkParseStrArray]
  simp only [Option.bind_eq_bind, Option.bind_some]
  rw [CStr.length] at hfuel ⊢
  cases hb : s.bytes with
  | nil => simp
  | cons c rest =>
      rw [hb] at hstart hfuel
      rw [List.length_cons] at hfuel
      dsimp only
      rw [← hb, ← CStr.length]
      split
      case isTrue => rfl
      case isFalse =>
        simp only [hstart.chars_cons, Option.bind_some]
        split
        case isTrue => rfl
        case isFalse =>
          have hrest : rest.length < fuel := by omega
          have hclose := closeTurn_eq hstart.tail hrest
          have hbody : arrayBody rest <+: rest := by
            rw [arrayBody, ← List.reverse_suffix, List.reverse_reverse]
            exact (List.drop_suffix _ _).trans (List.dropWhile_suffix _)
          have hspan := hstart.tail.of_isPrefix hbody
          have hle := hbody.length_le
          rw [chars_eq]
          simp only [hclose, Option.bind_some]
          -- The turns left are counted by the text left, which every turn makes shorter.
          refine run_eq (fun n st b => ∃ x, x.length = n ∧
              Spans (s.bytes ++ [0]) st.1 (1 + (arrayBody rest).length) x ∧ x.length < fuel ∧
              b = st.2 ++ arrayItems x.length x)
            ?_ ⟨arrayBody rest, rfl, hspan, by omega, by simp⟩ (by omega)
          rintro n ⟨pos, v⟩ b ⟨x, rfl, h, hx, rfl⟩
          by_cases hne : x = []
          · subst hne
            exact Or.inl (by simp [arrayTurn, h.not_lt, arrayItems])
          · have hitems := arrayItems_of_turn hne (Prod.eta _).symm
            have hless := arrayTurn_length_lt hne
            rcases arrayTurn_eq h hne hx v with ⟨hd, hdone⟩ | ⟨p, hnext, hp⟩
            · left
              rw [hdone, hitems]
              simp [Shakti.arrayTurn, hd, arrayItems]
            · exact Or.inr ⟨_, _, hless, hnext, _, rfl, hp, by omega,
                by rw [hitems, List.append_assoc]⟩

/-! ### Setters -/

/-- Every field lies in the block of its record. -/
theorem DefOff.offset_le (o : DefOff) : o.offset + 8 ≤ DefOff.size := by
  cases o <;> decide

theorem RuleOff.offset_le (o : RuleOff) : o.offset + 8 ≤ RuleOff.size := by
  cases o <;> decide

theorem storeParsed_eq {α β : Type} {size off : Nat} (h : off + 8 ≤ size) (record : β)
    (set : α → β) (parsed : Option α) :
    storeParsed size off record set parsed = some ((parsed.map set).getD record) := by
  cases parsed with
  | none => rfl
  | some v => simp [storeParsed, store64, h]

@[simp] theorem DefOff.store_eq (o : DefOff) (d : Defaults) : o.store d = some d :=
  if_pos o.offset_le

@[simp] theorem DefOff.storeParsed_eq {α : Type} (o : DefOff) (d : Defaults)
    (set : α → Defaults) (parsed : Option α) :
    o.storeParsed d set parsed = some ((parsed.map set).getD d) :=
  Checked.storeParsed_eq o.offset_le d set parsed

@[simp] theorem RuleOff.store_eq (o : RuleOff) (r : Rule) : o.store r = some r :=
  if_pos o.offset_le

@[simp] theorem RuleOff.storeParsed_eq {α : Type} (o : RuleOff) (r : Rule) (set : α → Rule)
    (parsed : Option α) : o.storeParsed r set parsed = some ((parsed.map set).getD r) :=
  Checked.storeParsed_eq o.offset_le r set parsed

theorem shkDefSet_eq {d : Defaults} {key rawVal : CStr} {fuel : Nat} (hkey : key.length < fuel)
    (hval : rawVal.length < fuel) :
    shkDefSet fuel d key rawVal = some (Shakti.shkDefSet d key rawVal) := by
  simp only [shkDefSet, Shakti.shkDefSet, streq_eq hkey, shkParseInt_eq hval,
    shkParseBool_eq hval, shkParseStrArray_eq hval, shkUnquote_eq hval, Option.bind_eq_bind,
    Option.bind_some, decide_eq_true_eq, DefOff.store_eq, DefOff.storeParsed_eq, apply_ite some]
  cases Shakti.shkParseInt rawVal <;> cases Shakti.shkParseBool rawVal <;> rfl

theorem shkRuleSet_eq {r : Rule} {key rawVal : CStr} {fuel : Nat} (hkey : key.length < fuel)
    (hval : rawVal.length < fuel) :
    shkRuleSet fuel r key rawVal = some (Shakti.shkRuleSet r key rawVal) := by
  simp only [shkRuleSet, Shakti.shkRuleSet, streq_eq hkey, shkParseBool_eq hval,
    shkParseStrArray_eq hval, shkUnquote_eq hval, Option.bind_eq_bind, Option.bind_some,
    decide_eq_true_eq, RuleOff.store_eq, RuleOff.storeParsed_eq, apply_ite some]
  cases Shakti.shkParseBool rawVal <;> rfl

/-! ### The main loop -/

theorem skipLineTurn_eq {l x : Bytes} {pos stop fuel : Nat} (h : Spans l pos stop x)
    (hfuel : x.length < fuel) :
    ∃ p, run (skipLineTurn (l[·]?) stop) fuel pos = some p ∧ Spans l p stop (afterLine x) := by
  have hsuffix : afterLine x <:+ x :=
    (List.drop_suffix _ _).trans (List.dropWhile_suffix _)
  obtain ⟨p, hp⟩ := h.of_suffix hsuffix
  refine ⟨p, ?_, hp⟩
  refine run_eq (fun n pos b =>
    ∃ x, x.length = n ∧ Spans l pos stop x ∧ Spans l b stop (afterLine x))
    ?_ ⟨x, rfl, h, hp⟩ hfuel
  rintro n pos b ⟨x, rfl, h, hb⟩
  cases x with
  | nil =>
      left
      simp [skipLineTurn, h.not_lt, hb.pos_unique h]
  | cons c x =>
      simp only [skipLineTurn, h.lt, if_true, h.head, Option.bind_eq_bind, Option.bind_some]
      split
      case isTrue hc =>
        have hb' : Spans l b stop x := by simpa [afterLine, hc] using hb
        exact Or.inl (by rw [hb'.pos_unique h.tail]; rfl)
      case isFalse hc =>
        have hb' : Spans l b stop (afterLine x) := by simpa [afterLine, hc] using hb
        exact Or.inr ⟨x.length, pos + 1, by simp, rfl, x, rfl, h.tail, hb'⟩

/-- The position after a line. -/
theorem afterLine_span {l x : Bytes} {pos stop : Nat} (h : Spans l pos stop x) :
    Spans l (if pos + (lineOf x).length < stop then pos + (lineOf x).length + 1
      else pos + (lineOf x).length) stop (afterLine x) :=
  (h.dropWhile (· != 10)).step

theorem isBracket_eq {l x : Bytes} {pos stop : Nat} (h : Spans l pos stop x) :
    isBracket (l[·]?) stop pos = some (x.head? == some 91) := by
  cases x with
  | nil => simp [isBracket, h.not_lt]
  | cons c x => simp [isBracket, h.lt, h.head]

/-- The second byte of a header's line is a bracket exactly when the next byte is. -/
theorem lineOf_second (x : Bytes) : (91 :: lineOf x).getD 1 0 = 91 ↔ x.head? = some 91 := by
  cases x with
  | nil => simp [lineOf]
  | cons c x =>
      by_cases hc : c = 10
      · simp [lineOf, hc]
      · simp [lineOf, hc]

theorem readHeader_eq {l x : Bytes} {pos stop fuel : Nat} (h : Spans l pos stop (91 :: x))
    (hfuel : (91 :: x).length < fuel) :
    ∃ name p, readHeader fuel (l[·]?) stop pos = some (name, p) ∧
      (Shakti.readHeader (91 :: x)).1 = .header name ∧ name.length < fuel ∧
      Spans l p stop (Shakti.readHeader (91 :: x)).2 := by
  have hline : lineOf (91 :: x) = 91 :: lineOf x := by simp [lineOf]
  have hspan : Spans l pos (pos + (lineOf (91 :: x)).length) (lineOf (91 :: x)) :=
    h.takeWhile (· != 10)
  have hshort : (lineOf (91 :: x)).length ≤ (91 :: x).length :=
    (List.takeWhile_prefix _).length_le
  have hend := scan_eq (· != 10) h hfuel
  rw [← lineOf] at hend
  rw [readHeader, Shakti.readHeader]
  dsimp only
  simp only [hend, isBracket_eq h.tail, Option.bind_eq_bind, Option.bind_some]
  -- From the byte after the brackets on, the line holds the name.
  obtain ⟨start, name, hstart, hname, hspan, hlen⟩ : ∃ start name,
      (if x.head? == some 91 then pos + 2 else pos + 1) = start ∧
      (if (lineOf (91 :: x)).getD 1 0 = 91 then (lineOf (91 :: x)).drop 2
        else (lineOf (91 :: x)).drop 1) = name ∧
      Spans l start (pos + (lineOf (91 :: x)).length) name ∧ name.length < fuel := by
    rw [hline] at hspan hshort ⊢
    simp only [lineOf_second]
    by_cases hx : x.head? = some 91
    · obtain ⟨x', rfl⟩ : ∃ x', x = 91 :: x' := by
        cases x with
        | nil => simp at hx
        | cons c x' =>
            obtain rfl : c = 91 := by simpa using hx
            exact ⟨x', rfl⟩
      refine ⟨_, _, rfl, rfl, ?_, ?_⟩
      · simpa using hspan.drop (k := 2) (by simp [lineOf])
      · simp at *
        omega
    · refine ⟨_, _, rfl, rfl, ?_, ?_⟩
      · simpa [hx] using hspan.tail
      · simp [hx] at *
        omega
  have hfind := scan_eq (· != 93) hspan hlen
  have hshort' : (name.takeWhile (· != 93)).length < fuel :=
    lt_of_le_of_lt (List.takeWhile_prefix _).length_le hlen
  have hcopy := shkCopyTrim_eq (hspan.takeWhile (· != 93)) hshort'
  simp only [hstart, hname, hfind, hcopy, Option.bind_some, Nat.add_sub_cancel_left]
  exact ⟨_, _, rfl, rfl, lt_of_le_of_lt (shkCopyTrim_length_le _) hshort', afterLine_span h⟩

/-- The bracket scan ends after the bracket that closes the array. -/
theorem arrayScanTurn_eq {l x : Bytes} {pos stop fuel depth : Nat} {inQ : Bool}
    (h : Spans l pos stop x) (hfuel : x.length < fuel) :
    run (arrayScanTurn (l[·]?) stop) fuel (pos, depth, inQ) =
      some (pos + (arrayScan depth inQ x).1.length) := by
  refine run_eq (fun n st b => ∃ x, x.length = n ∧ Spans l st.1 stop x ∧
      b = st.1 + (arrayScan st.2.1 st.2.2 x).1.length)
    ?_ ⟨x, rfl, h, rfl⟩ hfuel
  rintro n ⟨pos, depth, inQ⟩ b ⟨x, rfl, h, rfl⟩
  cases depth with
  | zero =>
      left
      simp [arrayScanTurn, arrayScan]
  | succ depth =>
      cases x with
      | nil =>
          left
          simp [arrayScanTurn, arrayScan, h.not_lt]
      | cons ch x =>
          have hmove : ∀ m, pos + (m + 1) = pos + 1 + m := fun m => by omega
          simp only [arrayScanTurn, h.lt, Nat.succ_pos, and_self, if_true, h.head,
            Option.bind_eq_bind, Option.bind_some, arrayScan, List.length_cons]
          cases inQ with
          | true =>
              exact Or.inr ⟨x.length, _, by simp, rfl, x, rfl, h.tail, hmove _⟩
          | false =>
              simp only [Bool.false_eq_true, if_false]
              split
              · exact Or.inr ⟨x.length, _, by simp, rfl, x, rfl, h.tail, hmove _⟩
              · split
                · exact Or.inr ⟨x.length, _, by simp, rfl, x, rfl, h.tail, hmove _⟩
                · split <;>
                    exact Or.inr ⟨x.length, _, by simp, rfl, x, rfl, h.tail, hmove _⟩

/-- The comment scan ends where the value does. -/
theorem scalarScanTurn_eq {l x : Bytes} {pos stop fuel : Nat} {inStr : Bool}
    (h : Spans l pos stop x) (hfuel : x.length + 1 < fuel) :
    run (scalarScanTurn (l[·]?) stop) fuel (pos, inStr, stop) =
      some (pos + (scalarScan inStr x).length) := by
  refine run_eq (fun n st b =>
    (∃ x, x.length + 1 = n ∧ Spans l st.1 stop x ∧ st.2.2 = stop ∧
      b = st.1 + (scalarScan st.2.1 x).length) ∨ (n = 0 ∧ stop < st.1 ∧ b = st.2.2))
    ?_ (Or.inl ⟨x, rfl, h, rfl, rfl⟩) hfuel
  rintro n ⟨pos, inStr, vend⟩ b (⟨x, rfl, h, hvend, rfl⟩ | ⟨rfl, hpast, rfl⟩)
  · obtain rfl : vend = stop := hvend
    cases x with
    | nil =>
        left
        simpa [scalarScanTurn, h.not_lt, scalarScan] using h.stop_eq
    | cons c x =>
        simp only [scalarScanTurn, h.lt, if_true, h.head, Option.bind_eq_bind,
          Option.bind_some, scalarScan]
        split
        · exact Or.inr ⟨x.length + 1, _, by simp, rfl,
            Or.inl ⟨x, rfl, h.tail, rfl, by simp; omega⟩⟩
        · split
          -- At a comment the loop leaves on its next turn.
          · exact Or.inr ⟨0, _, by simp, rfl, Or.inr ⟨rfl, Nat.lt_succ_self _, by simp⟩⟩
          · exact Or.inr ⟨x.length + 1, _, by simp, rfl,
              Or.inl ⟨x, rfl, h.tail, rfl, by simp; omega⟩⟩
  · left
    simp [scalarScanTurn, not_lt_of_gt hpast]

/-- The value part of a scalar line is a prefix of it. -/
theorem scalarScan_isPrefix (inStr : Bool) (x : Bytes) : scalarScan inStr x <+: x := by
  induction x generalizing inStr with
  | nil => exact List.prefix_refl _
  | cons c x ih =>
      rw [scalarScan]
      split
      · exact List.prefix_cons_inj c |>.mpr (ih _)
      · split
        · exact List.nil_prefix
        · exact List.prefix_cons_inj c |>.mpr (ih _)

/-- The bracket scan cuts its text in two. -/
theorem arrayScan_cut (depth : Nat) (inQ : Bool) (x : Bytes) :
    (arrayScan depth inQ x).1 ++ (arrayScan depth inQ x).2 = x := by
  induction x generalizing depth inQ with
  | nil => cases depth <;> rfl
  | cons c x ih =>
      cases depth with
      | zero => rfl
      | succ depth =>
          obtain ⟨depth', inQ', -, hstep⟩ := arrayScan_step depth inQ c
          rw [(hstep x).1, List.cons_append, ih]

/-- A line with an `=`: what stands before the first one, and after it. -/
theorem exists_key {x : Bytes} (h : 61 ∈ lineOf x) :
    ∃ key after, x = key ++ 61 :: after ∧ (61 : UInt8) ∉ key ∧
      lineOf x = key ++ 61 :: lineOf after := by
  obtain ⟨key, b, hline, hkey⟩ := List.eq_append_cons_of_mem h
  have hx : x = key ++ 61 :: (b ++ x.dropWhile (· != 10)) := by
    rw [← List.cons_append, ← List.append_assoc, ← hline, lineOf,
      List.takeWhile_append_dropWhile]
  refine ⟨key, _, hx, hkey, ?_⟩
  have hall : ∀ c ∈ key ++ [61], (c != 10) = true := fun c hc => by
    have hmem : c ∈ lineOf x := by
      rw [hline, List.append_cons]
      exact List.mem_append_left _ hc
    exact List.mem_takeWhile_imp (p := (· != 10)) hmem
  generalize b ++ x.dropWhile (· != 10) = after at hx
  rw [hx, lineOf, List.append_cons, List.takeWhile_append_of_pos hall]
  simp [lineOf]

/-- The item of a pair, or of a line without `=`. -/
def itemOf : Option (CStr × CStr) → Item
  | some (key, value) => .keyValue key value
  | none => .skip

/-- A value is a prefix of what follows the `=`, and is trimmed. -/
theorem shkCopyTrim_value {l after v : Bytes} {pos stop fuel : Nat} (h : Spans l pos stop after)
    (hfuel : after.length < fuel) (hv : v <+: after) :
    shkCopyTrim fuel (l[·]?) pos v.length = some (Shakti.shkCopyTrim v) ∧
      (Shakti.shkCopyTrim v).length < fuel := by
  have hvFuel := lt_of_le_of_lt hv.length_le hfuel
  exact ⟨shkCopyTrim_eq (h.of_isPrefix hv) hvFuel, lt_of_le_of_lt (shkCopyTrim_length_le v) hvFuel⟩

/-- Where the scan of an array value ends, and what stands behind it. -/
theorem arrayValue_eq {l after body : Bytes} {pos stop fuel : Nat} (h : Spans l pos stop after)
    (hfuel : after.length < fuel) (hbody : after.dropWhile isBlank = 91 :: body) {value : Bytes}
    (hvalue : value = after.takeWhile isBlank ++ 91 :: (arrayScan 1 false body).1) :
    value <+: after ∧
      run (arrayScanTurn (l[·]?) stop) fuel (pos + (after.takeWhile isBlank).length + 1, 1, false) =
        some (pos + value.length) ∧
      Spans l (pos + value.length) stop (arrayScan 1 false body).2 := by
  have hspan := h.dropWhile isBlank
  rw [hbody] at hspan
  have hcut := arrayScan_cut 1 false body
  have hafterCut : value ++ (arrayScan 1 false body).2 = after := by
    rw [hvalue, List.append_assoc, List.cons_append, hcut, ← hbody,
      List.takeWhile_append_dropWhile]
  have hbodyFuel : body.length < fuel := by
    have hle := (List.dropWhile_suffix isBlank (l := after)).length_le
    rw [hbody, List.length_cons] at hle
    omega
  have hscan := @arrayScanTurn_eq _ _ _ _ _ 1 false hspan.tail hbodyFuel
  have hstop : pos + (after.takeWhile isBlank).length + 1 + (arrayScan 1 false body).1.length =
      pos + value.length := by
    rw [hvalue, List.length_append, List.length_cons]
    omega
  rw [hstop] at hscan
  refine ⟨⟨_, hafterCut⟩, hscan, ?_⟩
  rw [← hafterCut] at h
  exact h.of_append

theorem readKeyValue_eq {l x : Bytes} {pos stop fuel : Nat} (h : Spans l pos stop x)
    (hfuel : x.length < fuel) :
    ∃ pair p, readKeyValue fuel (l[·]?) stop pos = some (pair, p) ∧
      (Shakti.readKeyValue x).1 = itemOf pair ∧
      (∀ key value, pair = some (key, value) → key.length < fuel ∧ value.length < fuel) ∧
      Spans l p stop (Shakti.readKeyValue x).2 := by
  have hline : Spans l pos (pos + (lineOf x).length) (lineOf x) := h.takeWhile (· != 10)
  have hshort : (lineOf x).length ≤ x.length := (List.takeWhile_prefix _).length_le
  have hend := scan_eq (· != 10) h hfuel
  rw [← lineOf] at hend
  have heq := scan_eq (· != 61) hline (lt_of_le_of_lt hshort hfuel)
  have hnext := afterLine_span h
  rw [readKeyValue, Shakti.readKeyValue]
  simp only [hend, heq, Option.bind_eq_bind, Option.bind_some, List.contains_iff_mem]
  -- Without a `=` on the line the scan for it comes to the end of the line.
  by_cases hmem : 61 ∈ lineOf x
  · obtain ⟨key, after, rfl, hkey, hsplit⟩ := exists_key hmem
    have hfirst : (lineOf (key ++ 61 :: after)).takeWhile (· != 61) = key := by
      rw [hsplit, Scan.takeWhile_ne_append hkey]
    have hrest : ((key ++ 61 :: after).dropWhile (· != 61)).drop 1 = after := by
      rw [Scan.dropWhile_ne_append hkey]
      rfl
    have hlen : (lineOf (key ++ 61 :: after)).length = key.length + (lineOf after).length + 1 := by
      rw [hsplit, List.length_append, List.length_cons]
      omega
    have hafter : Spans l (pos + key.length + 1) stop after := h.of_append.tail
    have hkeyFuel : key.length < fuel := by simp at hfuel; omega
    have hafterFuel : after.length < fuel := by simp at hfuel; omega
    have hkeyTrim := shkCopyTrim_eq (h.of_isPrefix (List.prefix_append key _)) hkeyFuel
    have hkeyShort := lt_of_le_of_lt (shkCopyTrim_length_le key) hkeyFuel
    have hvalue := hafter.dropWhile isBlank
    rw [if_pos hmem, hfirst, hrest, if_pos (by omega)]
    simp only [Nat.add_sub_cancel_left, hkeyTrim, scan_eq isBlank hafter hafterFuel,
      isBracket_eq hvalue, Option.bind_some]
    -- An array may run over several lines; a scalar ends with its line.
    split
    case isTrue hbracket =>
      obtain ⟨body, hbody⟩ : ∃ body, after.dropWhile isBlank = 91 :: body := by
        cases hd : after.dropWhile isBlank with
        | nil => simp [hd] at hbracket
        | cons c body =>
            obtain rfl : c = 91 := by simpa [hd] using hbracket
            exact ⟨body, rfl⟩
      obtain ⟨hstart, hscan, hclose⟩ := arrayValue_eq hafter hafterFuel hbody rfl
      obtain ⟨hval, hvalShort⟩ := shkCopyTrim_value hafter hafterFuel hstart
      simp only [hbody, hscan, hval, Nat.add_sub_cancel_left, Option.bind_some]
      refine ⟨some (_, _), _, rfl, rfl, ?_, hclose.step⟩
      rintro _ _ ⟨⟩
      exact ⟨hkeyShort, hvalShort⟩
    case isFalse hbracket =>
      -- The scalar scan is bounded by the end of the line, not by that of the text.
      have hlineAfter : Spans l (pos + key.length + 1)
          (pos + (lineOf (key ++ 61 :: after)).length) (lineOf after) := by
        rw [hsplit] at hline ⊢
        exact hline.of_append.tail
      have hlineShort : (lineOf after).length ≤ after.length :=
        (List.takeWhile_prefix _).length_le
      have hlineFuel : (lineOf after).length + 1 < fuel := by
        rw [List.length_append, List.length_cons] at hfuel
        omega
      have hscan := @scalarScanTurn_eq _ _ _ _ _ false hlineAfter hlineFuel
      obtain ⟨hval, hvalShort⟩ := shkCopyTrim_value hafter hafterFuel
        ((scalarScan_isPrefix false (lineOf after)).trans (List.takeWhile_prefix _))
      simp only [hscan, hval, Nat.add_sub_cancel_left, Option.bind_some]
      refine ⟨some (_, _), _, rfl, ?_, ?_, ?_⟩
      · split
        case h_1 heq => simp [heq] at hbracket
        case h_2 => rfl
      · rintro _ _ ⟨⟩
        exact ⟨hkeyShort, hvalShort⟩
      · convert hnext using 1
        split
        case h_1 heq => simp [heq] at hbracket
        case h_2 => rfl
  · have hall : (lineOf x).takeWhile (· != 61) = lineOf x :=
      List.takeWhile_eq_self_iff.mpr (fun c hc => by
        simpa using ne_of_mem_of_not_mem hc hmem)
    rw [hall, if_neg hmem, if_neg (lt_irrefl _)]
    exact ⟨none, _, rfl, rfl, by simp, hnext⟩

theorem enterSection_eq {st : ParseState} {name : CStr} {fuel : Nat} (h : name.length < fuel) :
    enterSection fuel st name = some (applyItem st (.header name)) := by
  simp only [enterSection, applyItem, streq_eq h, Option.bind_eq_bind, Option.bind_some,
    decide_eq_true_eq, apply_ite some]
  rfl

theorem setKey_eq {st : ParseState} {key value : CStr} {fuel : Nat} (hkey : key.length < fuel)
    (hvalue : value.length < fuel) :
    setKey fuel st key value = some (applyItem st (.keyValue key value)) := by
  rw [setKey, applyItem]
  cases st.sec with
  | none => rfl
  | defaults => simp [shkDefSet_eq hkey hvalue]
  | rule cur => simp [shkRuleSet_eq hkey hvalue]

/-- One turn of the main loop reads and applies one item. -/
theorem policyTurn_eq {l x : Bytes} {pos stop fuel : Nat} (h : Spans l pos stop x)
    (hne : x ≠ []) (hfuel : x.length < fuel) (st : ParseState) :
    (x.dropWhile isBlank = [] ∧ policyTurn fuel (l[·]?) stop (pos, st) = some (.done st)) ∨
      x.dropWhile isBlank ≠ [] ∧ ∃ p, policyTurn fuel (l[·]?) stop (pos, st) =
          some (.next (p, applyItem st (readItem (x.dropWhile isBlank)).1)) ∧
        Spans l p stop (readItem (x.dropWhile isBlank)).2 := by
  have hlt : pos < stop := by
    cases x with
    | nil => exact absurd rfl hne
    | cons c x => exact h.lt
  have hs := h.dropWhile isBlank
  have hshort : (x.dropWhile isBlank).length < fuel :=
    lt_of_le_of_lt (List.dropWhile_suffix _).length_le hfuel
  rw [policyTurn]
  simp only [hlt, if_true, scan_eq isBlank h hfuel, Option.bind_eq_bind, Option.bind_some]
  -- A turn first skips blanks; what is left begins with a comment, a header or a key.
  generalize pos + (x.takeWhile isBlank).length = pos at hs
  cases hd : x.dropWhile isBlank with
  | nil =>
      rw [hd] at hs
      exact Or.inl ⟨rfl, by simp [hs.not_lt]⟩
  | cons first rest =>
      refine Or.inr ⟨List.cons_ne_nil _ _, ?_⟩
      rw [hd] at hs hshort
      rw [readItem]
      simp only [not_le.mpr hs.lt, if_false, hs.head, Option.bind_some]
      split
      case isTrue =>
        obtain ⟨p, hskip, hp⟩ := skipLineTurn_eq hs hshort
        exact ⟨p, by simp [hskip, applyItem], hp⟩
      case isFalse =>
        split
        case isTrue hfirst =>
          subst hfirst
          obtain ⟨name, p, hread, hitem, hname, hp⟩ := readHeader_eq hs hshort
          exact ⟨p, by simp [hread, hitem, enterSection_eq hname], hp⟩
        case isFalse =>
          obtain ⟨pair, p, hread, hitem, hpair, hp⟩ := readKeyValue_eq hs hshort
          refine ⟨p, ?_, hp⟩
          rw [hitem]
          cases pair with
          | none => simp [hread, itemOf, applyItem]
          | some kv =>
              obtain ⟨hkey, hvalue⟩ := hpair kv.1 kv.2 rfl
              simp [hread, itemOf, setKey_eq hkey hvalue]

/-- The main loop ends, in bounds, with the policy of the text. -/
theorem parsePolicy_eq {buf : Bytes} {buflen fuel : Nat} (hlen : buflen ≤ buf.length)
    (hfuel : buflen < fuel) :
    parsePolicy fuel buf buflen = some (Shakti.parsePolicy (buf.take buflen)) := by
  have hsize : (buf.take buflen).length = buflen := by
    rw [List.length_take]
    omega
  have hspan : Spans (buf.take buflen) 0 buflen (buf.take buflen) :=
    ⟨List.prefix_refl _, by omega⟩
  have hrun : run (policyTurn fuel ((buf.take buflen)[·]?) buflen) fuel (0, parseInitial) =
      some ((policyItems (buf.take buflen)).foldl applyItem parseInitial) := by
    refine run_eq (fun n s b => ∃ x, x.length = n ∧
        Spans (buf.take buflen) s.1 buflen x ∧ x.length < fuel ∧
        b = (policyItems x).foldl applyItem s.2)
      ?_ ⟨buf.take buflen, hsize, hspan, by omega, rfl⟩ hfuel
    rintro n ⟨pos, st⟩ b ⟨x, rfl, h, hx, rfl⟩
    by_cases hne : x = []
    · subst hne
      exact Or.inl (by simp [policyTurn, h.not_lt, policyItems, policyItemsLoop])
    · rw [policyItems_eq]
      rcases policyTurn_eq h hne hx st with ⟨hd, hdone⟩ | ⟨hd, p, hnext, hp⟩
      · left
        rw [hdone, if_pos hd]
        rfl
      · have hless := (readItem_length_lt hd).trans_le (List.dropWhile_suffix isBlank).length_le
        rw [if_neg hd]
        exact Or.inr ⟨_, _, hless, hnext, _, rfl, hp, by omega, rfl⟩
  rw [parsePolicy, buffer_eq, hrun]
  rfl

end Checked

/-- The policy parser is total and in bounds. On every buffer and every length up to its
size, `parse_policy` ends within as many turns of each loop as there are bytes, and one
more, reads nothing at or past that length, and yields the policy of those bytes. So do
its helpers, on every slice of the buffer and on every string; none reads past the
string's terminator or writes outside a block. -/
theorem parsePolicy_inBounds :
    (∀ (buf : Bytes) (buflen fuel : Nat), buflen ≤ buf.length → buflen < fuel →
      Checked.parsePolicy fuel buf buflen = some (parsePolicy (buf.take buflen))) ∧
    (∀ (buf : Bytes) (buflen start len fuel : Nat), buflen ≤ buf.length →
      start + len ≤ buflen → len < fuel →
      Checked.shkCopyTrim fuel (Checked.buffer buf buflen) start len =
        some (shkCopyTrim ((buf.drop start).take len))) ∧
    (∀ (s : CStr) (fuel : Nat), s.length < fuel →
      Checked.shkUnquote fuel s = some (shkUnquote s) ∧
      Checked.shkParseInt fuel s = some (shkParseInt s) ∧
      Checked.shkParseBool fuel s = some (shkParseBool s) ∧
      Checked.shkParseStrArray fuel s = some (shkParseStrArray s)) ∧
    (∀ (d : Defaults) (r : Rule) (key rawVal : CStr) (fuel : Nat), key.length < fuel →
      rawVal.length < fuel →
      Checked.shkDefSet fuel d key rawVal = some (shkDefSet d key rawVal) ∧
      Checked.shkRuleSet fuel r key rawVal = some (shkRuleSet r key rawVal)) := by
  refine ⟨fun buf buflen fuel hlen hfuel => Checked.parsePolicy_eq hlen hfuel, ?_, ?_, ?_⟩
  · intro buf buflen start len fuel hlen hslice hfuel
    have hsize : ((buf.drop start).take len).length = len := by
      rw [List.length_take, List.length_drop]
      omega
    have hspan :
        Memory.Spans (buf.take buflen) start (start + len) ((buf.drop start).take len) := by
      refine ⟨?_, by omega⟩
      rw [List.drop_take]
      exact List.take_prefix_take_left (by omega)
    rw [Checked.buffer_eq]
    exact Checked.shkCopyTrim_eq hspan (by omega)
  · intro s fuel hfuel
    exact ⟨Checked.shkUnquote_eq hfuel, Checked.shkParseInt_eq hfuel,
      Checked.shkParseBool_eq hfuel, Checked.shkParseStrArray_eq hfuel⟩
  · intro d r key rawVal fuel hkey hvalue
    exact ⟨Checked.shkDefSet_eq hkey hvalue, Checked.shkRuleSet_eq hkey hvalue⟩

/-- An unclosed array with an unclosed string, a NUL and a comment sign in it: parsed up
to a length that leaves its last bytes out. -/
theorem parsePolicy_inBounds_unclosed :
    let buf := utf8 "[[rules]]\nuser = \"x\ncommands = [\"/bin/a" ++ [0, 35, 34, 93]
    Checked.parsePolicy 50 buf 40 = some (parsePolicy (buf.take 40)) ∧
      Checked.shkCopyTrim 50 (Checked.buffer buf 40) 10 9 =
        some (shkCopyTrim ((buf.drop 10).take 9)) ∧
      Checked.shkParseStrArray 50 (cstr "[\"/bin/a # ") =
        some (shkParseStrArray (cstr "[\"/bin/a # ")) ∧
      Checked.shkRuleSet 50 ruleNew (cstr "user") (cstr "\"") =
        some (shkRuleSet ruleNew (cstr "user") (cstr "\"")) := by
  refine ⟨parsePolicy_inBounds.1 _ 40 50 (by decide) (by decide),
    parsePolicy_inBounds.2.1 _ 40 10 9 50 (by decide) (by decide) (by decide),
    (parsePolicy_inBounds.2.2.1 _ 50 (by decide)).2.2.2,
    (parsePolicy_inBounds.2.2.2 defaultsNew ruleNew _ _ 50 (by decide)
      (by decide)).2⟩

end Shakti
