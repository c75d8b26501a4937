import Shakti.Policy.Values

/-!
# Shakti.Policy.Lexing

How the main loop of `parse_policy` reads the lines of the documented format.

Each line is read by one turn of the loop, which hands the next turn the position where
the next line starts; after an array the rest of its line is left over, and read as a
line that says nothing. The items of a text are those of its lines, up to items that
say nothing (`significant_policyItems`).
-/

namespace Shakti

/-! ### Turns of the main loop -/

theorem afterLine_length_lt {buf : Bytes} (h : buf ≠ []) :
    (afterLine buf).length < buf.length := by
  have hle : (buf.dropWhile (· != 10)).length ≤ buf.length :=
    (List.dropWhile_suffix _).length_le
  have hpos : 0 < buf.length := List.length_pos_iff.mpr h
  rw [afterLine, List.length_drop]
  omega

theorem arrayScan_suffix (depth : Nat) (inQ : Bool) (buf : Bytes) :
    (arrayScan depth inQ buf).2 <:+ buf := by
  induction buf generalizing depth inQ with
  | nil => cases depth <;> exact List.suffix_refl _
  | cons ch buf ih =>
      cases depth with
      | zero => exact List.suffix_refl _
      | succ depth =>
          rw [arrayScan]
          dsimp only
          split
          · exact (ih _ _).trans (List.suffix_cons ch buf)
          · split
            · exact (ih _ _).trans (List.suffix_cons ch buf)
            · split
              · exact (ih _ _).trans (List.suffix_cons ch buf)
              · split <;> exact (ih _ _).trans (List.suffix_cons ch buf)

/-- Every turn reads something. -/
theorem readItem_length_lt {buf : Bytes} (h : buf ≠ []) :
    (readItem buf).2.length < buf.length := by
  have hline := afterLine_length_lt h
  unfold readItem
  split
  · exact absurd rfl h
  · split
    · exact hline
    · split
      · exact hline
      · rw [readKeyValue]
        dsimp only
        split
        · split
          case h_1 body heq =>
            have hsub : 91 :: body <:+ _ :=
              heq ▸ (List.dropWhile_suffix isBlank).trans
                ((List.drop_suffix 1 _).trans (List.dropWhile_suffix (· != 61)))
            have hbody := hsub.length_le
            have hscan := (arrayScan_suffix 1 false body).length_le
            rw [List.length_cons] at hbody
            rw [List.length_drop]
            omega
          case h_2 => exact hline
        · exact hline

/-- More turns than the buffer has bytes find nothing more. -/
theorem policyItemsLoop_fuel {m n : Nat} {buf : Bytes} (hm : buf.length ≤ m)
    (hn : buf.length ≤ n) : policyItemsLoop m buf = policyItemsLoop n buf := by
  induction m generalizing n buf with
  | zero => rw [List.length_eq_zero_iff.mp (Nat.le_zero.mp hm)]; cases n <;> rfl
  | succ m ih =>
      cases n with
      | zero => rw [List.length_eq_zero_iff.mp (Nat.le_zero.mp hn)]; rfl
      | succ n =>
          rw [policyItemsLoop, policyItemsLoop]
          split
          case isTrue => rfl
          case isFalse hb =>
            have hlt := readItem_length_lt hb
            have hle : (buf.dropWhile isBlank).length ≤ buf.length :=
              (List.dropWhile_suffix isBlank).length_le
            rw [ih (n := n) (by omega) (by omega)]

/-- The items of a buffer: those of its first turn, then the rest. -/
theorem policyItems_eq (buf : Bytes) :
    policyItems buf =
      if buf.dropWhile isBlank = [] then []
      else
        (readItem (buf.dropWhile isBlank)).1
          :: policyItems (readItem (buf.dropWhile isBlank)).2 := by
  have hle : (buf.dropWhile isBlank).length ≤ buf.length :=
    (List.dropWhile_suffix isBlank).length_le
  rw [policyItems, policyItemsLoop_fuel le_rfl (Nat.le_succ _), policyItemsLoop]
  split
  case isTrue => rfl
  case isFalse hb =>
    have hlt := readItem_length_lt hb
    rw [policyItems, policyItemsLoop_fuel (m := buf.length) (by omega) le_rfl]

theorem policyItems_cons {c : UInt8} (hc : isBlank c = false) (cs : Bytes) :
    policyItems (c :: cs) = (readItem (c :: cs)).1 :: policyItems (readItem (c :: cs)).2 := by
  have hdrop : (c :: cs).dropWhile isBlank = c :: cs := by simp [hc]
  rw [policyItems_eq, hdrop, if_neg (List.cons_ne_nil c cs)]

theorem policyItems_blanks {ws : Bytes} (h : Blanks ws) (buf : Bytes) :
    policyItems (ws ++ buf) = policyItems buf := by
  rw [policyItems_eq, policyItems_eq buf, List.dropWhile_append_of_pos h]

/-! ### Line ends -/

/-- After a line stands its end and then `b`, or nothing at all. -/
inductive LineEnd : Bytes → Bytes → Prop
  | eof : LineEnd [] []
  | eol {e b : Bytes} : Eol e → LineEnd (e ++ b) b

/-- The line up to its end, with the CR of a CRLF. -/
theorem LineEnd.lineOf {rest b x : Bytes} (h : LineEnd rest b) (hx : 10 ∉ x) :
    ∃ cr, Spaces cr ∧ 10 ∉ cr ∧ Shakti.lineOf (x ++ rest) = x ++ cr := by
  have hall : ∀ c ∈ x, (c != 10) = true := fun c hc => by
    simpa using ne_of_mem_of_not_mem hc hx
  rw [Shakti.lineOf, List.takeWhile_append_of_pos hall]
  cases h with
  | eof => exact ⟨[], by simp [Spaces], by simp, rfl⟩
  | eol he =>
      rcases he with rfl | rfl
      · exact ⟨[], by simp [Spaces], by simp, by simp⟩
      · exact ⟨[13], by simp [Spaces, isTrimmed], by decide, by simp⟩

theorem LineEnd.afterLine {rest b x : Bytes} (h : LineEnd rest b) (hx : 10 ∉ x) :
    Shakti.afterLine (x ++ rest) = b := by
  have hall : ∀ c ∈ x, (c != 10) = true := fun c hc => by
    simpa using ne_of_mem_of_not_mem hc hx
  rw [Shakti.afterLine, List.dropWhile_append_of_pos hall]
  cases h with
  | eof => rfl
  | eol he => rcases he with rfl | rfl <;> simp

/-- A line end says nothing. -/
theorem LineEnd.significant {rest b : Bytes} (h : LineEnd rest b) :
    significant (policyItems rest) = Shakti.significant (policyItems b) := by
  cases h with
  | eof => rfl
  | eol he =>
      rcases he with rfl | rfl
      · have hread : readItem (10 :: b) = (.skip, b) := by simp [readItem, Shakti.afterLine]
        rw [List.singleton_append, policyItems_cons (by decide), hread, significant_cons_skip]
      · have hread : readItem (13 :: 10 :: b) = (.skip, b) := by
          simp [readItem, Shakti.afterLine]
        rw [List.cons_append, List.singleton_append, policyItems_cons (by decide), hread,
          significant_cons_skip]

theorem significant_blank {rest b ws : Bytes} (h : LineEnd rest b) (hws : Blanks ws) :
    significant (policyItems (ws ++ rest)) = significant (policyItems b) := by
  rw [policyItems_blanks hws, h.significant]

theorem significant_comment {rest b ws c : Bytes} (h : LineEnd rest b) (hws : Blanks ws)
    (hc : 10 ∉ c) :
    significant (policyItems (ws ++ (35 :: c ++ rest))) = significant (policyItems b) := by
  have hread : readItem (35 :: c ++ rest) = (.skip, b) := by
    rw [← h.afterLine (x := 35 :: c) (by simpa using hc)]
    simp [readItem]
  rw [policyItems_blanks hws, List.cons_append, policyItems_cons (by decide),
    ← List.cons_append, hread, significant_cons_skip]

/-- The rest of a line after an array, less the byte that is skipped there, says
nothing. -/
theorem Trail.significant_drop {t rest b : Bytes} (ht : Trail t) (h : LineEnd rest b) :
    significant (policyItems ((t ++ rest).drop 1)) = significant (policyItems b) := by
  cases ht with
  | blank hws =>
      cases t with
      | nil =>
          cases h with
          | eof => rfl
          | eol he =>
              rcases he with rfl | rfl
              · rfl
              · exact (LineEnd.eol (e := [10]) (Or.inl rfl)).significant
      | cons w t => exact significant_blank h (fun c hc => hws c (List.mem_cons_of_mem _ hc))
  | @comment ws c hws hne hc =>
      cases ws with
      | nil => exact absurd rfl hne
      | cons w ws =>
          rw [List.append_assoc, List.cons_append, List.drop_one, List.tail_cons]
          exact significant_comment h (fun c hc => hws c (List.mem_cons_of_mem _ hc)) hc

theorem Trail.oneLine {t : Bytes} (h : Trail t) : 10 ∉ t := by
  have hblank : ∀ {ws : Bytes}, Blanks ws → (10 : UInt8) ∉ ws :=
    fun hws hmem => absurd (hws 10 hmem) (by decide)
  cases h with
  | blank hws => exact hblank hws
  | comment hws _ hc => simpa [hc] using hblank hws

/-! ### Headers -/

theorem BareKey.wordByte {key : CStr} (h : BareKey key) : ∀ c ∈ key.bytes, WordByte c :=
  fun c hc => Or.inr (h.2 c hc)

theorem BareKey.tight {key : CStr} (h : BareKey key) : Tight key.bytes :=
  tight_of_forall h.1 fun c hc => (h.wordByte c hc).not_isTrimmed

/-- A byte that no key contains. -/
theorem BareKey.not_mem {key : CStr} (h : BareKey key) {c : UInt8} (hc : ¬ WordByte c) :
    c ∉ key.bytes :=
  fun hmem => hc (h.wordByte c hmem)

theorem shkCopyTrim_self {s : CStr} (h : Tight s.bytes) : shkCopyTrim s.bytes = s := by
  rw [shkCopyTrim_tight h, CStr.read_bytes_self]

theorem readItem_header {name : CStr} {t rest b : Bytes}
    (hname : name = cstr "defaults" ∨ name = cstr "rules") (ht : 10 ∉ t) (h : LineEnd rest b) :
    readItem (headerText name ++ t ++ rest) = (.header name, b) := by
  have hkey : BareKey name := by
    rcases hname with rfl | rfl <;> exact ⟨by decide +kernel, by decide +kernel⟩
  have hclose : (93 : UInt8) ∉ name.bytes := hkey.not_mem (by decide)
  have hline : 10 ∉ headerText name ++ t := by
    have hlf : (10 : UInt8) ∉ name.bytes := hkey.not_mem (by decide)
    rw [headerText]
    split <;> simp [hlf, ht]
  obtain ⟨cr, -, -, hof⟩ := h.lineOf hline
  have hread : readHeader (headerText name ++ t ++ rest) = (.header name, b) := by
    rw [readHeader, h.afterLine hline, hof, headerText]
    split
    case isTrue =>
      -- `[[name]]`: the second byte is a bracket too.
      simp only [List.cons_append, List.append_assoc, List.getD_cons_succ, List.getD_cons_zero,
        if_pos, List.drop_succ_cons, List.drop_zero, List.nil_append]
      rw [Scan.takeWhile_ne_append hclose, shkCopyTrim_self hkey.tight]
    case isFalse =>
      have hopen : (91 : UInt8) ∉ name.bytes := hkey.not_mem (by decide)
      have hsecond : (name.bytes ++ 93 :: (t ++ cr)).getD 0 0 ≠ 91 := by
        obtain ⟨c, cs, hbytes⟩ := List.exists_cons_of_ne_nil hkey.1
        rw [hbytes, List.mem_cons, not_or] at hopen
        rw [hbytes, List.cons_append, List.getD_cons_zero]
        exact Ne.symm hopen.1
      simp only [List.cons_append, List.append_assoc, List.getD_cons_succ,
        List.drop_succ_cons, List.drop_zero, List.nil_append]
      rw [if_neg hsecond, Scan.takeWhile_ne_append hclose, shkCopyTrim_self hkey.tight]
  rw [← hread, headerText]
  split <;> rfl

/-! ### Keys and values -/

/-- A key line: past its `=` and the blanks after it, an opening bracket starts an array,
and anything else a scalar. -/
theorem readKeyValue_split {key : CStr} {pre after : Bytes} (hlf : 10 ∉ pre) (heq : 61 ∉ pre)
    (hkey : shkCopyTrim pre = key) :
    (∀ body, after.dropWhile isBlank = 91 :: body →
      readKeyValue (pre ++ 61 :: after) =
        (.keyValue key
            (shkCopyTrim (after.takeWhile isBlank ++ 91 :: (arrayScan 1 false body).1)),
          (arrayScan 1 false body).2.drop 1)) ∧
    ((∀ body, after.dropWhile isBlank ≠ 91 :: body) →
      readKeyValue (pre ++ 61 :: after) =
        (.keyValue key (shkCopyTrim (scalarScan false (lineOf after))),
          afterLine (pre ++ 61 :: after))) := by
  have hline : lineOf (pre ++ 61 :: after) = pre ++ 61 :: lineOf after := by
    rw [lineOf, List.takeWhile_append_of_pos
      (fun c hc => by simpa using ne_of_mem_of_not_mem hc hlf)]
    simp [lineOf]
  have hafter : ((pre ++ 61 :: after).dropWhile (· != 61)).drop 1 = after := by
    rw [Scan.dropWhile_ne_append heq]
    rfl
  unfold readKeyValue
  dsimp only
  rw [hline, hafter, Scan.takeWhile_ne_append heq, hkey, if_pos (by simp)]
  constructor
  · intro body hbody
    split
    case h_1 body' hopen =>
      obtain rfl : body = body' := (List.cons.inj (hbody.symm.trans hopen)).2
      rfl
    case h_2 hnot => exact absurd hbody (hnot body)
  · intro hnot
    split
    case h_1 body hopen => exact absurd hopen (hnot body)
    case h_2 => rfl

/-- The blanks before a value, and the value. -/
theorem span_blanks {ws : Bytes} (hws : Blanks ws) {c : UInt8} (hc : isBlank c = false)
    (cs : Bytes) :
    (ws ++ c :: cs).takeWhile isBlank = ws ∧ (ws ++ c :: cs).dropWhile isBlank = c :: cs := by
  rw [List.takeWhile_append_of_pos hws, List.dropWhile_append_of_pos hws]
  simp [hc]

/-- The comment and the blanks after a scalar are trimmed away. -/
theorem Trail.scalarScan {t cr : Bytes} (ht : Trail t) (hcr : Spaces cr) :
    Spaces (Shakti.scalarScan false (t ++ cr)) := by
  have hpass : ∀ {s : Bytes}, Spaces s → ∀ c ∈ s, c ≠ 34 ∧ c ≠ 35 := fun hs c hc =>
    ⟨fun h => absurd (h ▸ hs c hc) (by decide), fun h => absurd (h ▸ hs c hc) (by decide)⟩
  cases ht with
  | blank hws =>
      have hall := hws.spaces.append hcr
      rw [← List.append_nil (t ++ cr), scalarScan_pass (hpass hall)]
      simpa [Shakti.scalarScan] using hall
  | comment hws _ _ =>
      rw [List.append_assoc, scalarScan_pass (hpass hws.spaces)]
      simpa [Shakti.scalarScan] using hws.spaces

/-- A key line whose value is no array: the value is scanned to the end of the line. -/
theorem readKeyValue_line {key : CStr} {pre after rest b : Bytes} (hlf : 10 ∉ pre)
    (heq : 61 ∉ pre) (hkey : shkCopyTrim pre = key) (hafter : 10 ∉ after)
    (hnot : ∀ body, after.dropWhile isBlank ≠ 91 :: body) (h : LineEnd rest b) :
    ∃ cr, Spaces cr ∧ readKeyValue (pre ++ 61 :: (after ++ rest)) =
      (.keyValue key (shkCopyTrim (scalarScan false (after ++ cr))), b) := by
  obtain ⟨cr, hcr, -, hof⟩ := h.lineOf hafter
  refine ⟨cr, hcr, ?_⟩
  have hend : afterLine (pre ++ 61 :: (after ++ rest)) = b := by
    have hwhole : 10 ∉ pre ++ 61 :: after := by simp [hlf, hafter]
    simpa using h.afterLine hwhole
  have hnot' : ∀ body, (after ++ rest).dropWhile isBlank ≠ 91 :: body := by
    intro body hbody
    rw [List.dropWhile_append] at hbody
    split at hbody
    case isTrue =>
      cases h with
      | eof => cases hbody
      | eol he => rcases he with rfl | rfl <;> simp [isBlank] at hbody
    case isFalse hne =>
      cases hd : after.dropWhile isBlank with
      | nil => simp [hd] at hne
      | cons c cs =>
          rw [hd, List.cons_append] at hbody
          exact hnot cs (by rw [hd, (List.cons.inj hbody).1])
  rw [(readKeyValue_split hlf heq hkey).2 hnot', hof, hend]

/-- A line with a scalar value. -/
theorem readKeyValue_scalar {key text : CStr} {pre ws t rest b : Bytes} (hlf : 10 ∉ pre)
    (heq : 61 ∉ pre) (hkey : shkCopyTrim pre = key) (hws : Blanks ws)
    (hs : ScalarText text.bytes) (ht : Trail t) (h : LineEnd rest b) :
    readKeyValue (pre ++ 61 :: (ws ++ (text.bytes ++ (t ++ rest)))) = (.keyValue key text, b) := by
  have hblank : (10 : UInt8) ∉ ws := fun hmem => absurd (hws 10 hmem) (by decide)
  have hline : 10 ∉ ws ++ (text.bytes ++ t) := by simp [hblank, hs.oneLine, ht.oneLine]
  have hpass : ∀ c ∈ ws, c ≠ 34 ∧ c ≠ 35 := fun c hc =>
    ⟨fun hq => absurd (hq ▸ hws c hc) (by decide), fun hq => absurd (hq ▸ hws c hc) (by decide)⟩
  obtain ⟨first, last, hfirst, -, hf, -⟩ := hs.tight
  obtain ⟨cs, htext⟩ : ∃ cs, text.bytes = first :: cs := by
    cases hbytes : text.bytes with
    | nil => simp [hbytes] at hfirst
    | cons c cs =>
        rw [hbytes, List.head?_cons, Option.some.injEq] at hfirst
        exact ⟨cs, by rw [hfirst]⟩
  have hnotBlank : isBlank first = false := by
    by_contra hblank
    rw [isTrimmed_of_isBlank (by simpa using hblank)] at hf
    exact absurd hf (by decide)
  have hnot : ∀ body, (ws ++ (text.bytes ++ t)).dropWhile isBlank ≠ 91 :: body := by
    intro body hbody
    rw [htext, List.cons_append, (span_blanks hws hnotBlank _).2] at hbody
    exact hs.noBracket (hfirst.trans (congrArg some (List.cons.inj hbody).1))
  obtain ⟨cr, hcr, hread⟩ := readKeyValue_line hlf heq hkey hline hnot h
  -- The value is trimmed out of what the scan leaves of the line.
  have hvalue : shkCopyTrim (scalarScan false (ws ++ (text.bytes ++ (t ++ cr)))) = text := by
    rw [scalarScan_pass hpass, hs.scan]
    exact shkCopyTrim_pad hws.spaces hs.tight (ht.scalarScan hcr)
  simp only [List.append_assoc] at hread
  rw [hread, hvalue]

/-- A line with an array value: the rest of the line is left over, less one byte. -/
theorem readKeyValue_array {key text : CStr} {entries : List CStr} {pre ws body rest : Bytes}
    (hlf : 10 ∉ pre) (heq : 61 ∉ pre) (hkey : shkCopyTrim pre = key) (hws : Blanks ws)
    (hbody : ArrayText entries body) (htext : text.bytes = 91 :: (body ++ [93])) :
    readKeyValue (pre ++ 61 :: (ws ++ (text.bytes ++ rest)))
      = (.keyValue key text, rest.drop 1) := by
  have htight : Tight text.bytes := htext ▸ tight_brackets body
  have hvalue : text.bytes ++ rest = 91 :: (body ++ 93 :: rest) := by
    rw [htext]
    simp
  obtain ⟨htake, hdrop⟩ := span_blanks hws (c := 91) (by decide) (body ++ 93 :: rest)
  have htrim := shkCopyTrim_pad (b := []) hws.spaces htight (by simp [Spaces])
  rw [List.append_nil, htext] at htrim
  rw [hvalue, (readKeyValue_split hlf heq hkey).1 _ hdrop, htake]
  simp only [hbody.arrayScan, htrim]

/-! ### Lines -/

theorem significant_cons (item : Item) (items items' : List Item)
    (h : significant items = significant items') :
    significant (item :: items) = significant (item :: items') := by
  rw [significant, significant, List.filter_cons, List.filter_cons]
  rw [significant, significant] at h
  rw [h]

theorem significant_header {name : CStr} {ws t rest b : Bytes}
    (hname : name = cstr "defaults" ∨ name = cstr "rules") (hws : Blanks ws) (ht : 10 ∉ t)
    (h : LineEnd rest b) :
    significant (policyItems (ws ++ (headerText name ++ t) ++ rest))
      = significant (.header name :: policyItems b) := by
  have hread := readItem_header hname ht h
  obtain ⟨cs, hopen⟩ : ∃ cs, headerText name ++ t ++ rest = 91 :: cs := by
    rw [headerText]
    split <;> exact ⟨_, rfl⟩
  rw [List.append_assoc, policyItems_blanks hws, hopen, policyItems_cons (by decide), ← hopen,
    hread]

/-- What stands before the `=` of a key line. -/
theorem BareKey.lead {key : CStr} {ws₁ : Bytes} (hkey : BareKey key) (hws₁ : Blanks ws₁) :
    10 ∉ key.bytes ++ ws₁ ∧ 61 ∉ key.bytes ++ ws₁ ∧ shkCopyTrim (key.bytes ++ ws₁) = key := by
  have hnot : ∀ {c : UInt8}, ¬ WordByte c → isBlank c = false → c ∉ key.bytes ++ ws₁ := by
    intro c hword hblank hmem
    rcases List.mem_append.mp hmem with hmem | hmem
    · exact hkey.not_mem hword hmem
    · rw [hws₁ c hmem] at hblank
      exact absurd hblank (by decide)
  exact ⟨hnot (by decide) (by decide), hnot (by decide) (by decide),
    shkCopyTrim_pad (a := []) (by simp [Spaces]) hkey.tight hws₁.spaces⟩

/-- A turn at a key line. -/
theorem policyItems_key {key : CStr} {ws ws₁ : Bytes} (hws : Blanks ws) (hkey : BareKey key)
    (after : Bytes) :
    policyItems (ws ++ (key.bytes ++ (ws₁ ++ 61 :: after))) =
      (readKeyValue (key.bytes ++ ws₁ ++ 61 :: after)).1 ::
        policyItems (readKeyValue (key.bytes ++ ws₁ ++ 61 :: after)).2 := by
  obtain ⟨c, cs, hbytes⟩ := List.exists_cons_of_ne_nil hkey.1
  have hc : WordByte c := hkey.wordByte c (by simp [hbytes])
  have hblank : isBlank c = false := by
    by_contra hblank
    have htrimmed := isTrimmed_of_isBlank (by simpa using hblank)
    rw [hc.not_isTrimmed] at htrimmed
    exact absurd htrimmed (by decide)
  have hne : ∀ c', ¬ WordByte c' → c ≠ c' := fun _ hc' h => hc' (h ▸ hc)
  have hturn : readItem (c :: (cs ++ ws₁ ++ 61 :: after))
      = readKeyValue (key.bytes ++ ws₁ ++ 61 :: after) := by
    rw [hbytes, readItem, if_neg (by simp [hne 35 (by decide), hne 10 (by decide),
      hne 13 (by decide)]), if_neg (hne 91 (by decide))]
    rfl
  have hbuf : key.bytes ++ (ws₁ ++ 61 :: after) = c :: (cs ++ ws₁ ++ 61 :: after) := by
    simp [hbytes]
  rw [hbuf, policyItems_blanks hws, policyItems_cons hblank, hturn]

theorem significant_keyValue {key text : CStr} {v : Value} {ws ws₁ ws₂ t rest b : Bytes}
    (hws : Blanks ws) (hkey : BareKey key) (hws₁ : Blanks ws₁) (hws₂ : Blanks ws₂)
    (hv : ValueText v text) (ht : Trail t) (h : LineEnd rest b) :
    significant (policyItems
        (ws ++ (key.bytes ++ (ws₁ ++ 61 :: (ws₂ ++ (text.bytes ++ t)))) ++ rest))
      = significant (.keyValue key text :: policyItems b) := by
  obtain ⟨hlf, heq, htrim⟩ := hkey.lead hws₁
  have hbuf : ws ++ (key.bytes ++ (ws₁ ++ 61 :: (ws₂ ++ (text.bytes ++ t)))) ++ rest
      = ws ++ (key.bytes ++ (ws₁ ++ 61 :: (ws₂ ++ (text.bytes ++ (t ++ rest))))) := by
    simp
  rw [hbuf, policyItems_key hws hkey]
  rcases hv.scalar_or_array with hs | ⟨entries, body, hbody, htext⟩
  · rw [readKeyValue_scalar hlf heq htrim hws₂ hs ht h]
  · rw [readKeyValue_array hlf heq htrim hws₂ hbody htext]
    exact significant_cons _ _ _ (ht.significant_drop h)

/-- A line is read as its item, and the reader goes on at the next line. -/
theorem LineText.significant {line rest b : Bytes} {item : Item} (hline : LineText line item)
    (h : LineEnd rest b) :
    Shakti.significant (policyItems (line ++ rest))
      = Shakti.significant (item :: policyItems b) := by
  cases hline with
  | blank hws => rw [significant_blank h hws, significant_cons_skip]
  | comment hws hc =>
      rw [List.append_assoc, significant_comment h hws hc, significant_cons_skip]
  | header hname hws ht => exact significant_header hname hws ht.oneLine h
  | keyValue hws hkey hws₁ hws₂ hv ht =>
      exact significant_keyValue hws hkey hws₁ hws₂ hv ht h

/-- **The items of a text are those of its lines**, up to items that say nothing. -/
theorem significant_policyItems {text : Bytes} {items : List Item} (h : Lines text items) :
    significant (policyItems text) = significant items := by
  induction h with
  | nil => rfl
  | @last line item hline =>
      have hread := hline.significant LineEnd.eof
      rwa [List.append_nil] at hread
  | cons hline he _ ih =>
      rw [hline.significant (LineEnd.eol he)]
      exact significant_cons _ _ _ ih

end Shakti
