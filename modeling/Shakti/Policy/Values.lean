import Shakti.Policy.Arrays
import Shakti.Policy.Render

/-!
# Shakti.Policy.Values

What the value readers make of values in the documented format.

A value is read twice: a scan finds where it ends in the text (`scalarScan`,
`arrayScan`), and a reader turns it into what it denotes (`_shk_unquote`,
`_shk_parse_int`, `_shk_parse_bool`, `_shk_parse_str_array`). Both pass over the whole of
a value written by `ValueText`, and the reader gives back the value.
-/

namespace Shakti

/-! ### Trimming -/

theorem isTrimmed_of_isBlank {c : UInt8} (h : isBlank c = true) : isTrimmed c = true := by
  simp only [isBlank, isTrimmed, Bool.or_eq_true, beq_iff_eq] at h ⊢
  rcases h with h | h <;> simp [h]

theorem Blanks.spaces {ws : Bytes} (h : Blanks ws) : Spaces ws :=
  fun c hc => isTrimmed_of_isBlank (h c hc)

theorem Spaces.append {a b : Bytes} (ha : Spaces a) (hb : Spaces b) : Spaces (a ++ b) :=
  fun c hc => (List.mem_append.mp hc).elim (ha c) (hb c)

/-- Text that starts and ends with bytes that are not trimmed. -/
def Tight (s : Bytes) : Prop :=
  ∃ first last, s.head? = some first ∧ s.getLast? = some last ∧
    isTrimmed first = false ∧ isTrimmed last = false

theorem Tight.dropWhile {s : Bytes} (h : Tight s) (rest : Bytes) :
    (s ++ rest).dropWhile isTrimmed = s ++ rest := by
  obtain ⟨first, last, hfirst, -, hf, -⟩ := h
  cases s with
  | nil => simp at hfirst
  | cons c cs =>
      obtain rfl : c = first := by simpa using hfirst
      simp [hf]

/-- Spaces around a slice are trimmed away. -/
theorem shkCopyTrim_spaces {a b : Bytes} (ha : Spaces a) (hb : Spaces b) (x : Bytes) :
    shkCopyTrim (a ++ (x ++ b)) = shkCopyTrim x := by
  have hright : ((x ++ b).dropWhile isTrimmed).reverse.dropWhile isTrimmed =
      (x.dropWhile isTrimmed).reverse.dropWhile isTrimmed := by
    rw [List.dropWhile_append]
    split
    case isTrue hx =>
      have hnil : x.dropWhile isTrimmed = [] := by simpa using hx
      rw [hnil, List.dropWhile_eq_nil_iff.mpr hb]
    case isFalse =>
      rw [List.reverse_append,
        List.dropWhile_append_of_pos fun c hc => hb c (List.mem_reverse.mp hc)]
  rw [shkCopyTrim, List.dropWhile_append_of_pos ha, hright, shkCopyTrim]

theorem Tight.reverse {s : Bytes} (h : Tight s) : Tight s.reverse := by
  obtain ⟨first, last, hfirst, hlast, hf, hl⟩ := h
  exact ⟨last, first, by simpa using hlast, by simpa using hfirst, hl, hf⟩

/-- Of a tight slice nothing is trimmed. -/
theorem shkCopyTrim_tight {x : Bytes} (h : Tight x) : shkCopyTrim x = CStr.read x := by
  have hleft : x.dropWhile isTrimmed = x := by simpa using h.dropWhile []
  have hright : x.reverse.dropWhile isTrimmed = x.reverse := by simpa using h.reverse.dropWhile []
  rw [shkCopyTrim, hleft, hright, List.reverse_reverse]

/-- Trimming a slice leaves what stands between the spaces. -/
theorem shkCopyTrim_pad {a b : Bytes} {s : CStr} (ha : Spaces a) (hs : Tight s.bytes)
    (hb : Spaces b) : shkCopyTrim (a ++ (s.bytes ++ b)) = s := by
  rw [shkCopyTrim_spaces ha hb, shkCopyTrim_tight hs, CStr.read_bytes_self]

/-- Text of bytes that are not trimmed. -/
theorem tight_of_forall {s : Bytes} (hne : s ≠ []) (h : ∀ c ∈ s, isTrimmed c = false) :
    Tight s :=
  ⟨s.head hne, s.getLast hne, List.head?_eq_some_head hne, List.getLast?_eq_some_getLast hne,
    h _ (List.head_mem hne), h _ (List.getLast_mem hne)⟩

/-- Between its brackets an array value is tight. -/
theorem tight_brackets (x : Bytes) : Tight (91 :: (x ++ [93])) := by
  refine ⟨91, 93, rfl, ?_, by decide, by decide⟩
  rw [← List.cons_append, List.getLast?_concat]

/-! ### Scalars -/

/-- What the reader of a line relies on in a scalar value: nothing to trim, no line end,
no opening bracket in front, and closed quotes. -/
structure ScalarText (s : Bytes) : Prop where
  tight : Tight s
  oneLine : 10 ∉ s
  noBracket : s.head? ≠ some 91
  scan : ∀ l, scalarScan false (s ++ l) = s ++ scalarScan false l

/-- Bytes that neither open a string nor start a comment are passed over. -/
theorem scalarScan_pass {s : Bytes} (h : ∀ c ∈ s, c ≠ 34 ∧ c ≠ 35) (l : Bytes) :
    scalarScan false (s ++ l) = s ++ scalarScan false l := by
  induction s with
  | nil => rfl
  | cons c cs ih =>
      obtain ⟨hquote, hhash⟩ := h c (List.mem_cons_self ..)
      rw [List.cons_append, scalarScan, if_neg hquote, if_neg (by simp [hhash]),
        ih (fun c' hc' => h c' (List.mem_cons_of_mem _ hc')), List.cons_append]

/-- Inside a string everything is passed over up to the closing quote. -/
theorem scalarScan_string {s : Bytes} (h : (34 : UInt8) ∉ s) (l : Bytes) :
    scalarScan true (s ++ 34 :: l) = s ++ 34 :: scalarScan false l := by
  induction s with
  | nil => simp [scalarScan]
  | cons c cs ih =>
      rw [List.mem_cons, not_or] at h
      rw [List.cons_append, scalarScan, if_neg (Ne.symm h.1), if_neg (by simp), ih h.2,
        List.cons_append]

theorem Quotable.noQuote {s : CStr} (h : Quotable s) : (34 : UInt8) ∉ s.bytes :=
  fun hmem => (h 34 hmem).1 rfl

theorem scalarText_quoted {s : CStr} (h : Quotable s) : ScalarText (quoted s) where
  tight := ⟨34, 34, rfl, by rw [quoted, ← List.cons_append, List.getLast?_concat], by decide,
    by decide⟩
  oneLine hmem := by
    rw [quoted, List.mem_cons, List.mem_append] at hmem
    rcases hmem with hmem | hmem | hmem
    · exact absurd hmem (by decide)
    · exact (h 10 hmem).2.1 rfl
    · exact absurd hmem (by decide)
  noBracket := by simp [quoted]
  scan l := by
    have hin := scalarScan_string h.noQuote l
    rw [quoted, List.cons_append, List.append_assoc, List.singleton_append, scalarScan,
      if_pos rfl, Bool.not_false, hin]
    simp

/-- A byte of a number, a keyword or a key. -/
def WordByte (c : UInt8) : Prop := (48 ≤ c ∧ c ≤ 57) ∨ (97 ≤ c ∧ c ≤ 122) ∨ c = 95

instance (c : UInt8) : Decidable (WordByte c) := inferInstanceAs (Decidable (_ ∨ _))

theorem WordByte.not_isTrimmed {c : UInt8} (h : WordByte c) : isTrimmed c = false := by
  simp only [isTrimmed, Bool.or_eq_false_iff, beq_eq_false_iff_ne]
  refine ⟨⟨⟨?_, ?_⟩, ?_⟩, ?_⟩ <;> (rintro rfl; revert h; decide)

/-- Numbers and keywords. -/
theorem scalarText_word {s : Bytes} (hne : s ≠ []) (h : ∀ c ∈ s, WordByte c) :
    ScalarText s where
  tight := tight_of_forall hne fun c hc => (h c hc).not_isTrimmed
  oneLine hmem := absurd (h 10 hmem) (by decide)
  noBracket hhead := absurd (h 91 (List.mem_of_mem_head? hhead)) (by decide)
  scan l := scalarScan_pass (fun c hc =>
    ⟨fun hq => absurd (hq ▸ h c hc) (by decide), fun hq => absurd (hq ▸ h c hc) (by decide)⟩) l

/-! ### Arrays -/

/-- The bracket scan of an array passes over the bytes. -/
def ScanPasses (s : Bytes) : Prop :=
  ∀ rest, arrayScan 1 false (s ++ rest)
    = (s ++ (arrayScan 1 false rest).1, (arrayScan 1 false rest).2)

theorem ScanPasses.append {a b : Bytes} (ha : ScanPasses a) (hb : ScanPasses b) :
    ScanPasses (a ++ b) := by
  intro rest
  rw [List.append_assoc, ha, hb, List.append_assoc]

theorem scanPasses_nil : ScanPasses [] := fun _ => rfl

/-- A byte that is neither a quote nor a bracket. -/
theorem scanPasses_cons {c : UInt8} (hc : c ≠ 34 ∧ c ≠ 91 ∧ c ≠ 93) {s : Bytes}
    (hs : ScanPasses s) : ScanPasses (c :: s) := by
  intro rest
  rw [List.cons_append, arrayScan, if_neg (by simp), if_neg hc.1, if_neg hc.2.1, if_neg hc.2.2,
    hs rest, List.cons_append]

theorem scanPasses_spaces {ws : Bytes} (h : Spaces ws) : ScanPasses ws := by
  induction ws with
  | nil => exact scanPasses_nil
  | cons c cs ih =>
      have hc := h c (List.mem_cons_self ..)
      refine scanPasses_cons ⟨?_, ?_, ?_⟩ (ih fun c' hc' => h c' (List.mem_cons_of_mem _ hc'))
      all_goals
        rintro rfl
        exact absurd hc (by decide)

/-- Inside a string brackets do not count. -/
theorem arrayScan_string {s : Bytes} (h : (34 : UInt8) ∉ s) (rest : Bytes) :
    arrayScan 1 true (s ++ 34 :: rest)
      = (s ++ 34 :: (arrayScan 1 false rest).1, (arrayScan 1 false rest).2) := by
  induction s with
  | nil => simp [arrayScan]
  | cons c cs ih =>
      rw [List.mem_cons, not_or] at h
      have hc : (c != 34) = true := by simpa using Ne.symm h.1
      rw [List.cons_append, arrayScan, if_pos rfl, hc, ih h.2]
      simp

theorem scanPasses_quoted {s : CStr} (h : Quotable s) : ScanPasses (quoted s) := by
  intro rest
  have hin := arrayScan_string h.noQuote rest
  rw [quoted, List.cons_append, List.append_assoc, List.singleton_append, arrayScan,
    if_neg (by simp), if_pos rfl, hin]
  simp

theorem ArrayText.scanPasses {entries : List CStr} {body : Bytes} (h : ArrayText entries body) :
    ScanPasses body := by
  induction h with
  | nil hws => exact scanPasses_spaces hws
  | last hws₁ hq hws₂ =>
      exact (scanPasses_spaces hws₁).append ((scanPasses_quoted hq).append (scanPasses_spaces hws₂))
  | cons hws₁ hq hws₂ _ ih =>
      exact (scanPasses_spaces hws₁).append ((scanPasses_quoted hq).append
        ((scanPasses_spaces hws₂).append (scanPasses_cons (by decide) ih)))

/-- The scan of an array ends at its closing bracket. -/
theorem ArrayText.arrayScan {entries : List CStr} {body : Bytes} (h : ArrayText entries body)
    (rest : Bytes) : Shakti.arrayScan 1 false (body ++ 93 :: rest) = (body ++ [93], rest) := by
  rw [h.scanPasses]
  simp [Shakti.arrayScan]

theorem skipComma_spaces {ws : Bytes} (h : Spaces ws) (rest : Bytes) :
    skipComma (ws ++ rest) = skipComma rest := by
  induction ws with
  | nil => rfl
  | cons c cs ih =>
      have hc := h c (List.mem_cons_self ..)
      have hne : c ≠ 44 := by
        rintro rfl
        exact absurd hc (by decide)
      rw [List.cons_append, skipComma, if_neg hne, if_pos hc,
        ih fun c' hc' => h c' (List.mem_cons_of_mem _ hc')]

/-- A turn of the item loop at a quoted entry. -/
theorem arrayTurn_quoted {ws : Bytes} {s : CStr} (hws : Spaces ws) (h : Quotable s)
    (rest : Bytes) :
    arrayTurn (ws ++ (quoted s ++ rest)) = (some s, skipComma rest) := by
  have hdrop : (ws ++ (quoted s ++ rest)).dropWhile isTrimmed = 34 :: (s.bytes ++ 34 :: rest) := by
    rw [List.dropWhile_append_of_pos hws]
    simp [quoted, isTrimmed]
  rw [arrayTurn, hdrop]
  dsimp only
  rw [if_pos (Or.inl rfl), Scan.takeWhile_ne_append h.noQuote,
    Scan.dropWhile_ne_append h.noQuote, CStr.read_bytes_self]
  rfl

theorem arrayItems_of_turn {body rest : Bytes} {entry : Option CStr} (hne : body ≠ [])
    (h : arrayTurn body = (entry, rest)) :
    arrayItems body.length body = entry.toList ++ arrayItems rest.length rest := by
  have hlt := arrayTurn_length_lt hne
  rw [h] at hlt
  rw [arrayItems_fuel le_rfl (Nat.le_succ _), arrayItems, if_neg hne, h,
    arrayItems_fuel (le_of_lt hlt) le_rfl]

/-- The item loop finds the entries. -/
theorem ArrayText.items {entries : List CStr} {body : Bytes} (h : ArrayText entries body) :
    arrayItems body.length body = entries := by
  induction h with
  | @nil ws hws =>
      cases ws with
      | nil => rfl
      | cons c cs =>
          have hturn : arrayTurn (c :: cs) = (none, []) := by
            rw [arrayTurn, List.dropWhile_eq_nil_iff.mpr hws]
          rw [arrayItems_of_turn (List.cons_ne_nil c cs) hturn]
          rfl
  | @last ws₁ ws₂ entry hws₁ hq hws₂ =>
      have hskip : skipComma ws₂ = [] := by
        rw [← List.append_nil ws₂, skipComma_spaces hws₂]
        rfl
      rw [arrayItems_of_turn (by simp [quoted]) (arrayTurn_quoted hws₁ hq ws₂), hskip]
      rfl
  | @cons ws₁ ws₂ body entry entries hws₁ hq hws₂ _ ih =>
      have hskip : skipComma (ws₂ ++ 44 :: body) = body := by
        rw [skipComma_spaces hws₂, skipComma, if_pos rfl]
      rw [arrayItems_of_turn (by simp [quoted]) (arrayTurn_quoted hws₁ hq _), hskip, ih]
      rfl

/-- A value stands on its line as a scalar, or it is an array. -/
theorem ValueText.scalar_or_array {v : Value} {text : CStr} (h : ValueText v text) :
    ScalarText text.bytes ∨
      ∃ entries body, ArrayText entries body ∧ text.bytes = 91 :: (body ++ [93]) := by
  cases h with
  | string hq htext => exact Or.inl (htext ▸ scalarText_quoted hq)
  | int _ hdec => exact Or.inl (scalarText_word hdec.1 fun c hc => Or.inl (hdec.2.1 c hc))
  | bool b => exact Or.inl (scalarText_word (by cases b <;> decide)
      (by cases b <;> decide +kernel))
  | list hbody htext => exact Or.inr ⟨_, _, hbody, htext⟩

/-! ### The readers -/

/-- Quotes of either kind around a string are taken off. -/
theorem shkUnquote_between {q : UInt8} (hq : IsQuote q) {s text : CStr}
    (h : text.bytes = q :: (s.bytes ++ [q])) : shkUnquote text = s := by
  have hlen : text.length = s.bytes.length + 2 := by simp [CStr.length, h]
  have hfirst : text.load8 0 = q := by simp [CStr.load8, h]
  have hlast : text.load8 (text.length - 1) = q := by
    rw [hlen, CStr.load8, h]
    simp
  have hmid : (text.bytes.drop 1).take (text.length - 2) = s.bytes := by
    rw [hlen, h]
    simp
  rw [shkUnquote, if_neg (by omega), hfirst, hlast, hmid, CStr.read_bytes_self]
  rcases hq with rfl | rfl <;> rfl

theorem shkUnquote_quoted {s text : CStr} (h : text.bytes = quoted s) : shkUnquote text = s :=
  shkUnquote_between (Or.inl rfl) h

/-- Reading on never makes a number smaller. -/
theorem le_foldl_digits (ds : Bytes) (v : Nat) :
    v ≤ ds.foldl (fun v c => v * 10 + (c.toNat - 48)) v := by
  induction ds generalizing v with
  | nil => exact le_rfl
  | cons c cs ih => exact le_trans (by omega) (ih (v * 10 + (c.toNat - 48)))

/-- Digits that keep the number within 32 bits are read. -/
theorem shkParseIntLoop_digits {ds : Bytes} (hds : ∀ c ∈ ds, 48 ≤ c ∧ c ≤ 57) (v : Nat)
    (hmax : ds.foldl (fun v c => v * 10 + (c.toNat - 48)) v ≤ 4294967295) :
    shkParseIntLoop ds v = some (ds.foldl (fun v c => v * 10 + (c.toNat - 48)) v) := by
  induction ds generalizing v with
  | nil => rfl
  | cons c cs ih =>
      obtain ⟨hlo, hhi⟩ := hds c (List.mem_cons_self ..)
      rw [List.foldl_cons] at hmax ⊢
      have hstep : v * 10 + (c.toNat - 48) ≤ 4294967295 :=
        le_trans (le_foldl_digits cs _) hmax
      rw [shkParseIntLoop, if_neg (UInt8.not_lt.mpr hlo), if_neg (UInt8.not_lt.mpr hhi)]
      dsimp only
      rw [if_neg (by omega)]
      exact ih (fun c' hc' => hds c' (List.mem_cons_of_mem _ hc')) _ hmax

theorem shkParseInt_decimal {n : Nat} {text : CStr} (hn : n ≤ 4294967295)
    (h : Decimal n text.bytes) : shkParseInt text = some n := by
  obtain ⟨hne, hdigits, hfold⟩ := h
  have hlen : text.length ≠ 0 := by
    rw [CStr.length]
    exact List.length_pos_iff.mpr hne |>.ne'
  rw [shkParseInt, if_neg hlen, shkParseIntLoop_digits hdigits 0 (by rw [hfold]; exact hn), hfold]

theorem shkParseBool_text (b : Bool) :
    shkParseBool (if b then cstr "true" else cstr "false") = some b := by
  cases b <;> decide

theorem shkParseStrArray_text {entries : List CStr} {body : Bytes} {text : CStr}
    (h : ArrayText entries body) (htext : text.bytes = 91 :: (body ++ [93])) :
    shkParseStrArray text = entries := by
  have hbody : arrayBody (body ++ [93]) = body := arrayBody_append (by simp) body
  rw [shkParseStrArray_bracket htext, hbody, h.items]

end Shakti
