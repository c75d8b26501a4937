import Shakti.Lib.Scan
import Shakti.Policy.Parse

/-!
# Shakti.Policy.Arrays

What the string-array reader makes of any bytes.

`_shk_parse_str_array` has no error result: on text that is no array it returns the
entries it recognised, which may be none. It returns the empty list exactly when the
value has no quote between its opening bracket and its last closing one
(`shkParseStrArray_ne_nil_iff`).
-/

namespace Shakti

/-- A quote character: an entry of an array starts with one. -/
def IsQuote (c : UInt8) : Prop := c = 34 ∨ c = 39

instance (c : UInt8) : Decidable (IsQuote c) := inferInstanceAs (Decidable (_ ∨ _))

theorem IsQuote.not_isTrimmed {c : UInt8} (h : IsQuote c) : isTrimmed c = false := by
  rcases h with rfl | rfl <;> decide

theorem IsQuote.ne_comma {c : UInt8} (h : IsQuote c) : c ≠ 44 := by
  rcases h with rfl | rfl <;> decide

/-! ### One turn of the item loop -/

theorem skipComma_suffix (body : Bytes) : skipComma body <:+ body := by
  induction body with
  | nil => exact List.suffix_refl _
  | cons c cs ih =>
      rw [skipComma]
      split
      · exact List.suffix_cons c cs
      · split
        · exact ih.trans (List.suffix_cons c cs)
        · exact List.suffix_refl _

/-- Skipping loses no quote. -/
theorem mem_skipComma {q : UInt8} (hq : IsQuote q) (body : Bytes) :
    q ∈ skipComma body ↔ q ∈ body := by
  induction body with
  | nil => rfl
  | cons c cs ih =>
      rw [skipComma]
      split
      case isTrue hc => simp [hc, hq.ne_comma]
      case isFalse =>
        split
        case isTrue hc =>
          have hne : q ≠ c := fun h => by simp [← h, hq.not_isTrimmed] at hc
          rw [ih, List.mem_cons, or_iff_right hne]
        case isFalse => rfl

theorem mem_dropWhile_isTrimmed {q : UInt8} (hq : IsQuote q) (body : Bytes) :
    q ∈ body.dropWhile isTrimmed ↔ q ∈ body := by
  induction body with
  | nil => rfl
  | cons c cs ih =>
      rw [List.dropWhile_cons]
      split
      case isTrue hc =>
        have hne : q ≠ c := fun h => by simp [← h, hq.not_isTrimmed] at hc
        rw [ih, List.mem_cons, or_iff_right hne]
      case isFalse => rfl

/-- Every turn reads something. -/
theorem arrayTurn_length_lt {body : Bytes} (h : body ≠ []) :
    (arrayTurn body).2.length < body.length := by
  have hlen : (body.dropWhile isTrimmed).length ≤ body.length :=
    (List.dropWhile_suffix isTrimmed).length_le
  have hpos : 0 < body.length := List.length_pos_iff.mpr h
  rw [arrayTurn]
  cases hd : body.dropWhile isTrimmed with
  | nil => exact hpos
  | cons qchar rest =>
      rw [hd, List.length_cons] at hlen
      simp only
      split
      · have hclose : (skipComma ((rest.dropWhile (· != qchar)).drop 1)).length ≤ rest.length :=
          ((skipComma_suffix _).trans
            ((List.drop_suffix _ _).trans (List.dropWhile_suffix _))).length_le
        exact lt_of_le_of_lt hclose (by omega)
      · have hskip : (skipComma (qchar :: rest)).length ≤ rest.length + 1 :=
          (skipComma_suffix _).length_le
        split
        · rw [List.length_drop]
          omega
        · exact lt_of_le_of_ne (hskip.trans hlen) ‹_›

/-- A turn that finds no entry passes over no quote. -/
theorem mem_arrayTurn_none {body : Bytes} (h : (arrayTurn body).1 = none) {q : UInt8}
    (hq : IsQuote q) : q ∈ (arrayTurn body).2 ↔ q ∈ body := by
  have hmem := mem_dropWhile_isTrimmed hq body
  have hlen : (body.dropWhile isTrimmed).length ≤ body.length :=
    (List.dropWhile_suffix isTrimmed).length_le
  rw [arrayTurn] at h ⊢
  cases hd : body.dropWhile isTrimmed with
  | nil =>
      rw [hd] at hmem
      exact hmem
  | cons qchar rest =>
      rw [hd] at h hmem hlen
      simp only at h ⊢
      split at h
      · simp at h
      case isFalse hnq =>
        rw [if_neg hnq, ← hmem]
        have hskip := skipComma_suffix (qchar :: rest)
        split
        case isTrue hstay =>
          -- Nothing was skipped, so the byte stepped over is `qchar`, no quote.
          have hall : skipComma (qchar :: rest) = qchar :: rest :=
            hskip.eq_of_length_le (by omega)
          have hne : q ≠ qchar := by
            rintro rfl
            exact hnq hq
          rw [hall, List.drop_one, List.tail_cons, List.mem_cons, or_iff_right hne]
        case isFalse => exact mem_skipComma hq _

/-- A turn that finds an entry found its opening quote. -/
theorem exists_quote_of_arrayTurn {body : Bytes} {entry : CStr}
    (h : (arrayTurn body).1 = some entry) : ∃ q ∈ body, IsQuote q := by
  rw [arrayTurn] at h
  cases hd : body.dropWhile isTrimmed with
  | nil => simp [hd] at h
  | cons qchar rest =>
      rw [hd] at h
      simp only at h
      split at h
      case isTrue hq =>
        exact ⟨qchar, (List.dropWhile_suffix isTrimmed).subset (hd ▸ List.mem_cons_self ..), hq⟩
      · simp at h

/-! ### The item loop -/

/-- More turns than the body has bytes find nothing more. -/
theorem arrayItems_fuel {m n : Nat} {body : Bytes} (hm : body.length ≤ m)
    (hn : body.length ≤ n) : arrayItems m body = arrayItems n body := by
  induction m generalizing n body with
  | zero => rw [List.length_eq_zero_iff.mp (Nat.le_zero.mp hm)]; cases n <;> rfl
  | succ m ih =>
      cases n with
      | zero => rw [List.length_eq_zero_iff.mp (Nat.le_zero.mp hn)]; rfl
      | succ n =>
          rw [arrayItems, arrayItems]
          split
          case isTrue => rfl
          case isFalse hb =>
            have hlt := arrayTurn_length_lt hb
            rw [ih (n := n) (by omega) (by omega)]

/-- The loop finds an entry exactly when there is a quote. -/
theorem arrayItems_ne_nil_iff {fuel : Nat} {body : Bytes} (h : body.length ≤ fuel) :
    arrayItems fuel body ≠ [] ↔ ∃ q ∈ body, IsQuote q := by
  induction fuel generalizing body with
  | zero => simp [List.length_eq_zero_iff.mp (Nat.le_zero.mp h), arrayItems]
  | succ fuel ih =>
      by_cases hb : body = []
      · simp [hb, arrayItems]
      · have hlt := arrayTurn_length_lt hb
        rw [arrayItems, if_neg hb]
        cases hentry : (arrayTurn body).1 with
        | none =>
            rw [Option.toList_none, List.nil_append, ih (by omega)]
            exact exists_congr fun q => and_congr_left (mem_arrayTurn_none hentry)
        | some entry => simpa using exists_quote_of_arrayTurn hentry

/-! ### The value -/

/-- An array value with something quoted in it: an opening bracket first, and later a
quote before some closing bracket. -/
def QuotedArray (v : CStr) : Prop :=
  ∃ pre q mid post, v.bytes = 91 :: (pre ++ q :: (mid ++ 93 :: post)) ∧ IsQuote q

/-- An empty array: an opening bracket, whitespace, a closing bracket. -/
def EmptyArray (v : CStr) : Prop :=
  ∃ ws, (∀ c ∈ ws, isTrimmed c = true) ∧ v.bytes = 91 :: (ws ++ [93])

/-- The item list ends at the last closing bracket. -/
theorem arrayBody_append {after : Bytes} (h : (93 : UInt8) ∉ after) (body : Bytes) :
    arrayBody (body ++ 93 :: after) = body := by
  have hrev : (93 : UInt8) ∉ after.reverse := by rwa [List.mem_reverse]
  rw [arrayBody, List.reverse_append, List.reverse_cons, List.append_assoc,
    List.singleton_append, Scan.dropWhile_ne_append hrev, List.drop_one, List.tail_cons,
    List.reverse_reverse]

/-- Without a closing bracket there are no items. -/
theorem arrayBody_of_not_mem {l : Bytes} (h : (93 : UInt8) ∉ l) : arrayBody l = [] := by
  have hrev : l.reverse.dropWhile (· != 93) = [] := by
    rw [List.dropWhile_eq_nil_iff]
    intro c hc
    simpa using ne_of_mem_of_not_mem (List.mem_reverse.mp hc) h
  rw [arrayBody, hrev]
  rfl

theorem mem_arrayBody_iff {q : UInt8} {l : Bytes} :
    q ∈ arrayBody l ↔ ∃ pre mid post, l = pre ++ q :: (mid ++ 93 :: post) := by
  constructor
  · intro hq
    by_cases h : (93 : UInt8) ∈ l
    · obtain ⟨body, after, rfl, hafter⟩ := Scan.exists_last h
      rw [arrayBody_append hafter] at hq
      obtain ⟨pre, mid, rfl⟩ := List.append_of_mem hq
      exact ⟨pre, mid, after, by rw [List.append_assoc, List.cons_append]⟩
    · rw [arrayBody_of_not_mem h] at hq
      exact absurd hq (List.not_mem_nil)
  · rintro ⟨pre, mid, post, rfl⟩
    -- The last closing bracket is this one, or stands further on.
    by_cases h : (93 : UInt8) ∈ post
    · obtain ⟨more, after, rfl, hafter⟩ := Scan.exists_last h
      have hsplit : pre ++ q :: (mid ++ 93 :: (more ++ 93 :: after))
          = (pre ++ q :: (mid ++ 93 :: more)) ++ 93 :: after := by simp
      rw [hsplit, arrayBody_append hafter]
      simp
    · have hsplit : pre ++ q :: (mid ++ 93 :: post) = (pre ++ q :: mid) ++ 93 :: post := by simp
      rw [hsplit, arrayBody_append h]
      simp

/-- Behind an opening bracket the item loop runs. -/
theorem shkParseStrArray_bracket {v : CStr} {rest : Bytes} (h : v.bytes = 91 :: rest) :
    shkParseStrArray v = arrayItems (arrayBody rest).length (arrayBody rest) := by
  have hlen : v.length = rest.length + 1 := by rw [CStr.length, h, List.length_cons]
  rw [shkParseStrArray, h]
  dsimp only
  split
  case isTrue hshort =>
    have hrest : rest = [] := List.length_eq_zero_iff.mp (by omega)
    rw [hrest]
    rfl
  case isFalse => rw [if_neg (fun hne => hne rfl)]

/-- Anything else is an empty array. -/
theorem shkParseStrArray_other {v : CStr} (h : ∀ rest, v.bytes ≠ 91 :: rest) :
    shkParseStrArray v = [] := by
  rw [shkParseStrArray]
  cases hv : v.bytes with
  | nil => rfl
  | cons c rest =>
      have hc : c ≠ 91 := by
        rintro rfl
        exact h rest hv
      dsimp only
      rw [if_pos hc, ite_self]

/-- **The array reader returns no entry** exactly on the values without a quoted part. -/
theorem shkParseStrArray_ne_nil_iff {v : CStr} :
    shkParseStrArray v ≠ [] ↔ QuotedArray v := by
  by_cases hopen : ∃ rest, v.bytes = 91 :: rest
  · obtain ⟨rest, hv⟩ := hopen
    rw [shkParseStrArray_bracket hv, arrayItems_ne_nil_iff le_rfl, QuotedArray, hv]
    simp only [mem_arrayBody_iff, List.cons.injEq, true_and]
    constructor
    · rintro ⟨q, ⟨pre, mid, post, hrest⟩, hq⟩
      exact ⟨pre, q, mid, post, hrest, hq⟩
    · rintro ⟨pre, q, mid, post, hrest, hq⟩
      exact ⟨q, ⟨pre, mid, post, hrest⟩, hq⟩
  · have hnot : ∀ rest, v.bytes ≠ 91 :: rest := fun rest hv => hopen ⟨rest, hv⟩
    rw [shkParseStrArray_other hnot]
    constructor
    · intro hne
      exact absurd rfl hne
    · rintro ⟨pre, q, mid, post, hv, -⟩
      exact absurd hv (hnot _)

end Shakti
