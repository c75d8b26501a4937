import Shakti.Policy.Blocks
import Shakti.Policy.Lexing

/-!
# Shakti.Policy.Locality

How far a turn of `parse_policy` reads.

A turn reads one line, or an array value that may run over several. A turn that ends
within a text reads the same whatever follows the text (`readItem_append`), and any other
turn reads the text to its end (`readItem_open`). Hence a text whose arrays are all closed
keeps its defects to itself: what follows it is parsed as if it stood alone
(`policyItems_append`). An array left open swallows the section headers after it, and
`parsePolicy_local_iff` says that nothing else does.
-/

namespace Shakti

/-! ### Where an array closes -/

/-- Whether the bracket scan of an array value ends within the bytes. -/
def arrayCloses : Nat → Bool → Bytes → Bool
  | 0, _, _ => true
  | _ + 1, _, [] => false
  | depth + 1, inQ, ch :: buf =>
      if inQ then arrayCloses (depth + 1) (ch != 34) buf
      else if ch = 34 then arrayCloses (depth + 1) true buf
      else if ch = 91 then arrayCloses (depth + 2) false buf
      else if ch = 93 then arrayCloses depth false buf
      else arrayCloses (depth + 1) false buf

/-- The depth and the quote state of the bracket scan after the bytes; `none` when it ends
within them. -/
def bracketState : Nat → Bool → Bytes → Option (Nat × Bool)
  | 0, _, _ => none
  | depth + 1, inQ, [] => some (depth + 1, inQ)
  | depth + 1, inQ, ch :: buf =>
      if inQ then bracketState (depth + 1) (ch != 34) buf
      else if ch = 34 then bracketState (depth + 1) true buf
      else if ch = 91 then bracketState (depth + 2) false buf
      else if ch = 93 then bracketState depth false buf
      else bracketState (depth + 1) false buf

/-- The text after the opening bracket, when the turn that starts here reads an array. -/
def arrayText (buf : Bytes) : Option Bytes :=
  match buf with
  | [] => none
  | first :: _ =>
      if first = 35 ∨ first = 10 ∨ first = 13 then none
      else if first = 91 then none
      else if (lineOf buf).contains 61 then
        match ((buf.dropWhile (· != 61)).drop 1).dropWhile isBlank with
        | 91 :: body => some body
        | _ => none
      else none

/-- Whether the turn that starts here, and the byte skipped after it, end within the
bytes. -/
def turnEnds (buf : Bytes) : Bool :=
  match arrayText buf with
  | some body => arrayCloses 1 false body && !(arrayScan 1 false body).2.isEmpty
  | none => buf.contains 10

/-- One byte of the bracket scan changes the depth and the quote state, and the functions
go on from there. Only a closing bracket ends the scan. -/
theorem arrayScan_step (depth : Nat) (inQ : Bool) (ch : UInt8) :
    ∃ depth' inQ', (depth' = 0 → ch = 93) ∧ ∀ buf,
      arrayScan (depth + 1) inQ (ch :: buf) =
        (ch :: (arrayScan depth' inQ' buf).1, (arrayScan depth' inQ' buf).2) ∧
      arrayCloses (depth + 1) inQ (ch :: buf) = arrayCloses depth' inQ' buf ∧
      bracketState (depth + 1) inQ (ch :: buf) = bracketState depth' inQ' buf := by
  simp only [arrayScan, arrayCloses, bracketState]
  split
  · exact ⟨depth + 1, _, by simp, fun buf => ⟨rfl, rfl, rfl⟩⟩
  · split
    · exact ⟨depth + 1, _, by simp, fun buf => ⟨rfl, rfl, rfl⟩⟩
    · split
      · exact ⟨depth + 2, _, by simp, fun buf => ⟨rfl, rfl, rfl⟩⟩
      · split
        case isTrue hclose => exact ⟨depth, _, fun _ => hclose, fun buf => ⟨rfl, rfl, rfl⟩⟩
        case isFalse => exact ⟨depth + 1, _, by simp, fun buf => ⟨rfl, rfl, rfl⟩⟩

theorem arrayScan_append {depth : Nat} {inQ : Bool} {x : Bytes}
    (h : arrayCloses depth inQ x = true) (b : Bytes) :
    arrayScan depth inQ (x ++ b) = ((arrayScan depth inQ x).1, (arrayScan depth inQ x).2 ++ b) := by
  induction x generalizing depth inQ with
  | nil =>
      cases depth with
      | zero => simp [arrayScan]
      | succ depth => cases h
  | cons ch x ih =>
      cases depth with
      | zero => simp [arrayScan]
      | succ depth =>
          obtain ⟨depth', inQ', -, hstep⟩ := arrayScan_step depth inQ ch
          rw [(hstep x).2.1] at h
          rw [List.cons_append, (hstep (x ++ b)).1, (hstep x).1, ih h]

/-- A scan that does not close reads everything. -/
theorem arrayScan_open {depth : Nat} {inQ : Bool} {x : Bytes}
    (h : arrayCloses depth inQ x = false) : (arrayScan depth inQ x).2 = [] := by
  induction x generalizing depth inQ with
  | nil => cases depth <;> rfl
  | cons ch x ih =>
      cases depth with
      | zero => cases h
      | succ depth =>
          obtain ⟨depth', inQ', -, hstep⟩ := arrayScan_step depth inQ ch
          rw [(hstep x).2.1] at h
          rw [(hstep x).1]
          exact ih h

/-- A scan that is open after `x` is in some state. -/
theorem exists_bracketState {depth : Nat} {inQ : Bool} {x : Bytes}
    (h : arrayCloses depth inQ x = false) :
    ∃ depth' inQ', bracketState depth inQ x = some (depth' + 1, inQ') := by
  induction x generalizing depth inQ with
  | nil =>
      cases depth with
      | zero => cases h
      | succ depth => exact ⟨depth, inQ, rfl⟩
  | cons ch x ih =>
      cases depth with
      | zero => cases h
      | succ depth =>
          obtain ⟨depth', inQ', -, hstep⟩ := arrayScan_step depth inQ ch
          rw [(hstep x).2.1] at h
          rw [(hstep x).2.2]
          exact ih h

/-- In the state after `x` the scan reads on. -/
theorem arrayScan_of_state {depth depth' : Nat} {inQ inQ' : Bool} {x : Bytes}
    (h : bracketState depth inQ x = some (depth', inQ')) (b : Bytes) :
    arrayScan depth inQ (x ++ b) =
      (x ++ (arrayScan depth' inQ' b).1, (arrayScan depth' inQ' b).2) ∧
    arrayCloses depth inQ (x ++ b) = arrayCloses depth' inQ' b := by
  induction x generalizing depth inQ with
  | nil =>
      cases depth with
      | zero => cases h
      | succ depth =>
          cases h
          exact ⟨rfl, rfl⟩
  | cons ch x ih =>
      cases depth with
      | zero => cases h
      | succ depth =>
          obtain ⟨depth₁, inQ₁, -, hstep⟩ := arrayScan_step depth inQ ch
          rw [(hstep x).2.2] at h
          rw [List.cons_append, (hstep _).1, (hstep _).2.1, (ih h).1, (ih h).2]
          exact ⟨rfl, rfl⟩

/-! ### Turns -/

theorem takeWhile_append_of_mem {p : UInt8 → Bool} {x : Bytes} (h : ∃ c ∈ x, p c = false)
    (b : Bytes) : (x ++ b).takeWhile p = x.takeWhile p := by
  induction x with
  | nil => simp at h
  | cons c x ih =>
      by_cases hc : p c = true
      · have hx : ∃ c ∈ x, p c = false := by
          obtain ⟨d, hd, hpd⟩ := h
          rcases List.mem_cons.mp hd with rfl | hd
          · rw [hc] at hpd
            cases hpd
          · exact ⟨d, hd, hpd⟩
        simp [hc, ih hx]
      · simp [hc]

theorem lineOf_append {x : Bytes} (h : 10 ∈ x) (b : Bytes) : lineOf (x ++ b) = lineOf x :=
  takeWhile_append_of_mem ⟨10, h, rfl⟩ b

/-- A line only grows with what follows. -/
theorem lineOf_append_prefix (x b : Bytes) : ∃ t, lineOf (x ++ b) = lineOf x ++ t := by
  by_cases h : 10 ∈ x
  · exact ⟨[], by rw [lineOf_append h, List.append_nil]⟩
  · have hall : ∀ c ∈ x, (c != 10) = true := fun c hc => by
      simpa using ne_of_mem_of_not_mem hc h
    refine ⟨lineOf b, ?_⟩
    rw [lineOf, List.takeWhile_append_of_pos hall, lineOf, List.takeWhile_eq_self_iff.mpr hall,
      lineOf]

theorem dropWhile_append_of_mem {p : UInt8 → Bool} {x : Bytes} (h : ∃ c ∈ x, p c = false)
    (b : Bytes) : (x ++ b).dropWhile p = x.dropWhile p ++ b := by
  induction x with
  | nil => simp at h
  | cons c x ih =>
      by_cases hc : p c = true
      · have hx : ∃ c ∈ x, p c = false := by
          obtain ⟨d, hd, hpd⟩ := h
          rcases List.mem_cons.mp hd with rfl | hd
          · rw [hc] at hpd
            cases hpd
          · exact ⟨d, hd, hpd⟩
        simp [hc, ih hx]
      · simp [hc]

theorem dropWhile_ne_nil {p : UInt8 → Bool} {x : Bytes} (h : ∃ c ∈ x, p c = false) :
    x.dropWhile p ≠ [] := by
  obtain ⟨c, hc, hp⟩ := h
  intro hnil
  rw [List.dropWhile_eq_nil_iff.mp hnil c hc] at hp
  cases hp

theorem afterLine_append {x : Bytes} (h : 10 ∈ x) (b : Bytes) :
    afterLine (x ++ b) = afterLine x ++ b := by
  have hmem : ∃ c ∈ x, (c != 10) = false := ⟨10, h, rfl⟩
  rw [afterLine, afterLine, dropWhile_append_of_mem hmem,
    List.drop_append_of_le_length (List.length_pos_iff.mpr (dropWhile_ne_nil hmem))]

/-- What stands after the first `=`. -/
theorem afterEq_append {x : Bytes} (h : 61 ∈ x) (b : Bytes) :
    ((x ++ b).dropWhile (· != 61)).drop 1 = (x.dropWhile (· != 61)).drop 1 ++ b := by
  have hmem : ∃ c ∈ x, (c != 61) = false := ⟨61, h, rfl⟩
  rw [dropWhile_append_of_mem hmem,
    List.drop_append_of_le_length (List.length_pos_iff.mpr (dropWhile_ne_nil hmem))]

/-- A line that ends has its LF after what stands after its `=`. -/
theorem mem_afterEq {x : Bytes} (hlf : 10 ∈ x) (heq : 61 ∈ lineOf x) :
    10 ∈ (x.dropWhile (· != 61)).drop 1 := by
  have hx : x = lineOf x ++ x.dropWhile (· != 10) := (List.takeWhile_append_dropWhile ..).symm
  have hrest : 10 ∈ x.dropWhile (· != 10) := by
    rw [hx, List.mem_append] at hlf
    refine hlf.resolve_left fun hmem => ?_
    simpa using List.mem_takeWhile_imp hmem
  rw [hx, afterEq_append heq]
  exact List.mem_append_right _ hrest

theorem readItem_of_array {buf body : Bytes} (h : arrayText buf = some body) :
    readItem buf =
      (.keyValue (shkCopyTrim ((lineOf buf).takeWhile (· != 61)))
        (shkCopyTrim (((buf.dropWhile (· != 61)).drop 1).takeWhile isBlank
          ++ 91 :: (arrayScan 1 false body).1)),
        (arrayScan 1 false body).2.drop 1) := by
  cases buf with
  | nil => cases h
  | cons first rest =>
      simp only [arrayText] at h
      split at h
      · cases h
      case isFalse hskip =>
        split at h
        · cases h
        case isFalse hheader =>
          split at h
          case isFalse => cases h
          case isTrue hline =>
            split at h
            case h_2 => cases h
            case h_1 body' hbody =>
              cases h
              simp only [readItem, if_neg hskip, if_neg hheader, readKeyValue, if_pos hline,
                hbody]

theorem readItem_of_line {buf : Bytes} (h : arrayText buf = none) :
    (readItem buf).2 = afterLine buf := by
  cases buf with
  | nil => rfl
  | cons first rest =>
      simp only [arrayText] at h
      simp only [readItem]
      split
      · rfl
      case isFalse hskip =>
        rw [if_neg hskip] at h
        split
        · rfl
        case isFalse hheader =>
          rw [if_neg hheader] at h
          simp only [readKeyValue]
          split
          case isFalse => rfl
          case isTrue hline =>
            rw [if_pos hline] at h
            split
            case h_2 => rfl
            case h_1 body hbody =>
              rw [hbody] at h
              cases h

theorem arrayText_append {x body : Bytes} (h : arrayText x = some body) (b : Bytes) :
    arrayText (x ++ b) = some (body ++ b) := by
  cases x with
  | nil => cases h
  | cons first rest =>
      simp only [arrayText] at h
      simp only [List.cons_append, arrayText]
      split at h
      · cases h
      case isFalse hskip =>
        split at h
        · cases h
        case isFalse hheader =>
          split at h
          case isFalse => cases h
          case isTrue hline =>
            split at h
            case h_2 => cases h
            case h_1 body' hbody =>
              cases h
              have heq : 61 ∈ lineOf (first :: rest) := by simpa using hline
              have hmem : 61 ∈ first :: rest := (List.takeWhile_prefix _).subset heq
              have hblank : ∃ c ∈ ((first :: rest).dropWhile (· != 61)).drop 1,
                  isBlank c = false :=
                ⟨91, (List.dropWhile_suffix isBlank).subset (hbody ▸ List.mem_cons_self), rfl⟩
              have hline' : (lineOf (first :: rest ++ b)).contains 61 = true := by
                obtain ⟨t, ht⟩ := lineOf_append_prefix (first :: rest) b
                rw [ht]
                simp [heq]
              rw [if_neg hskip, if_neg hheader, ← List.cons_append, if_pos hline',
                afterEq_append hmem, dropWhile_append_of_mem hblank, hbody]
              rfl

/-- What an array turn reads of a text has its `=` and its bracket within the text. -/
theorem arrayText_mem {x body : Bytes} (h : arrayText x = some body) :
    61 ∈ lineOf x ∧ ((x.dropWhile (· != 61)).drop 1).dropWhile isBlank = 91 :: body := by
  cases x with
  | nil => cases h
  | cons first rest =>
      simp only [arrayText] at h
      split at h
      · cases h
      · split at h
        · cases h
        · split at h
          case isFalse => cases h
          case isTrue hline =>
            split at h
            case h_2 => cases h
            case h_1 body' hbody =>
              cases h
              exact ⟨by simpa using hline, hbody⟩

/-- A line turn reads its line only. -/
theorem readItem_fst_append {x : Bytes} (ha : arrayText x = none) (hlf : 10 ∈ x) (b : Bytes) :
    arrayText (x ++ b) = none ∧ (readItem (x ++ b)).1 = (readItem x).1 := by
  cases x with
  | nil => simp at hlf
  | cons first rest =>
      simp only [arrayText] at ha
      simp only [List.cons_append, arrayText, readItem]
      split
      · exact ⟨rfl, rfl⟩
      case isFalse hskip =>
        rw [if_neg hskip] at ha
        split
        · simp only [readHeader, ← List.cons_append, lineOf_append hlf, and_self]
        case isFalse hheader =>
          rw [if_neg hheader] at ha
          simp only [readKeyValue, ← List.cons_append, lineOf_append hlf]
          split
          case isFalse => exact ⟨rfl, rfl⟩
          case isTrue hline =>
            rw [if_pos hline] at ha
            have heq : 61 ∈ lineOf (first :: rest) := by simpa using hline
            have hafter := mem_afterEq hlf heq
            have hblank : ∃ c ∈ ((first :: rest).dropWhile (· != 61)).drop 1,
                isBlank c = false := ⟨10, hafter, rfl⟩
            rw [afterEq_append ((List.takeWhile_prefix _).subset heq),
              dropWhile_append_of_mem hblank, lineOf_append hafter]
            -- The value starts with the same byte, which is no bracket.
            cases hvalue : (((first :: rest).dropWhile (· != 61)).drop 1).dropWhile isBlank with
            | nil => exact absurd hvalue (dropWhile_ne_nil hblank)
            | cons c cs =>
                rw [hvalue] at ha
                have hc : c ≠ 91 := by
                  rintro rfl
                  cases ha
                rw [List.cons_append]
                constructor
                · split
                  case h_1 body hopen => exact absurd (List.cons.inj hopen).1 hc
                  case h_2 => rfl
                · split
                  case h_1 body hopen => exact absurd (List.cons.inj hopen).1 hc
                  case h_2 =>
                    split
                    case h_1 body hopen => exact absurd (List.cons.inj hopen).1 hc
                    case h_2 => rfl

/-- An array that closes within a text has the same value whatever follows the text. -/
theorem readItem_array_append {x body : Bytes} (ha : arrayText x = some body)
    (hcloses : arrayCloses 1 false body = true) (b : Bytes) :
    readItem (x ++ b) = ((readItem x).1, ((arrayScan 1 false body).2 ++ b).drop 1) := by
  obtain ⟨heq, hbody⟩ := arrayText_mem ha
  obtain ⟨t, ht⟩ := lineOf_append_prefix x b
  have hblank : ∃ c ∈ (x.dropWhile (· != 61)).drop 1, isBlank c = false :=
    ⟨91, (List.dropWhile_suffix isBlank).subset (hbody ▸ List.mem_cons_self), rfl⟩
  rw [readItem_of_array (arrayText_append ha b), readItem_of_array ha, ht,
    takeWhile_append_of_mem ⟨61, heq, rfl⟩,
    afterEq_append ((List.takeWhile_prefix _).subset heq), takeWhile_append_of_mem hblank,
    arrayScan_append hcloses]

/-- A turn that ends within a text reads the same whatever follows the text. -/
theorem readItem_append {x : Bytes} (h : turnEnds x = true) (b : Bytes) :
    readItem (x ++ b) = ((readItem x).1, (readItem x).2 ++ b) := by
  unfold turnEnds at h
  cases ha : arrayText x with
  | some body =>
      rw [ha] at h
      obtain ⟨hcloses, hne⟩ := Bool.and_eq_true_iff.mp h
      have hne' : (arrayScan 1 false body).2 ≠ [] := by simpa using hne
      rw [readItem_array_append ha hcloses, readItem_of_array ha,
        List.drop_append_of_le_length (List.length_pos_iff.mpr hne')]
  | none =>
      rw [ha] at h
      have hlf : 10 ∈ x := by simpa using h
      obtain ⟨ha', hfst⟩ := readItem_fst_append ha hlf b
      refine Prod.ext hfst ?_
      rw [readItem_of_line ha', readItem_of_line ha, afterLine_append hlf]

/-- Any other turn reads the text to its end. -/
theorem readItem_open {x : Bytes} (h : turnEnds x = false) : (readItem x).2 = [] := by
  unfold turnEnds at h
  cases ha : arrayText x with
  | some body =>
      rw [ha] at h
      rw [readItem_of_array ha]
      rcases Bool.and_eq_false_iff.mp h with hopen | hnil
      · rw [arrayScan_open hopen]
        rfl
      · have hempty : (arrayScan 1 false body).2 = [] := by simpa using hnil
        rw [hempty]
        rfl
  | none =>
      rw [ha] at h
      have hlf : 10 ∉ x := by simpa using h
      have hall : ∀ c ∈ x, (c != 10) = true := fun c hc => by
        simpa using ne_of_mem_of_not_mem hc hlf
      rw [readItem_of_line ha, afterLine, List.dropWhile_eq_nil_iff.mpr hall]
      rfl

/-! ### Texts whose arrays are closed -/

/-- Every array value that is read in the text is closed in it. -/
inductive ArraysClosed : Bytes → Prop
  | done {buf : Bytes} : buf.dropWhile isBlank = [] → ArraysClosed buf
  | turn {buf : Bytes} : buf.dropWhile isBlank ≠ [] →
      (∀ body, arrayText (buf.dropWhile isBlank) = some body → arrayCloses 1 false body = true) →
      ArraysClosed (readItem (buf.dropWhile isBlank)).2 → ArraysClosed buf

/-- The text is empty, or ends in a newline. -/
def EndsLine (buf : Bytes) : Prop := buf = [] ∨ buf.getLast? = some 10

theorem EndsLine.suffix {buf x : Bytes} (h : EndsLine buf) (hx : x <:+ buf) : EndsLine x := by
  obtain ⟨pre, rfl⟩ := hx
  rcases List.eq_nil_or_concat x with rfl | ⟨y, c, rfl⟩
  · exact Or.inl rfl
  · rcases h with h | h
    · simp at h
    · right
      simpa [← List.append_assoc] using h

/-- What closes a scan is a bracket. -/
theorem arrayScan_getLast {depth : Nat} {inQ : Bool} {x : Bytes}
    (h : arrayCloses (depth + 1) inQ x = true) (hnil : (arrayScan (depth + 1) inQ x).2 = []) :
    x.getLast? = some 93 := by
  induction x generalizing depth inQ with
  | nil => cases h
  | cons ch x ih =>
      obtain ⟨depth', inQ', hclose, hstep⟩ := arrayScan_step depth inQ ch
      rw [(hstep x).2.1] at h
      rw [(hstep x).1] at hnil
      dsimp only at hnil
      cases depth' with
      | zero =>
          have hx : x = [] := by simpa [arrayScan] using hnil
          rw [hx, hclose rfl]
          rfl
      | succ depth' =>
          cases x with
          | nil => cases h
          | cons c x =>
              rw [List.getLast?_cons_cons]
              exact ih h hnil

/-- In a text that ends in a newline, a turn that leaves no array open ends within the
text. -/
theorem turnEnds_of_closed {x : Bytes} (hx : x ≠ []) (hend : EndsLine x)
    (hclosed : ∀ body, arrayText x = some body → arrayCloses 1 false body = true) :
    turnEnds x = true := by
  have hlast : x.getLast? = some 10 := hend.resolve_left hx
  unfold turnEnds
  cases ha : arrayText x with
  | none => simpa using List.mem_of_getLast? hlast
  | some body =>
      have hcloses := hclosed body ha
      obtain ⟨-, hbody⟩ := arrayText_mem ha
      have hsuffix : 91 :: body <:+ x :=
        hbody ▸ (List.dropWhile_suffix isBlank).trans
          ((List.drop_suffix 1 _).trans (List.dropWhile_suffix (· != 61)))
      have hne : (arrayScan 1 false body).2 ≠ [] := by
        intro hnil
        have hbracket := arrayScan_getLast hcloses hnil
        have hlf := (hend.suffix hsuffix).resolve_left (List.cons_ne_nil _ _)
        cases body with
        | nil => cases hcloses
        | cons c cs =>
            rw [List.getLast?_cons_cons, hbracket] at hlf
            cases hlf
      simp [hcloses, hne]

theorem readItem_suffix (buf : Bytes) : (readItem buf).2 <:+ buf := by
  cases ha : arrayText buf with
  | none =>
      rw [readItem_of_line ha]
      exact (List.drop_suffix 1 _).trans (List.dropWhile_suffix (· != 10))
  | some body =>
      obtain ⟨-, hbody⟩ := arrayText_mem ha
      have hsuffix : 91 :: body <:+ buf :=
        hbody ▸ (List.dropWhile_suffix isBlank).trans
          ((List.drop_suffix 1 _).trans (List.dropWhile_suffix (· != 61)))
      rw [readItem_of_array ha]
      exact (List.drop_suffix 1 _).trans ((arrayScan_suffix 1 false body).trans
        ((List.suffix_cons 91 body).trans hsuffix))

/-- The blanks at the start of a text that is not blank. -/
theorem dropWhile_isBlank_append {x : Bytes} (h : x.dropWhile isBlank ≠ []) (b : Bytes) :
    (x ++ b).dropWhile isBlank = x.dropWhile isBlank ++ b := by
  refine dropWhile_append_of_mem ?_ b
  by_contra hall
  refine h (List.dropWhile_eq_nil_iff.mpr fun c hc => ?_)
  by_contra hblank
  exact hall ⟨c, hc, Bool.eq_false_iff.mpr hblank⟩

/-- One turn at the start of a text that ends within it. -/
theorem policyItems_turn {x : Bytes} (h : x.dropWhile isBlank ≠ [])
    (hturn : turnEnds (x.dropWhile isBlank) = true) (b : Bytes) :
    policyItems (x ++ b) = (readItem (x.dropWhile isBlank)).1
      :: policyItems ((readItem (x.dropWhile isBlank)).2 ++ b) := by
  rw [policyItems_eq, dropWhile_isBlank_append h, if_neg (by simp [h]), readItem_append hturn]

/-- **What follows a text whose arrays are closed** is parsed as if it stood alone. -/
theorem policyItems_append {a : Bytes} (hclosed : ArraysClosed a) (hend : EndsLine a)
    (b : Bytes) : policyItems (a ++ b) = policyItems a ++ policyItems b := by
  induction hclosed with
  | @done buf hblank =>
      rcases hend with rfl | hlast
      · rfl
      · have hmem := List.dropWhile_eq_nil_iff.mp hblank 10 (List.mem_of_getLast? hlast)
        exact absurd hmem (by decide)
  | @turn buf hne harray _ ih =>
      have hsuffix := List.dropWhile_suffix isBlank (l := buf)
      have hturn := turnEnds_of_closed hne (hend.suffix hsuffix) harray
      have hrest := ih (hend.suffix ((readItem_suffix _).trans hsuffix))
      have hself := policyItems_turn hne hturn []
      rw [List.append_nil, List.append_nil] at hself
      rw [policyItems_turn hne hturn b, hrest, hself, List.cons_append]

/-! ### Rules -/

/-- The text starts with a `[[rules]]` line. -/
def StartsRule (buf : Bytes) : Prop :=
  ∃ x, buf.dropWhile isBlank = 91 :: 91 :: x ∧
    (readHeader (91 :: 91 :: x)).1 = .header (cstr "rules")

/-- A header ends the block before it. -/
theorem blockOf_append_header (items items' : List Item) (name : CStr) :
    blockOf (items ++ .header name :: items') = blockOf items := by
  induction items with
  | nil => rfl
  | cons item items ih =>
      cases item with
      | skip => exact ih
      | header name => rfl
      | keyValue key value => exact congrArg (List.cons (key, value)) ih

theorem ruleBlocks_append_header (items items' : List Item) (name : CStr) :
    ruleBlocks (items ++ .header name :: items') =
      ruleBlocks items ++ ruleBlocks (.header name :: items') := by
  induction items with
  | nil => rfl
  | cons item items ih =>
      cases item with
      | skip => exact ih
      | keyValue key value => exact ih
      | header name' =>
          rw [List.cons_append, ruleBlocks, ih, blockOf_append_header]
          conv_rhs => rw [ruleBlocks]
          split
          · rfl
          · rfl

/-- Each `[[rules]]` header starts one rule. -/
theorem length_ruleBlocks_cons (item : Item) (items : List Item) :
    (ruleBlocks (item :: items)).length =
      (if item = .header (cstr "rules") then 1 else 0) + (ruleBlocks items).length := by
  cases item with
  | skip => simp [ruleBlocks]
  | keyValue key value => simp [ruleBlocks]
  | header name =>
      by_cases h : name = cstr "rules"
      · simp [ruleBlocks, h, Nat.add_comm]
      · simp [ruleBlocks, h]

theorem length_rules (buf : Bytes) :
    (parsePolicy buf).rules.length = (ruleBlocks (policyItems buf)).length := by
  rw [parsePolicy_eq]
  exact List.length_map ..

theorem StartsRule.policyItems {b : Bytes} (h : StartsRule b) :
    ∃ items, Shakti.policyItems b = .header (cstr "rules") :: items := by
  obtain ⟨x, hx, hheader⟩ := h
  have hread : (readItem (91 :: 91 :: x)).1 = .header (cstr "rules") := by
    simpa [readItem] using hheader
  rw [policyItems_eq, hx, if_neg (List.cons_ne_nil _ _), hread]
  exact ⟨_, rfl⟩

theorem dropLast_append_toList {α : Type} (l : List α) :
    l.dropLast ++ l.getLast?.toList = l := by
  cases l with
  | nil => rfl
  | cons a l =>
      rw [List.getLast?_eq_some_getLast (List.cons_ne_nil a l)]
      exact List.dropLast_append_getLast (List.cons_ne_nil a l)

/-- The rules of `a` and then those of `b`, up to the content of the last rule of `a`. -/
def KeepsApart (a b : Bytes) : Prop :=
  ∃ last : List Rule, last.length = min 1 (parsePolicy a).rules.length ∧
    (parsePolicy (a ++ b)).rules =
      (parsePolicy a).rules.dropLast ++ last ++ (parsePolicy b).rules

/-- After closed arrays a rule starts afresh. -/
theorem rules_append {a b : Bytes} (hclosed : ArraysClosed a) (hend : EndsLine a)
    (hb : StartsRule b) :
    (parsePolicy (a ++ b)).rules = (parsePolicy a).rules ++ (parsePolicy b).rules := by
  obtain ⟨items, hitems⟩ := hb.policyItems
  simp only [parsePolicy_eq, policyItems_append hclosed hend]
  rw [hitems, ruleBlocks_append_header, List.map_append]

/-- A `[[rules]]` line. -/
def rulesLine : Bytes := [91, 91, 114, 117, 108, 101, 115, 93, 93, 10]

/-- No open array is closed by a `[[rules]]` line. -/
theorem arrayCloses_rulesLine (depth : Nat) (inQ : Bool) :
    arrayCloses (depth + 1) inQ rulesLine = false := by
  cases inQ <;> simp [rulesLine, arrayCloses]

/-- An array left open swallows a `[[rules]]` line after it. -/
theorem rules_swallowed {a : Bytes} (hend : EndsLine a) (hopen : ¬ ArraysClosed a) :
    (ruleBlocks (policyItems (a ++ rulesLine))).length = (ruleBlocks (policyItems a)).length := by
  induction hlen : a.length using Nat.strong_induction_on generalizing a with
  | _ n ih =>
      have hne : a.dropWhile isBlank ≠ [] := fun hblank => hopen (ArraysClosed.done hblank)
      have hsuffix := List.dropWhile_suffix isBlank (l := a)
      by_cases harray : ∀ body, arrayText (a.dropWhile isBlank) = some body →
          arrayCloses 1 false body = true
      · have hturn := turnEnds_of_closed hne (hend.suffix hsuffix) harray
        have hrest := fun hclosed => hopen (ArraysClosed.turn hne harray hclosed)
        have hlt := readItem_length_lt hne
        have hle := hsuffix.length_le
        have hswallow := ih _ (by omega) (hend.suffix ((readItem_suffix _).trans hsuffix))
          hrest rfl
        have hself := policyItems_turn hne hturn []
        rw [List.append_nil, List.append_nil] at hself
        rw [policyItems_turn hne hturn, hself, length_ruleBlocks_cons, length_ruleBlocks_cons,
          hswallow]
      · push Not at harray
        obtain ⟨body, ha, hbody⟩ := harray
        have hbody' : arrayCloses 1 false body = false := by simpa using hbody
        obtain ⟨depth, inQ, hstate⟩ := exists_bracketState hbody'
        have hstill : arrayCloses 1 false (body ++ rulesLine) = false := by
          rw [(arrayScan_of_state hstate _).2, arrayCloses_rulesLine]
        rw [policyItems_eq, dropWhile_isBlank_append hne, if_neg (by simp [hne]),
          readItem_of_array (arrayText_append ha rulesLine), arrayScan_open hstill,
          policyItems_eq a, if_neg hne, readItem_of_array ha, arrayScan_open hbody']
        rfl

/-- **A defect stays in its rule** whatever follows, exactly when every array value that is
read is closed. -/
theorem parsePolicy_local_iff (a : Bytes) :
    (∀ b, StartsRule b → KeepsApart (a ++ [10]) b) ↔ ArraysClosed (a ++ [10]) := by
  have hend : EndsLine (a ++ [10]) := Or.inr (by simp)
  constructor
  · intro hkeeps
    by_contra hopen
    have hstarts : StartsRule rulesLine := ⟨rulesLine.drop 2, rfl, by decide⟩
    obtain ⟨last, hlast, hrules⟩ := hkeeps rulesLine hstarts
    have hlen := congrArg List.length hrules
    have hone : (parsePolicy rulesLine).rules.length = 1 := by decide
    rw [length_rules, rules_swallowed hend hopen, ← length_rules] at hlen
    simp only [List.length_append, List.length_dropLast, hlast, hone] at hlen
    omega
  · intro hclosed b hb
    refine ⟨(parsePolicy (a ++ [10])).rules.getLast?.toList, ?_, ?_⟩
    · cases (parsePolicy (a ++ [10])).rules with
      | nil => rfl
      | cons r rs =>
          rw [List.getLast?_eq_some_getLast (List.cons_ne_nil r rs)]
          simp
    · rw [rules_append hclosed hend hb, dropLast_append_toList]

/-- A rule whose array lacks its bracket. -/
def unclosedRule : Bytes := utf8 "[[rules]]\nuser = \"al\"\ncommands = [\n"

/-- A rule that denies everything. -/
def denyRule : Bytes := utf8 "[[rules]]\nuser = \"al\"\ndeny_commands = [\"*\"]\n"

/-- **A missing bracket swallows the next rule**, with its deny list. -/
theorem parsePolicy_swallows :
    ¬ ∀ a b : Bytes, a.getLast? = some 10 → StartsRule b → KeepsApart a b := by
  intro hclaim
  have hstarts : StartsRule denyRule := ⟨denyRule.drop 2, by decide, by decide⟩
  obtain ⟨last, hlast, hrules⟩ := hclaim unclosedRule denyRule (by decide) hstarts
  have hlen := congrArg List.length hrules
  have hwhole : (parsePolicy (unclosedRule ++ denyRule)).rules.length = 1 := by decide
  have hfirst : (parsePolicy unclosedRule).rules.length = 1 := by decide
  have hsecond : (parsePolicy denyRule).rules.length = 1 := by decide
  simp only [List.length_append, List.length_dropLast, hlast, hwhole, hfirst, hsecond] at hlen
  omega

end Shakti
