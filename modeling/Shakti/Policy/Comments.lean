import Shakti.Policy.CommentText
import Shakti.Policy.Locality

/-!
# Shakti.Policy.Comments

Which comments `parse_policy` ignores.

* The line scanner skips a comment on its own line, and what follows a header or, after a
  blank, an array.
* The scan of a scalar stops at a `#`, when the double quotes before it are closed
  (`scanState`).
* The byte after the closing bracket of an array is skipped, so a comment that stands
  directly there is read as lines of policy.
* In an array nothing recognises a comment: its brackets, its quotes and its NULs count.

`Inert` says of a place and a comment what these rules leave: the comment is ignored
(`Line.run`), wherever the line stands.
-/

namespace Shakti

/-! ### Inert comments -/

/-- Whether the comment scan is in a string after these bytes; `none` when it has met a
`#`. -/
def scanState : Bool → Bytes → Option Bool
  | inStr, [] => some inStr
  | inStr, c :: s =>
      if c = 34 then scanState (!inStr) s
      else if c = 35 ∧ !inStr then none
      else scanState inStr s

/-- The item changes no section. -/
def Item.Mute : Item → Prop
  | .skip => True
  | .header _ => False
  | .keyValue key value =>
      (∀ d, shkDefSet d key value = d) ∧ ∀ r, shkRuleSet r key value = r

/-- A text that, read as policy, leaves no array open and sets nothing. -/
def SaysNothing (buf : Bytes) : Prop :=
  ArraysClosed buf ∧ ∀ item ∈ policyItems buf, item.Mute

/-- What a comment has to be like, at its place, for the parser to ignore it. -/
def Inert : Place → Comment → Prop
  | .ownLine, _ => True
  | .afterHeader, _ => True
  | .afterScalar v, _ => scanState false v.text ≠ some true
  | .afterArray, _ => True
  | .atBracket, c => SaysNothing (c.bytes ++ [10])
  | .inArray, c => (∀ q ∈ c.bytes, q ≠ 0 ∧ q ≠ 34 ∧ q ≠ 39) ∧
      bracketState 1 false c.bytes = some (1, false)

/-- A single-quoted string after which the bracket scan, which knows double quotes only, is
where it was. -/
def Steady (s : CStr) : Prop := bracketState 1 false s.bytes = some (1, false)

/-- No single-quoted string in an array misleads the bracket scan. -/
def Document.Steady (d : Document) : Prop := ∀ l ∈ d.allLines, ∀ s ∈ l.literals, Shakti.Steady s

/-! ### Noise in arrays -/

/-- The entries between the brackets of an array. -/
def arrayEntries (body : Bytes) : List CStr := arrayItems body.length body

theorem arrayEntries_of_turn {body rest : Bytes} {entry : Option CStr} (hne : body ≠ [])
    (h : arrayTurn body = (entry, rest)) :
    arrayEntries body = entry.toList ++ arrayEntries rest :=
  arrayItems_of_turn hne h

/-- A byte outside the strings of an array says nothing. -/
theorem arrayEntries_cons {c : UInt8} (hc : ¬ IsQuote c) (body : Bytes) :
    arrayEntries (c :: body) = arrayEntries body := by
  have hne := List.cons_ne_nil c body
  by_cases hspace : isTrimmed c = true
  · have hdrop : (c :: body).dropWhile isTrimmed = body.dropWhile isTrimmed := by simp [hspace]
    have hle := (List.dropWhile_suffix isTrimmed (l := body)).length_le
    -- A blank in front is skipped, so both turns read on at the same place.
    cases hd : body.dropWhile isTrimmed with
    | nil =>
        have hturn : arrayTurn (c :: body) = (none, []) := by rw [arrayTurn, hdrop, hd]
        have hself : arrayTurn body = (none, []) := by rw [arrayTurn, hd]
        rw [arrayEntries_of_turn hne hturn]
        by_cases hbody : body = []
        · subst hbody
          rfl
        · rw [arrayEntries_of_turn hbody hself]
    | cons qchar rest =>
        have hbody : body ≠ [] := by
          rintro rfl
          cases hd
        by_cases hq : qchar = 34 ∨ qchar = 39
        · have hsame : arrayTurn (c :: body) = arrayTurn body := by
            rw [arrayTurn, arrayTurn, hdrop, hd]
            simp only [if_pos hq]
          rw [arrayEntries_of_turn hne (hsame.trans (Prod.eta _).symm),
            arrayEntries_of_turn hbody (Prod.eta _).symm]
        · have hskip := (skipComma_suffix (qchar :: rest)).length_le
          rw [hd] at hle
          have hturn : arrayTurn (c :: body) = (none, skipComma (qchar :: rest)) := by
            rw [arrayTurn, hdrop, hd]
            simp only [if_neg hq]
            rw [if_neg (by rw [List.length_cons]; omega)]
          rw [arrayEntries_of_turn hne hturn, Option.toList_none, List.nil_append]
          by_cases hstay : (skipComma (qchar :: rest)).length = body.length
          · -- Nothing is skipped: what is left is the body.
            have hleft : skipComma (qchar :: rest) = qchar :: rest :=
              (skipComma_suffix _).eq_of_length_le (by omega)
            have hall : qchar :: rest = body := by
              rw [← hd]
              exact (List.dropWhile_suffix isTrimmed).eq_of_length_le (by rw [hd]; omega)
            rw [hleft, hall]
          · have hself : arrayTurn body = (none, skipComma (qchar :: rest)) := by
              rw [arrayTurn, hd]
              simp only [if_neg hq, if_neg hstay]
            rw [arrayEntries_of_turn hbody hself, Option.toList_none, List.nil_append]
  -- A byte that is neither blank nor a quote is skipped alone.
  · have hdrop : (c :: body).dropWhile isTrimmed = c :: body := by simp [hspace]
    have hturn : arrayTurn (c :: body) = (none, body) := by
      rw [arrayTurn, hdrop]
      simp only [if_neg (show ¬ (c = 34 ∨ c = 39) from hc)]
      by_cases hcomma : c = 44
      · simp [skipComma, hcomma]
      · simp [skipComma, hcomma, hspace]
    rw [arrayEntries_of_turn hne hturn, Option.toList_none, List.nil_append]

theorem arrayEntries_noise {x : Bytes} (h : ∀ c ∈ x, ¬ IsQuote c) (body : Bytes) :
    arrayEntries (x ++ body) = arrayEntries body := by
  induction x with
  | nil => rfl
  | cons c x ih =>
      rw [List.cons_append, arrayEntries_cons (h c (List.mem_cons_self ..)),
        ih fun c' hc' => h c' (List.mem_cons_of_mem _ hc')]

theorem arrayEntries_skipComma (body : Bytes) :
    arrayEntries (skipComma body) = arrayEntries body := by
  induction body with
  | nil => rfl
  | cons c body ih =>
      rw [skipComma]
      split
      case isTrue hc =>
        subst hc
        rw [arrayEntries_cons (by simp [IsQuote])]
      case isFalse =>
        split
        case isTrue hspace =>
          have hc : ¬ IsQuote c := fun hq => by
            rw [hq.not_isTrimmed] at hspace
            cases hspace
          rw [ih, arrayEntries_cons hc]
        case isFalse => rfl

/-- A string is the next entry. -/
theorem arrayEntries_string {q : UInt8} (hq : IsQuote q) {s : CStr} (hs : q ∉ s.bytes)
    (body : Bytes) :
    arrayEntries (q :: (s.bytes ++ q :: body)) = s :: arrayEntries body := by
  have hdrop : (q :: (s.bytes ++ q :: body)).dropWhile isTrimmed =
      q :: (s.bytes ++ q :: body) := by
    simp [hq.not_isTrimmed]
  have hturn : arrayTurn (q :: (s.bytes ++ q :: body)) = (some s, skipComma body) := by
    rw [arrayTurn, hdrop]
    simp only [if_pos (show q = 34 ∨ q = 39 from hq)]
    rw [Scan.takeWhile_ne_append hs, Scan.dropWhile_ne_append hs, CStr.read_bytes_self]
    rfl
  rw [arrayEntries_of_turn (List.cons_ne_nil _ _) hturn, arrayEntries_skipComma]
  rfl

/-! ### The brackets of an array -/

theorem scanPasses_of_state {x : Bytes} (h : bracketState 1 false x = some (1, false)) :
    ScanPasses x := fun rest => (arrayScan_of_state h rest).1

theorem Eol.noBracket {e : Bytes} (h : Eol e) :
    ∀ c ∈ e, isTrimmed c = true ∧ c ≠ 0 ∧ ¬ IsQuote c := by
  rcases h with rfl | rfl <;> simp [isTrimmed, IsQuote]

theorem scanPasses_literal {s : CStr} (h : Steady s) : ScanPasses (singleQuoted s) :=
  scanPasses_cons (by decide)
    ((scanPasses_of_state h).append (scanPasses_cons (by decide) scanPasses_nil))

/-- What stands in a piece, a comment or a single-quoted string, is inert in an array. -/
structure Piece.Inert (piece : Piece) : Prop where
  comment : ∀ c ∈ piece.comment?, Shakti.Inert .inArray c
  literal : ∀ s ∈ piece.literal?, Steady s

theorem scanPasses_slot {c : Option Comment} (h : ∀ c' ∈ c, Inert .inArray c') :
    ScanPasses (slotText c) := by
  cases c with
  | none => exact scanPasses_nil
  | some c =>
      exact scanPasses_cons (by decide) (scanPasses_of_state (h c rfl).2)

theorem Piece.Inert.scanPasses {piece : Piece} (h : piece.Inert) : ScanPasses piece.text := by
  cases piece with
  | space c hc => exact scanPasses_spaces (by simpa [Spaces, Piece.text] using hc)
  | comma => exact scanPasses_cons (by decide) scanPasses_nil
  | quoted s hs => exact scanPasses_quoted hs
  | literal s hs => exact scanPasses_literal (h.literal s rfl)
  | comment c e =>
      exact (scanPasses_slot h.comment).append
        (scanPasses_spaces fun c' hc' => (e.2.noBracket c' hc').1)

/-- No piece contains a NUL. -/
theorem Piece.Inert.noNul {piece : Piece} (h : piece.Inert) : (0 : UInt8) ∉ piece.text := by
  cases piece with
  | space c hc =>
      intro hmem
      obtain rfl := List.mem_singleton.mp hmem
      cases hc
  | comma => decide
  | quoted s hs => simpa [Piece.text, Shakti.quoted] using s.noNul
  | literal s hs => simpa [Piece.text, singleQuoted] using s.noNul
  | comment c e =>
      rw [Piece.text, List.mem_append, not_or]
      refine ⟨?_, fun hmem => (e.2.noBracket 0 hmem).2.1 rfl⟩
      cases c with
      | none => exact List.not_mem_nil
      | some c =>
          rw [slotText, List.mem_cons, not_or]
          exact ⟨by decide, fun hmem => ((h.comment c rfl).1 0 hmem).1 rfl⟩

theorem Piece.Inert.entries {piece : Piece} (h : piece.Inert) (body : Bytes) :
    arrayEntries (piece.text ++ body) = piece.entry.toList ++ arrayEntries body := by
  cases piece with
  | space c hc =>
      refine arrayEntries_cons (fun hq => ?_) body
      rw [hq.not_isTrimmed] at hc
      cases hc
  | comma => exact arrayEntries_cons (by decide) body
  | quoted s hs =>
      simpa [Piece.text, Shakti.quoted, Piece.entry] using
        arrayEntries_string (Or.inl rfl) hs.noQuote body
  | literal s hs =>
      have hnot : (39 : UInt8) ∉ s.bytes := fun hmem => (hs 39 hmem).1 rfl
      simpa [Piece.text, singleQuoted, Piece.entry] using
        arrayEntries_string (Or.inr rfl) hnot body
  | comment c e =>
      refine arrayEntries_noise (fun c' hc' => ?_) body
      rcases List.mem_append.mp hc' with hmem | hmem
      · cases c with
        | none => cases hmem
        | some c =>
            rcases List.mem_cons.mp hmem with rfl | hmem
            · decide
            · have hbyte := (h.comment c rfl).1 c' hmem
              exact fun hq => hq.elim hbyte.2.1 hbyte.2.2
      · exact (e.2.noBracket c' hmem).2.2

section Pieces

variable {pieces : List Piece} (h : ∀ piece ∈ pieces, piece.Inert)

include h

theorem piecesText_scanPasses : ScanPasses (piecesText pieces) := by
  induction pieces with
  | nil => exact scanPasses_nil
  | cons piece pieces ih =>
      rw [List.forall_mem_cons] at h
      exact h.1.scanPasses.append (ih h.2)

theorem piecesText_noNul : (0 : UInt8) ∉ piecesText pieces := by
  intro hmem
  obtain ⟨piece, hpiece, hmem⟩ := List.mem_flatMap.mp hmem
  exact (h piece hpiece).noNul hmem

/-- The entries of an array are those of its pieces. -/
theorem arrayEntries_pieces : arrayEntries (piecesText pieces) = pieces.filterMap Piece.entry := by
  induction pieces with
  | nil => rfl
  | cons piece pieces ih =>
      rw [List.forall_mem_cons] at h
      rw [piecesText, List.flatMap_cons, h.1.entries, ← piecesText, ih h.2]
      cases hentry : piece.entry <;> simp [hentry]

end Pieces

/-! ### Values of scalar lines -/

/-- The scan goes on in its state, unless it has met a `#`. -/
theorem scalarScan_append (inStr : Bool) (v t : Bytes) :
    scalarScan inStr (v ++ t) =
      match scanState inStr v with
      | none => scalarScan inStr v
      | some q => v ++ scalarScan q t := by
  induction v generalizing inStr with
  | nil => rfl
  | cons c v ih =>
      rw [List.cons_append, scalarScan, scanState, scalarScan]
      split
      · rw [ih]
        split <;> rfl
      · split
        · rfl
        · rw [ih]
          split <;> rfl

/-- Spaces are passed over, in a string and outside. -/
theorem scalarScan_of_spaces {ws : Bytes} (h : Spaces ws) (inStr : Bool) :
    scalarScan inStr ws = ws := by
  induction ws with
  | nil => rfl
  | cons c ws ih =>
      have hc : isTrimmed c = true := h c (List.mem_cons_self ..)
      have hquote : c ≠ 34 := by
        rintro rfl
        cases hc
      have hhash : c ≠ 35 := by
        rintro rfl
        cases hc
      rw [scalarScan, if_neg hquote, if_neg (by simp [hhash]),
        ih fun c' hc' => h c' (List.mem_cons_of_mem _ hc')]

/-- A comment ends the scan, blanks before it aside. -/
theorem scalarScan_comment {ws : Bytes} (h : Blanks ws) (c : Bytes) :
    scalarScan false (ws ++ 35 :: c) = ws := by
  have hpass : ∀ c ∈ ws, c ≠ 34 ∧ c ≠ 35 := fun c hc =>
    ⟨fun hq => absurd (hq ▸ h c hc) (by decide), fun hq => absurd (hq ▸ h c hc) (by decide)⟩
  rw [scalarScan_pass hpass]
  simp [scalarScan]

theorem shkCopyTrim_append_spaces (x : Bytes) {ws : Bytes} (hws : Spaces ws) :
    shkCopyTrim (x ++ ws) = shkCopyTrim x := by
  simpa using shkCopyTrim_spaces (a := []) (by simp [Spaces]) hws x

/-- A tail of which the scan leaves spaces does not change the value. -/
theorem shkCopyTrim_scan {inStr : Bool} {v t : Bytes}
    (h : ∀ q, scanState inStr v = some q → Spaces (scalarScan q t)) :
    shkCopyTrim (scalarScan inStr (v ++ t)) = shkCopyTrim (scalarScan inStr v) := by
  have hself := scalarScan_append inStr v []
  rw [List.append_nil] at hself
  rw [scalarScan_append]
  cases hstate : scanState inStr v with
  | none => rfl
  | some q =>
      rw [hstate] at hself
      rw [hself]
      simpa [scalarScan] using shkCopyTrim_append_spaces v (h q hstate)

/-! ### Line ends -/

theorem arrayCloses_of_append {body : Bytes} (h : arrayCloses 1 false (body ++ [10]) = true) :
    arrayCloses 1 false body = true := by
  by_contra hopen
  obtain ⟨depth, inQ, hstate⟩ := exists_bracketState (Bool.eq_false_iff.mpr hopen)
  rw [(arrayScan_of_state hstate _).2] at h
  cases inQ <;> simp [arrayCloses] at h

/-- Where a header's name is searched, a line end adds spaces only. -/
theorem headerName_append {x cr : Bytes} (hcr : Spaces cr) :
    shkCopyTrim ((if (91 :: (x ++ cr)).getD 1 0 = 91 then (91 :: (x ++ cr)).drop 2
        else (91 :: (x ++ cr)).drop 1).takeWhile (· != 93)) =
      shkCopyTrim ((if (91 :: x).getD 1 0 = 91 then (91 :: x).drop 2
        else (91 :: x).drop 1).takeWhile (· != 93)) := by
  have hname : ∀ y : Bytes, shkCopyTrim ((y ++ cr).takeWhile (· != 93)) =
      shkCopyTrim (y.takeWhile (· != 93)) := by
    intro y
    rw [List.takeWhile_append]
    split
    case isTrue hall =>
      have hy : y.takeWhile (· != 93) = y :=
        (List.takeWhile_prefix _).eq_of_length hall
      have hspaces : Spaces (cr.takeWhile (· != 93)) := fun c hc =>
        hcr c ((List.takeWhile_prefix _).subset hc)
      rw [shkCopyTrim_append_spaces _ hspaces, hy]
    case isFalse => rfl
  cases x with
  | nil =>
      have hsecond : (91 :: ([] ++ cr) : Bytes).getD 1 0 ≠ 91 := by
        cases cr with
        | nil => decide
        | cons c cr =>
            intro h
            obtain rfl : c = 91 := by simpa using h
            exact absurd (hcr 91 (List.mem_cons_self ..)) (by decide)
      rw [if_neg hsecond, if_neg (by decide)]
      exact hname []
  | cons c x =>
      simp only [List.cons_append, List.getD_cons_succ, List.getD_cons_zero]
      split
      · exact hname x
      · exact hname (c :: x)

/-- A line is read alike at every line end. -/
theorem readItem_line {x rest b : Bytes} (hx : x ≠ []) (hlf : 10 ∉ x) (ha : arrayText x = none)
    (h : LineEnd rest b) : readItem (x ++ rest) = ((readItem x).1, b) := by
  have hself : lineOf x = x :=
    List.takeWhile_eq_self_iff.mpr fun c hc => by simpa using ne_of_mem_of_not_mem hc hlf
  have hend := h.afterLine hlf
  obtain ⟨cr, hcr, -, hof⟩ := h.lineOf hlf
  have hcrEq : (61 : UInt8) ∉ cr := fun hmem => absurd (hcr 61 hmem) (by decide)
  cases x with
  | nil => exact absurd rfl hx
  | cons first cs =>
      simp only [arrayText] at ha
      rw [List.cons_append] at hof hend ⊢
      simp only [readItem]
      split
      · rw [hend]
      case isFalse hskip =>
        rw [if_neg hskip] at ha
        split
        case isTrue hheader =>
          subst hheader
          simp only [readHeader, hend, hof, hself]
          exact congrArg (fun name => (Item.header name, b)) (headerName_append hcr)
        case isFalse hheader =>
          rw [if_neg hheader] at ha
          by_cases heq : 61 ∈ first :: cs
          · obtain ⟨pre, after, hsplit, hpre⟩ := List.eq_append_cons_of_mem heq
            rw [hself, if_pos (by simpa using heq), hsplit, Scan.dropWhile_ne_append hpre] at ha
            rw [hsplit, List.mem_append, List.mem_cons, not_or, not_or] at hlf
            have hnot : ∀ body, after.dropWhile isBlank ≠ 91 :: body := by
              intro body hbody
              rw [List.drop_one, List.tail_cons, hbody] at ha
              cases ha
            -- At either line end the value is that of the line itself.
            have hvalue : ∀ {ws : Bytes}, Spaces ws →
                shkCopyTrim (scalarScan false (after ++ ws)) =
                  shkCopyTrim (scalarScan false after) := fun hws =>
              shkCopyTrim_scan fun q _ => by rwa [scalarScan_of_spaces hws]
            obtain ⟨cr₁, hcr₁, hread₁⟩ := readKeyValue_line hlf.1 hpre rfl hlf.2.2 hnot h
            obtain ⟨cr₂, hcr₂, hread₂⟩ :=
              readKeyValue_line hlf.1 hpre rfl hlf.2.2 hnot LineEnd.eof
            rw [List.append_nil] at hread₂
            rw [← List.cons_append, hsplit, List.append_assoc, List.cons_append, hread₁, hread₂,
              hvalue hcr₁, hvalue hcr₂]
          · have hnone : ¬ ((first :: (cs ++ cr)).contains 61 = true) := by
              simp only [List.contains_iff_mem, List.mem_cons, List.mem_append] at heq ⊢
              tauto
            rw [List.cons_append] at hof
            simp only [readKeyValue, hof, if_neg hnone, hend, hself]
            rw [if_neg (by simpa using heq)]

/-- The turns on a line, and on those it leaves over, are alike at every line end. -/
theorem significant_lineEnd {c rest b : Bytes} (hlf : 10 ∉ c) (hclosed : ArraysClosed (c ++ [10]))
    (h : LineEnd rest b) :
    significant (policyItems (c ++ rest)) =
      significant (policyItems (c ++ [10])) ++ significant (policyItems b) := by
  induction hlen : c.length using Nat.strong_induction_on generalizing c with
  | _ n ih =>
      have hlast : LineEnd [10] [] := LineEnd.eol (e := [10]) (Or.inl rfl)
      have hsuffix := List.dropWhile_suffix isBlank (l := c)
      -- By induction on what is left of the line: one item is read, and the rest is shorter.
      by_cases hx : c.dropWhile isBlank = []
      · have hws : Blanks c := List.dropWhile_eq_nil_iff.mp hx
        rw [significant_blank h hws, significant_blank hlast hws]
        rfl
      · have hxlf : 10 ∉ c.dropWhile isBlank := fun hmem => hlf (hsuffix.subset hmem)
        have hitems : ∀ t, policyItems (c ++ t) = (readItem (c.dropWhile isBlank ++ t)).1 ::
            policyItems (readItem (c.dropWhile isBlank ++ t)).2 := by
          intro t
          rw [policyItems_eq, dropWhile_isBlank_append hx, if_neg (by simp [hx])]
        have hstep : ∀ {item : Item} {items items' items'' : List Item},
            significant items = significant items' ++ items'' →
            significant (item :: items) = significant (item :: items') ++ items'' := by
          intro item items items' items'' heq
          cases item <;> simp [heq]
        rw [hitems rest, hitems [10]]
        -- An item without an array goes to the end of the line, one with an array to its bracket.
        cases ha : arrayText (c.dropWhile isBlank) with
        | none =>
            rw [readItem_line hx hxlf ha h, readItem_line hx hxlf ha hlast]
            exact hstep rfl
        | some body =>
            obtain ⟨-, hbody⟩ := arrayText_mem ha
            have hbodySuffix : 91 :: body <:+ c.dropWhile isBlank :=
              hbody ▸ (List.dropWhile_suffix isBlank).trans
                ((List.drop_suffix 1 _).trans (List.dropWhile_suffix (· != 61)))
            have hrestSuffix : (arrayScan 1 false body).2 <:+ c :=
              (arrayScan_suffix 1 false body).trans
                ((List.suffix_cons 91 body).trans (hbodySuffix.trans hsuffix))
            cases hclosed with
            | done hnil => simp [dropWhile_isBlank_append hx] at hnil
            | turn _ harray hrest =>
                rw [dropWhile_isBlank_append hx] at harray hrest
                have hcloses := arrayCloses_of_append (harray _ (arrayText_append ha [10]))
                rw [readItem_array_append ha hcloses] at hrest
                rw [readItem_array_append ha hcloses, readItem_array_append ha hcloses]
                refine hstep ?_
                cases hr : (arrayScan 1 false body).2 with
                | nil => exact (@Trail.blank [] (by simp [Blanks])).significant_drop h
                | cons skipped left =>
                    rw [hr] at hrest hrestSuffix
                    have hshort := hrestSuffix.length_le
                    rw [List.length_cons] at hshort
                    have hlf' : 10 ∉ left := fun hmem =>
                      hlf (hrestSuffix.subset (List.mem_cons_of_mem _ hmem))
                    exact ih left.length (by omega) hlf' hrest rfl

/-! ### Lines -/

/-- The main loop from a state to the end of a text. -/
def runFrom (st : ParseState) (buf : Bytes) : ParseState := (policyItems buf).foldl applyItem st

theorem foldl_significant (items : List Item) (st : ParseState) :
    (significant items).foldl applyItem st = items.foldl applyItem st := by
  induction items generalizing st with
  | nil => rfl
  | cons item items ih => cases item <;> exact ih _

theorem runFrom_of_significant {buf : Bytes} {items : List Item} (st : ParseState)
    (h : significant (policyItems buf) = significant items) :
    runFrom st buf = items.foldl applyItem st := by
  rw [runFrom, ← foldl_significant, h, foldl_significant]

/-- A mute item leaves every state as it is. -/
theorem Item.Mute.apply {item : Item} (h : item.Mute) (st : ParseState) :
    applyItem st item = st := by
  cases item with
  | skip => rfl
  | header name => exact h.elim
  | keyValue key value =>
      obtain ⟨defaults, done, sec⟩ := st
      cases sec with
      | none => rfl
      | defaults => simp [applyItem, h.1]
      | rule cur => simp [applyItem, h.2]

theorem foldl_mute {items : List Item} (h : ∀ item ∈ items, item.Mute) (st : ParseState) :
    items.foldl applyItem st = st := by
  induction items with
  | nil => rfl
  | cons item items ih =>
      rw [List.forall_mem_cons] at h
      rw [List.foldl_cons, h.1.apply, ih h.2]

/-- What a line says. -/
def Line.item : Line → Item
  | .blank _ _ => .skip
  | .header _ name _ _ => .header name.name
  | .scalar _ key _ v _ _ => .keyValue key (shkCopyTrim (scalarScan false v.text))
  | .array _ key pieces _ _ =>
      .keyValue key.name (CStr.read (91 :: (piecesText pieces ++ [93])))

/-- Every comment of the line is inert at its place, and its strings are steady. -/
structure Line.Inert (l : Line) : Prop where
  comments : ∀ pc ∈ l.comments, Shakti.Inert pc.1 pc.2
  literals : ∀ s ∈ l.literals, Steady s

/-- What stands in the array of an inert line. -/
theorem Line.Inert.pieces {lead : Lead} {key : ListKey} {pieces : List Piece} {ws : Blank}
    {c : Option Comment} (h : (Line.array lead key pieces ws c).Inert) :
    ∀ piece ∈ pieces, piece.Inert := fun piece hpiece =>
  { comment := fun c' hc' => h.comments (.inArray, c') (List.mem_append_left _
      (List.mem_map_of_mem (List.mem_filterMap.mpr ⟨piece, hpiece, hc'⟩)))
    literal := fun s hs => h.literals s (List.mem_filterMap.mpr ⟨piece, hpiece, hs⟩) }

theorem slotText_oneLine (c : Option Comment) : 10 ∉ slotText c := by
  cases c with
  | none => exact List.not_mem_nil
  | some c => simpa [slotText] using c.oneLine

theorem Blanks.oneLine {ws : Bytes} (h : Blanks ws) : (10 : UInt8) ∉ ws :=
  fun hmem => absurd (h 10 hmem) (by decide)

theorem Scalar.text_cons (v : Scalar) :
    ∃ c cs, v.text = c :: cs ∧ isBlank c = false ∧ c ≠ 91 := by
  cases v with
  | quoted s h => exact ⟨34, _, rfl, rfl, by decide⟩
  | literal s h => exact ⟨39, _, rfl, rfl, by decide⟩
  | word w h =>
      obtain ⟨c, cs, hbytes⟩ := List.exists_cons_of_ne_nil h.1
      have hc : WordByte c := h.2 c (by simp [hbytes])
      refine ⟨c, cs, hbytes, ?_, ?_⟩
      · by_contra hblank
        have htrimmed := isTrimmed_of_isBlank (by simpa using hblank)
        rw [hc.not_isTrimmed] at htrimmed
        cases htrimmed
      · rintro rfl
        exact absurd hc (by decide)

theorem Scalar.oneLine (v : Scalar) : 10 ∉ v.text := by
  cases v with
  | quoted s h =>
      have hs : (10 : UInt8) ∉ s.bytes := fun hmem => (h 10 hmem).2.1 rfl
      simpa [Scalar.text, Shakti.quoted] using hs
  | literal s h =>
      have hs : (10 : UInt8) ∉ s.bytes := fun hmem => (h 10 hmem).2.1 rfl
      simpa [Scalar.text, singleQuoted] using hs
  | word w h => exact fun hmem => absurd (show WordByte 10 from h.2 10 hmem) (by decide)

theorem ListKey.bareKey (key : ListKey) : BareKey key.name := by
  cases key <;> exact ⟨by decide +kernel, by decide +kernel⟩

/-- A scalar line gives its key what the scan leaves of the rest of the line. -/
theorem policyItems_scalar {lead : Lead} {key : CStr} {hkey : BareKey key} {v : Scalar}
    {ws : Blank} {c : Option Comment} {rest b : Bytes} (h : LineEnd rest b) :
    ∃ cr, Spaces cr ∧ policyItems ((Line.scalar lead key hkey v ws c).text ++ rest) =
      .keyValue key (shkCopyTrim (scalarScan false (v.text ++ (ws.1 ++ (slotText c ++ cr))))) ::
        policyItems b := by
  obtain ⟨hlf, heq, htrim⟩ := hkey.lead lead.between.2
  obtain ⟨first, cs, htext, hblank, hfirst⟩ := v.text_cons
  have hafter : 10 ∉ lead.after.1 ++ (v.text ++ (ws.1 ++ slotText c)) := by
    simp [lead.after.2.oneLine, v.oneLine, ws.2.oneLine, slotText_oneLine c]
  have hnot : ∀ body, (lead.after.1 ++ (v.text ++ (ws.1 ++ slotText c))).dropWhile isBlank ≠
      91 :: body := by
    intro body hbody
    rw [htext, List.cons_append, (span_blanks lead.after.2 hblank _).2] at hbody
    exact hfirst (List.cons.inj hbody).1
  obtain ⟨cr, hcr, hread⟩ := readKeyValue_line hlf heq htrim hafter hnot h
  refine ⟨cr, hcr, ?_⟩
  have hpass : ∀ c ∈ lead.after.1, c ≠ 34 ∧ c ≠ 35 := fun c hc =>
    ⟨fun hq => absurd (hq ▸ lead.after.2 c hc) (by decide),
      fun hq => absurd (hq ▸ lead.after.2 c hc) (by decide)⟩
  have hlead := shkCopyTrim_spaces (b := []) lead.after.2.spaces (by simp [Spaces])
    (scalarScan false (v.text ++ (ws.1 ++ (slotText c ++ cr))))
  rw [List.append_nil] at hlead
  have hbuf : (Line.scalar lead key hkey v ws c).text ++ rest =
      lead.before.1 ++ (key.bytes ++ (lead.between.1 ++
        61 :: (lead.after.1 ++ (v.text ++ (ws.1 ++ slotText c)) ++ rest))) := by
    simp [Line.text, Lead.text]
  rw [hbuf, policyItems_key lead.before.2 hkey, hread]
  simp only [List.append_assoc]
  rw [scalarScan_pass hpass, hlead]

theorem runFrom_scalar {lead : Lead} {key : CStr} {hkey : BareKey key} {v : Scalar} {ws : Blank}
    {c : Option Comment} {rest b : Bytes} (h : LineEnd rest b)
    (hc : c ≠ none → scanState false v.text ≠ some true) (st : ParseState) :
    runFrom st ((Line.scalar lead key hkey v ws c).text ++ rest) =
      runFrom (applyItem st (Line.scalar lead key hkey v ws c).item) b := by
  obtain ⟨cr, hcr, hitems⟩ := @policyItems_scalar lead key hkey v ws c rest b h
  have hvalue : shkCopyTrim (scalarScan false (v.text ++ (ws.1 ++ (slotText c ++ cr)))) =
      shkCopyTrim (scalarScan false v.text) := by
    refine shkCopyTrim_scan fun q hq => ?_
    cases c with
    | none =>
        have hspaces : Spaces (ws.1 ++ (slotText none ++ cr)) := ws.2.spaces.append hcr
        rwa [scalarScan_of_spaces hspaces]
    | some c =>
        obtain rfl : q = false := by
          cases q with
          | false => rfl
          | true => exact absurd hq (hc (by simp))
        rw [slotText, List.cons_append, scalarScan_comment ws.2]
        exact ws.2.spaces
  rw [runFrom, hitems, hvalue]
  rfl

/-- The text of an array is read back whole. -/
theorem read_array {pieces : List Piece} (h : ∀ piece ∈ pieces, piece.Inert) :
    (CStr.read (91 :: (piecesText pieces ++ [93]))).bytes = 91 :: (piecesText pieces ++ [93]) := by
  refine CStr.read_of_noNul fun hmem => ?_
  simp only [List.mem_cons, List.mem_append, List.not_mem_nil, or_false] at hmem
  rcases hmem with hmem | hmem | hmem
  · exact absurd hmem (by decide)
  · exact piecesText_noNul h hmem
  · exact absurd hmem (by decide)

/-- A key line whose value starts with a bracket is read up to where the bracket scan
ends. -/
theorem policyItems_bracket (lead : Lead) (key : ListKey) (body : Bytes) :
    policyItems (lead.text key.name ++ 91 :: body) =
      .keyValue key.name (shkCopyTrim (91 :: (arrayScan 1 false body).1)) ::
        policyItems ((arrayScan 1 false body).2.drop 1) := by
  obtain ⟨hlf, heq, htrim⟩ := key.bareKey.lead lead.between.2
  obtain ⟨htake, hdrop⟩ := span_blanks lead.after.2 (c := 91) (by decide) body
  have hvalue := shkCopyTrim_spaces (b := []) lead.after.2.spaces (by simp [Spaces])
    (91 :: (arrayScan 1 false body).1)
  rw [List.append_nil] at hvalue
  have hbuf : lead.text key.name ++ 91 :: body =
      lead.before.1 ++ (key.name.bytes ++ (lead.between.1 ++
        61 :: (lead.after.1 ++ 91 :: body))) := by
    simp [Lead.text]
  rw [hbuf, policyItems_key lead.before.2 key.bareKey,
    (readKeyValue_split hlf heq htrim).1 _ hdrop, htake, hvalue]

/-- An array line up to its closing bracket. -/
theorem policyItems_array {lead : Lead} {key : ListKey} {pieces : List Piece}
    (h : ∀ piece ∈ pieces, piece.Inert) (tail : Bytes) :
    policyItems (lead.text key.name ++ 91 :: (piecesText pieces ++ 93 :: tail)) =
      .keyValue key.name (CStr.read (91 :: (piecesText pieces ++ [93]))) ::
        policyItems (tail.drop 1) := by
  have hscan : arrayScan 1 false (piecesText pieces ++ 93 :: tail) =
      (piecesText pieces ++ [93], tail) := by
    rw [piecesText_scanPasses h]
    simp [arrayScan]
  rw [policyItems_bracket, hscan, shkCopyTrim_tight (tight_brackets _)]

/-- The rest of the line after an array says nothing. -/
theorem runFrom_afterArray {ws : Blank} {c : Option Comment}
    (hc : ∀ c' ∈ c, Inert (if ws.1 = [] then .atBracket else .afterArray) c') {rest b : Bytes}
    (h : LineEnd rest b) (st : ParseState) :
    runFrom st ((ws.1 ++ (slotText c ++ rest)).drop 1) = runFrom st b := by
  obtain ⟨ws, hws⟩ := ws
  dsimp only at hc ⊢
  by_cases htrail : Trail (ws ++ slotText c)
  · rw [← List.append_assoc]
    exact runFrom_of_significant st (htrail.significant_drop h)
  · cases c with
    | none => exact absurd (Trail.blank (by simpa [slotText] using hws)) htrail
    | some c =>
        cases ws with
        | cons w ws =>
            exact absurd (Trail.comment hws (List.cons_ne_nil w ws) c.oneLine) htrail
        | nil =>
            -- The `#` is the byte that is skipped: the comment is read as lines.
            obtain ⟨hclosed, hmute⟩ : SaysNothing (c.bytes ++ [10]) := hc c rfl
            have hlines := significant_lineEnd c.oneLine hclosed h
            rw [List.nil_append, slotText, List.cons_append, List.drop_one, List.tail_cons,
              runFrom, ← foldl_significant, hlines, List.foldl_append, foldl_significant,
              foldl_significant, foldl_mute hmute]
            rfl

/-- **A line whose comments are inert** says what it says without them, and the reader
goes on at the next line. -/
theorem Line.run {l : Line} (hl : l.Inert) {rest b : Bytes} (h : LineEnd rest b)
    (st : ParseState) : runFrom st (l.text ++ rest) = runFrom (applyItem st l.item) b := by
  cases l with
  | blank ws c =>
      cases c with
      | none =>
          rw [Line.text, slotText, List.append_nil]
          exact runFrom_of_significant st (significant_blank h ws.2)
      | some c =>
          rw [Line.text, List.append_assoc]
          exact runFrom_of_significant st (significant_comment h ws.2 c.oneLine)
  | header ws name ws' c =>
      have hname : name.name = cstr "defaults" ∨ name.name = cstr "rules" := by
        cases name <;> simp [SectionName.name]
      have hline : 10 ∉ ws'.1 ++ slotText c := by
        simp [ws'.2.oneLine, slotText_oneLine c]
      exact runFrom_of_significant st (significant_header hname ws.2 hline h)
  | scalar lead key hkey v ws c =>
      refine runFrom_scalar h (fun hne => ?_) st
      obtain ⟨c, rfl⟩ := Option.ne_none_iff_exists'.mp hne
      exact hl.comments (.afterScalar v, c) (by simp [Line.comments])
  | array lead key pieces ws c =>
      have hc : ∀ c' ∈ c, Shakti.Inert (if ws.1 = [] then .atBracket else .afterArray) c' :=
        fun c' hc' => hl.comments (_, c')
          (List.mem_append_right _ (List.mem_map_of_mem (Option.mem_toList.mpr hc')))
      have hbuf : (Line.array lead key pieces ws c).text ++ rest = lead.text key.name ++
          91 :: (piecesText pieces ++ 93 :: (ws.1 ++ (slotText c ++ rest))) := by
        simp [Line.text]
      rw [hbuf, runFrom, policyItems_array hl.pieces]
      exact runFrom_afterArray hc h _

theorem linesText_run {lines : List (Line × LineBreak)} (h : ∀ l ∈ lines, l.1.Inert)
    (st : ParseState) (rest : Bytes) :
    runFrom st (linesText lines ++ rest) =
      runFrom (lines.foldl (fun st l => applyItem st l.1.item) st) rest := by
  induction lines generalizing st with
  | nil => rfl
  | cons l lines ih =>
      rw [List.forall_mem_cons] at h
      have hend : LineEnd (l.2.1 ++ (linesText lines ++ rest)) (linesText lines ++ rest) :=
        LineEnd.eol l.2.2
      rw [linesText, List.flatMap_cons, ← linesText, List.append_assoc, List.append_assoc,
        Line.run h.1 hend, ih h.2]
      rfl

/-! ### Stripping -/

/-- Inert, and still inert when a later `#` and what follows it is stripped. -/
def Harmless (place : Place) (c : Comment) : Prop :=
  Inert place c ∧ ∀ c', Cut (some c) (some c') → Inert place c'

/-- Under the key of a list the setters look at the entries only. -/
theorem ListKey.set (key : ListKey) :
    (∃ f : Defaults → List CStr → Defaults, ∀ d v,
      shkDefSet d key.name v = f d (shkParseStrArray v)) ∧
    ∃ f : Rule → List CStr → Rule, ∀ r v, shkRuleSet r key.name v = f r (shkParseStrArray v) := by
  have hdefaults : key.name ≠ cstr "env_keep" → ∀ d v, shkDefSet d key.name v = d := by
    intro hne d v
    cases key
    case envKeep => exact absurd rfl hne
    all_goals
      rw [ListKey.name, shkDefSet]
      repeat rw [if_neg (by decide)]
  cases key with
  | envKeep =>
      refine ⟨⟨fun d entries => { d with envKeep := entries }, fun d v => ?_⟩,
        fun r _ => r, fun r v => ?_⟩
      · rw [ListKey.name, shkDefSet]
        repeat rw [if_neg (by decide)]
        rw [if_pos rfl]
      · rw [ListKey.name, shkRuleSet]
        repeat rw [if_neg (by decide)]
  | commands =>
      refine ⟨⟨fun d _ => d, hdefaults (by decide)⟩,
        fun r entries => { r with commands := entries }, fun r v => ?_⟩
      rw [ListKey.name, shkRuleSet]
      repeat rw [if_neg (by decide)]
      rw [if_pos rfl]
  | denyCommands =>
      refine ⟨⟨fun d _ => d, hdefaults (by decide)⟩,
        fun r entries => { r with denyCommands := entries }, fun r v => ?_⟩
      rw [ListKey.name, shkRuleSet]
      repeat rw [if_neg (by decide)]
      rw [if_pos rfl]
  | capabilities =>
      refine ⟨⟨fun d _ => d, hdefaults (by decide)⟩,
        fun r entries => { r with capabilities := entries }, fun r v => ?_⟩
      rw [ListKey.name, shkRuleSet]
      repeat rw [if_neg (by decide)]
      rw [if_pos rfl]

theorem applyItem_listKey (key : ListKey) {v v' : CStr}
    (h : shkParseStrArray v = shkParseStrArray v') (st : ParseState) :
    applyItem st (.keyValue key.name v) = applyItem st (.keyValue key.name v') := by
  obtain ⟨⟨f, hdefaults⟩, g, hrule⟩ := key.set
  simp only [applyItem, hdefaults, hrule, h]

/-- The value of an array holds the entries of its pieces. -/
theorem shkParseStrArray_pieces {pieces : List Piece} (h : ∀ piece ∈ pieces, piece.Inert) :
    shkParseStrArray (CStr.read (91 :: (piecesText pieces ++ [93]))) =
      pieces.filterMap Piece.entry := by
  have hbody := @arrayBody_append [] List.not_mem_nil (piecesText pieces)
  rw [shkParseStrArray_bracket (read_array h), hbody]
  exact arrayEntries_pieces h

theorem Line.Strips.literals {l l' : Line} (h : l.Strips l') : l.literals = l'.literals := by
  cases h with
  | blank | header | scalar | array => rfl
  | inArray => simp [Line.literals, List.filterMap_cons, Piece.literal?]

/-- Stripping leaves the other comments, and of the one at the `#` a harmless rest. -/
theorem Line.Strips.inert {l l' : Line} (h : l.Strips l')
    (hl : ∀ pc ∈ l.comments, Harmless pc.1 pc.2) (hsteady : ∀ s ∈ l.literals, Steady s) :
    l'.Inert := by
  refine ⟨?_, fun s hs => hsteady s (h.literals ▸ hs)⟩
  have hcut : ∀ {place : Place} {c c' : Option Comment}, Cut c c' →
      (∀ pc ∈ c.toList.map (Prod.mk place), Harmless pc.1 pc.2) →
      ∀ pc ∈ c'.toList.map (Prod.mk place), Shakti.Inert pc.1 pc.2 := by
    intro place c c' hcut hc pc hpc
    cases hcut with
    | whole => cases hpc
    | @inner c c' t heq =>
        obtain rfl : pc = (place, c') := by simpa using hpc
        exact (hc (place, c) (by simp)).2 c' (Cut.inner heq)
  cases h with
  | blank h | header h | scalar h => exact hcut h hl
  | array h =>
      intro pc hpc
      rcases List.mem_append.mp hpc with hpc | hpc
      · exact (hl pc (List.mem_append_left _ hpc)).1
      · exact hcut h (fun pc hpc => hl pc (List.mem_append_right _ hpc)) pc hpc
  | @inArray lead key p q ws e c c' t h =>
      intro pc hpc
      rcases List.mem_append.mp hpc with hpc | hpc
      · obtain ⟨c'', hc'', rfl⟩ := List.mem_map.mp hpc
        have hold : ∀ piece ∈ p ++ .comment c e :: q, ∀ c'' ∈ piece.comment?,
            Harmless .inArray c'' := fun piece hpiece c'' hc'' =>
          hl (.inArray, c'') (List.mem_append_left _
            (List.mem_map_of_mem (List.mem_filterMap.mpr ⟨piece, hpiece, hc''⟩)))
        obtain ⟨piece, hpiece, hmem⟩ := List.mem_filterMap.mp hc''
        rw [List.mem_append, List.mem_cons] at hpiece
        rcases hpiece with hpiece | rfl | hpiece
        · exact (hold piece (by simp [hpiece]) c'' hmem).1
        · have hslot : ∀ pc ∈ c.toList.map (Prod.mk .inArray), Harmless pc.1 pc.2 := by
            intro pc hpc
            obtain ⟨c₀, hc₀, rfl⟩ := List.mem_map.mp hpc
            exact hold (.comment c e) (by simp) c₀ (Option.mem_toList.mp hc₀)
          exact hcut h hslot (.inArray, c'') (List.mem_map_of_mem (Option.mem_toList.mpr hmem))
        · exact (hold piece (by simp [hpiece]) c'' hmem).1
      · exact (hl pc (List.mem_append_right _ hpc)).1

theorem Line.Strips.item {l l' : Line} (h : l.Strips l') (hl : l.Inert) (hl' : l'.Inert)
    (st : ParseState) : applyItem st l.item = applyItem st l'.item := by
  cases h with
  | blank | header | scalar | array => rfl
  | @inArray lead key p q ws e c c' t h =>
      refine applyItem_listKey key ?_ st
      rw [shkParseStrArray_pieces hl.pieces, shkParseStrArray_pieces hl'.pieces]
      simp [List.filterMap_cons, Piece.entry]

/-- **Harmless comments never take effect**: stripping one of them, or what follows a `#`
in it, leaves the policy as it is. -/
theorem Document.Strips.parsePolicy {d d' : Document} (h : d.Strips d') (hd : d.Allows Harmless)
    (hsteady : d.Steady) : parsePolicy d.text = Shakti.parsePolicy d'.text := by
  have hall : ∀ l ∈ d.allLines, l.Inert := fun l hl =>
    ⟨fun pc hpc => (hd l hl pc hpc).1, hsteady l hl⟩
  have hrun : runFrom parseInitial d.text = runFrom parseInitial d'.text := by
    cases h with
    | @line p q l l' e last hline =>
        have hp : ∀ l ∈ p, l.1.Inert := fun l hl => hall l.1
          (List.mem_append_left _ (List.mem_map_of_mem (List.mem_append_left _ hl)))
        have hmem : l ∈ (Document.mk (p ++ (l, e) :: q) last).allLines := by
          simp [Document.allLines]
        have hinert' := hline.inert (hd l hmem) (hsteady l hmem)
        have htail : ∀ l₀ : Line, (Document.mk (p ++ (l₀, e) :: q) last).text = linesText p ++
            (l₀.text ++ (e.1 ++ (linesText q ++ (last.map Line.text).getD []))) := by
          intro l₀
          simp [Document.text, linesText]
        rw [htail, htail, linesText_run hp, linesText_run hp,
          Line.run (hall l hmem) (LineEnd.eol e.2), Line.run hinert' (LineEnd.eol e.2),
          hline.item (hall l hmem) hinert']
    | @last p l l' hline =>
        have hp : ∀ l ∈ p, l.1.Inert := fun l hl => hall l.1
          (List.mem_append_left _ (List.mem_map_of_mem hl))
        have hmem : l ∈ (Document.mk p (some l)).allLines := by simp [Document.allLines]
        have hinert' := hline.inert (hd l hmem) (hsteady l hmem)
        have hself := Line.run (hall l hmem) LineEnd.eof
        have hself' := Line.run hinert' LineEnd.eof
        simp only [List.append_nil] at hself hself'
        simp only [Document.text, Option.map_some, Option.getD_some]
        rw [linesText_run hp, linesText_run hp, hself, hself', hline.item (hall l hmem) hinert']
  exact congrArg ParseState.policy hrun

end Shakti
