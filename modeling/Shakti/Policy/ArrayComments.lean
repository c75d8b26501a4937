import Shakti.Policy.HarmfulComments

/-!
# Shakti.Policy.ArrayComments

Comments between the brackets of an array, and with them all comments.

In an array nothing recognises a comment. One that closes the array, leaves the bracket
scan elsewhere, cuts the value short or holds an entry of its own shows in a frame that
has one of two entries behind it, none, or a next rule (`Unseen.inArray`).

Together with `Shakti.Policy.Comments` this says exactly which comments `parse_policy`
ignores (`comments_ignored_iff`); of comments at large it ignores not all
(`comment_takesEffect`).
-/

namespace Shakti

open Writes

variable {c : Comment}

/-! ### Texts that set one key at most -/

/-- Without a `=` or an opening bracket nothing is said. -/
theorem policyItems_silent {z : Bytes} (h : ∀ b ∈ z, b ≠ 61 ∧ b ≠ 91) :
    ∀ item ∈ policyItems z, item = .skip := by
  induction hlen : z.length using Nat.strong_induction_on generalizing z with
  | _ n ih =>
      rw [policyItems_eq]
      split
      case isTrue => simp
      case isFalse hne =>
        have hsuffix := List.dropWhile_suffix isBlank (l := z)
        have hshort := readItem_length_lt hne
        have hle := hsuffix.length_le
        have hfirst : (readItem (z.dropWhile isBlank)).1 = .skip := by
          cases hz : z.dropWhile isBlank with
          | nil => rfl
          | cons first rest =>
              have hmem : ∀ b ∈ first :: rest, b ≠ 61 ∧ b ≠ 91 := fun b hb =>
                h b (hsuffix.subset (hz ▸ hb))
              have hline : ¬ (lineOf (first :: rest)).contains 61 = true := by
                intro heq
                have heq' : 61 ∈ lineOf (first :: rest) := by simpa using heq
                exact (hmem 61 ((List.takeWhile_prefix _).subset heq')).1 rfl
              rw [readItem, if_neg (hmem first (List.mem_cons_self ..)).2]
              simp only [readKeyValue, if_neg hline, ite_self]
        rw [List.forall_mem_cons]
        exact ⟨hfirst, ih _ (by omega)
          (fun b hb => h b (((readItem_suffix _).trans hsuffix).subset hb)) rfl⟩

/-- Behind whole lines such a text adds something to one key at most, of an array that the
lines leave open. -/
theorem policyItems_tail {w : Bytes} (hw : EndsLine w) :
    ∃ items key₀, ∀ z : Bytes, (∀ b ∈ z, b ≠ 61 ∧ b ≠ 91) →
      ∃ items', policyItems (w ++ z) = items ++ items' ∧
        ∀ item ∈ items', item = .skip ∨ ∃ v, item = .keyValue key₀ v := by
  induction hlen : w.length using Nat.strong_induction_on generalizing w with
  | _ n ih =>
      have hsuffix := List.dropWhile_suffix isBlank (l := w)
      by_cases hne : w.dropWhile isBlank = []
      · obtain rfl : w = [] := by
          refine hw.resolve_right fun hlast => ?_
          have hmem := List.dropWhile_eq_nil_iff.mp hne 10 (List.mem_of_getLast? hlast)
          exact absurd hmem (by decide)
        exact ⟨[], cstr "", fun z hz =>
          ⟨policyItems z, rfl, fun item hitem => Or.inl (policyItems_silent hz item hitem)⟩⟩
      · by_cases harray : ∀ body, arrayText (w.dropWhile isBlank) = some body →
            arrayCloses 1 false body = true
        · have hturn := turnEnds_of_closed hne (hw.suffix hsuffix) harray
          have hlt := readItem_length_lt hne
          have hle := hsuffix.length_le
          obtain ⟨items, key₀, htail⟩ :=
            ih _ (by omega) (hw.suffix ((readItem_suffix _).trans hsuffix)) rfl
          refine ⟨(readItem (w.dropWhile isBlank)).1 :: items, key₀, fun z hz => ?_⟩
          obtain ⟨items', hitems, hall⟩ := htail z hz
          exact ⟨items', by rw [policyItems_turn hne hturn, hitems, List.cons_append], hall⟩
        -- The open array reads on into `z`, and only its own key can still be given a value there.
        · push Not at harray
          obtain ⟨body, ha, hopen⟩ := harray
          obtain ⟨depth, inQ, hstate⟩ := exists_bracketState (by simpa using hopen)
          obtain ⟨heq, -⟩ := arrayText_mem ha
          refine ⟨[], shkCopyTrim ((lineOf (w.dropWhile isBlank)).takeWhile (· != 61)),
            fun z hz => ⟨policyItems (w ++ z), rfl, ?_⟩⟩
          obtain ⟨t, ht⟩ := lineOf_append_prefix (w.dropWhile isBlank) z
          have hrest : (arrayScan (depth + 1) inQ z).2.drop 1 <:+ z :=
            (List.drop_suffix 1 _).trans (arrayScan_suffix _ _ z)
          rw [policyItems_eq, dropWhile_isBlank_append hne, if_neg (by simp [hne]),
            readItem_of_array (arrayText_append ha z), ht,
            takeWhile_append_of_mem ⟨61, heq, rfl⟩, (arrayScan_of_state hstate z).1,
            List.forall_mem_cons]
          exact ⟨Or.inr ⟨_, rfl⟩, fun item hitem =>
            Or.inl (policyItems_silent (fun b hb => hz b (hrest.subset hb)) item hitem)⟩

/-- What is set under other keys does not touch a field of the rules. -/
theorem map_rules_of_other {β : Type} {get : Rule → β} {key key₀ : CStr} {put : β → CStr → β}
    (hfield : Field shkRuleSet get key put) (hne : key₀ ≠ key) {items : List Item}
    (h : ∀ item ∈ items, item = .skip ∨ ∃ v, item = .keyValue key₀ v) (st : ParseState) :
    (items.foldl applyItem st).policy.rules.map get = st.policy.rules.map get := by
  induction items generalizing st with
  | nil => rfl
  | cons item items ih =>
      rw [List.forall_mem_cons] at h
      rw [List.foldl_cons, ih h.2]
      rcases h.1 with rfl | ⟨v, rfl⟩
      · rfl
      · obtain ⟨defaults, done, sec⟩ := st
        cases sec with
        | none | defaults => rfl
        | rule cur => simp [applyItem, ParseState.policy, Section.rules, hfield.other _ _ _ hne]

/-! ### Frames -/

/-- A rule with an array that has a slot in front of its pieces. -/
def arrayFrame (key : ListKey) (pieces : List Piece) (after : List (Line × LineBreak))
    (hpieces : ∀ piece ∈ pieces, piece.Plain)
    (hafter : ∀ l ∈ after, l.1.Plain) : Frame .inArray where
  before := [headerLine .rules]
  line c := .array bareLead key (.comment c newline :: pieces) noBlank none
  after := after
  plain := by simpa using hafter
  comments c := by
    have hnone := List.filterMap_eq_nil_iff.mpr fun piece h => (hpieces piece h).1
    cases c <;> simp [Line.comments, List.filterMap_cons, hnone, Piece.comment?]
  literals _ := List.filterMap_eq_nil_iff.mpr fun piece h =>
    (List.mem_cons.mp h).elim (fun heq => heq ▸ rfl) fun h => (hpieces piece h).2
  strips _ _ := Line.Strips.inArray (p := [])

/-- A text that stands on a line of its own between the brackets of an array, in front of
plain pieces, and is read as some entries. -/
def SlotReads (x : Bytes) (front : List CStr) : Prop :=
  ∀ (key : ListKey) (pieces : List Piece) (after : List (Line × LineBreak)),
    (∀ piece ∈ pieces, piece.Plain) → (∀ l ∈ after, l.1.Plain) →
    ∃ v, shkParseStrArray v = front ++ pieces.filterMap Piece.entry ∧
      (runFrom ruleOpen (bareLead.text key.name ++
        91 :: (x ++ 10 :: (piecesText pieces ++ 93 :: 10 :: linesText after)))).policy =
          (stateAfter after (applyItem ruleOpen (.keyValue key.name v))).policy

section Slot

variable {x : Bytes} {front : List CStr} (h : SlotReads x front) (key : ListKey)
  {pieces : List Piece} (hpieces : ∀ piece ∈ pieces, piece.Plain)

include h

/-- How the reader goes on where the bracket scan stops, and what it should have read. -/
theorem SlotReads.array (after : List (Line × LineBreak)) (hpieces : ∀ piece ∈ pieces, piece.Plain)
    (hafter : ∀ l ∈ after, l.1.Plain) {taken left : Bytes}
    (hscan : arrayScan 1 false
      (x ++ 10 :: (piecesText pieces ++ 93 :: 10 :: linesText after)) = (taken, left)) :
    ∃ v, shkParseStrArray v = front ++ pieces.filterMap Piece.entry ∧
      (runFrom (applyItem ruleOpen (.keyValue key.name (shkCopyTrim (91 :: taken))))
        (left.drop 1)).policy =
          (stateAfter after (applyItem ruleOpen (.keyValue key.name v))).policy := by
  obtain ⟨v, hv, hrun⟩ := h key pieces after hpieces hafter
  rw [runFrom, policyItems_bracket, hscan] at hrun
  exact ⟨v, hv, hrun⟩

include hpieces

/-- Without lines after the array its key holds the entries of the text and of the pieces. -/
theorem SlotReads.entries {get : Rule → List CStr}
    (hfield : Field shkRuleSet get key.name (fun _ v => shkParseStrArray v)) {taken left : Bytes}
    (hscan : arrayScan 1 false (x ++ 10 :: (piecesText pieces ++ [93, 10])) = (taken, left)) :
    (runFrom (applyItem ruleOpen (.keyValue key.name (shkCopyTrim (91 :: taken))))
      (left.drop 1)).policy.rules.map get = [front ++ pieces.filterMap Piece.entry] := by
  obtain ⟨v, hv, hrun⟩ := h.array key [] hpieces (by simp) hscan
  rw [hrun, ← hv]
  exact congrArg (fun entries => [entries]) (hfield.atKey ruleNew v)

end Slot

/-- The two samples are different. -/
theorem sampleEntry_ne :
    (sampleEntry true).filterMap Piece.entry ≠ (sampleEntry false).filterMap Piece.entry := by
  decide

/-- The text does not close the array. -/
theorem SlotReads.staysOpen {x : Bytes} {front : List CStr} (h : SlotReads x front) :
    arrayCloses 1 false x = false := by
  by_contra hopen
  have hcloses : arrayCloses 1 false x = true := by simpa using hopen
  -- What is left of the text is read as lines, and then the sample.
  have hw : EndsLine (((arrayScan 1 false x).2 ++ [10]).drop 1) :=
    EndsLine.suffix (Or.inr (by simp)) (List.drop_suffix 1 ((arrayScan 1 false x).2 ++ [10]))
  obtain ⟨items, key₀, htail⟩ := policyItems_tail hw
  obtain ⟨key, get, hfield, hne⟩ : ∃ (key : ListKey) (get : Rule → List CStr),
      Field shkRuleSet get key.name (fun _ v => shkParseStrArray v) ∧ key₀ ≠ key.name := by
    by_cases hkey : key₀ = cstr "commands"
    · subst hkey
      exact ⟨.denyCommands, _, ruleFields.denyCommands, by decide⟩
    · exact ⟨.commands, _, ruleFields.commands, hkey⟩
  have hsame : ∀ sample, (items.foldl applyItem (applyItem ruleOpen (.keyValue key.name
      (shkCopyTrim (91 :: (arrayScan 1 false x).1))))).policy.rules.map get =
        [front ++ (sampleEntry sample).filterMap Piece.entry] := by
    intro sample
    have hz : ∀ b ∈ piecesText (sampleEntry sample) ++ [93, 10], b ≠ 61 ∧ b ≠ 91 := by
      cases sample <;> decide +kernel
    obtain ⟨items', hitems, hall⟩ := htail _ hz
    have hdrop : ((arrayScan 1 false x).2 ++
        10 :: (piecesText (sampleEntry sample) ++ [93, 10])).drop 1 =
          ((arrayScan 1 false x).2 ++ [10]).drop 1 ++
            (piecesText (sampleEntry sample) ++ [93, 10]) := by
      rw [← List.drop_append_of_le_length (by simp)]
      simp
    rw [← h.entries key (sampleEntry_plain sample) hfield (arrayScan_append hcloses _), hdrop,
      runFrom, hitems, List.foldl_append, map_rules_of_other hfield hne hall]
  have htrue := hsame true
  rw [hsame false] at htrue
  exact sampleEntry_ne (List.append_cancel_left (List.cons.inj htrue).1).symm

theorem arrayCloses_newline (depth : Nat) (inQ : Bool) (b : Bytes) :
    arrayCloses (depth + 1) inQ (10 :: b) = arrayCloses (depth + 1) inQ b := by
  cases inQ <;> simp [arrayCloses]

theorem arrayCloses_bracket (depth : Nat) (b : Bytes) :
    arrayCloses (depth + 1) false (93 :: b) = arrayCloses depth false b := by
  simp [arrayCloses]

/-- After the text the bracket scan is where it was before. -/
theorem SlotReads.bracketState {x : Bytes} {front : List CStr} (h : SlotReads x front) :
    Shakti.bracketState 1 false x = some (1, false) := by
  obtain ⟨depth, inQ, hstate⟩ := exists_bracketState h.staysOpen
  have hback : depth = 0 ∧ inQ = false := by
    by_contra hother
    -- A bracket is not enough to close the array, and the next rule is swallowed.
    have hopen : arrayCloses 1 false (x ++ 10 :: (piecesText [] ++ 93 :: 10 ::
        linesText [headerLine .rules])) = false := by
      rw [(arrayScan_of_state hstate _).2, linesText_rules, piecesText, List.flatMap_nil,
        List.nil_append, arrayCloses_newline]
      cases inQ with
      | true => simp [arrayCloses, rulesLine]
      | false =>
          obtain ⟨depth, rfl⟩ := Nat.exists_eq_succ_of_ne_zero (fun h0 => hother ⟨h0, rfl⟩)
          rw [arrayCloses_bracket, arrayCloses_newline, arrayCloses_rulesLine]
    obtain ⟨v, -, hrun⟩ := h.array .commands [headerLine .rules]
      (List.forall_mem_nil Piece.Plain) (by simp) (Prod.eta _).symm
    rw [arrayScan_open hopen] at hrun
    have hcount := congrArg (fun p : Policy => p.rules.length) hrun
    simp only [applyItem_ruleOpen, length_rules_headerLine, List.drop_nil,
      length_rules_runFrom] at hcount
    exact absurd hcount (by decide)
  rw [hstate, hback.1, hback.2]

/-! ### In an array -/

/-- A comment nobody sees is read as nothing. -/
theorem Unseen.slotReads (h : Unseen .inArray c) : SlotReads (35 :: c.bytes) [] := by
  intro key pieces after hpieces hafter
  have hinert : ∀ piece ∈ Piece.comment none newline :: pieces, piece.Inert := by
    intro piece hpiece
    rcases List.mem_cons.mp hpiece with rfl | hpiece
    · exact Piece.Plain.inert ⟨rfl, rfl⟩
    · exact (hpieces piece hpiece).inert
  have hentries := shkParseStrArray_pieces hinert
  refine ⟨_, hentries, ?_⟩
  have hbuf : ((arrayFrame key pieces after hpieces hafter).line (some c)).text ++
      10 :: linesText after = bareLead.text key.name ++
        91 :: (35 :: c.bytes ++ 10 :: (piecesText pieces ++ 93 :: 10 :: linesText after)) := by
    simp [arrayFrame, Line.text, piecesText, Piece.text, noBlank, newline, slotText]
  have hsome := h (arrayFrame key pieces after hpieces hafter)
  rw [Frame.parse_none, Frame.parse] at hsome
  rw [← hbuf, ← stateAfter_rules]
  exact hsome

/-- The bracket scan is where it was before the comment. -/
theorem Unseen.bracketState (h : Unseen .inArray c) :
    Shakti.bracketState 1 false c.bytes = some (1, false) := by
  simpa [Shakti.bracketState] using h.slotReads.bracketState

/-- The value runs from the opening bracket over the comment to the closing one, and holds
the entries behind the comment. -/
theorem Unseen.value (h : Unseen .inArray c) (pieces : List Piece)
    (hpieces : ∀ piece ∈ pieces, piece.Plain) :
    shkParseStrArray (CStr.read (91 :: 35 :: (c.bytes ++ 10 :: (piecesText pieces ++ [93])))) =
      pieces.filterMap Piece.entry := by
  have hinert : ∀ piece ∈ pieces, piece.Inert := fun piece h => (hpieces piece h).inert
  have hscan : arrayScan 1 false (c.bytes ++ 10 :: (piecesText pieces ++ [93, 10])) =
      (c.bytes ++ 10 :: (piecesText pieces ++ [93]), [10]) := by
    have hnewline : ScanPasses [10] := scanPasses_spaces (by decide)
    have hall := ((scanPasses_of_state h.bracketState).append hnewline).append
      (piecesText_scanPasses hinert) [93, 10]
    simpa [arrayScan] using hall
  have hopen : arrayScan 1 false (35 :: c.bytes ++ 10 :: (piecesText pieces ++ [93, 10])) =
      (35 :: (c.bytes ++ 10 :: (piecesText pieces ++ [93])), [10]) := by
    simp [arrayScan, hscan]
  have hsame := h.slotReads.entries .commands hpieces ruleFields.commands hopen
  have htight := tight_brackets (35 :: (c.bytes ++ 10 :: piecesText pieces))
  simp only [List.cons_append, List.append_assoc] at htight
  rw [shkCopyTrim_tight htight] at hsame
  have hset := ruleFields.commands.atKey ruleNew
    (CStr.read (91 :: 35 :: (c.bytes ++ 10 :: (piecesText pieces ++ [93]))))
  rw [← hset]
  exact (List.cons.inj hsame).1

/-- A NUL would cut the value short, before the entries behind the comment. -/
theorem Unseen.noNul (h : Unseen .inArray c) : (0 : UInt8) ∉ c.bytes := by
  intro hmem
  have hcut : ∀ t, CStr.read (91 :: 35 :: (c.bytes ++ t)) = CStr.read (91 :: 35 :: c.bytes) := by
    intro t
    have htake := takeWhile_append_of_mem (p := (· != 0)) (x := 91 :: 35 :: c.bytes)
      ⟨0, by simp [hmem], rfl⟩ t
    exact CStr.ext htake
  have htrue := h.value _ (sampleEntry_plain true)
  have hfalse := h.value _ (sampleEntry_plain false)
  rw [hcut] at htrue hfalse
  exact sampleEntry_ne (htrue.symm.trans hfalse)

/-- A quote would start an entry. -/
theorem Unseen.noQuote (h : Unseen .inArray c) : ∀ q ∈ c.bytes, ¬ IsQuote q := by
  intro q hmem hq
  have hnone := h.value [] (by simp)
  have hbytes : (CStr.read (91 :: 35 :: (c.bytes ++ 10 :: (piecesText [] ++ [93])))).bytes =
      91 :: 35 :: (c.bytes ++ [10, 93]) := CStr.read_of_noNul (by simp [h.noNul, piecesText])
  obtain ⟨pre, post, hsplit⟩ := List.append_of_mem hmem
  refine absurd hnone (shkParseStrArray_ne_nil_iff.mpr ⟨35 :: pre, q, post ++ [10], [], ?_, hq⟩)
  rw [hbytes, hsplit]
  simp

/-- **In an array** a comment nobody sees has balanced brackets and nothing else that the
readers of the array look at. -/
theorem Unseen.inArray (h : Unseen .inArray c) : Inert .inArray c := by
  refine ⟨fun q hmem => ⟨ne_of_mem_of_not_mem hmem h.noNul, fun hq => ?_, fun hq => ?_⟩,
    h.bracketState⟩
  · exact h.noQuote q hmem (Or.inl hq)
  · exact h.noQuote q hmem (Or.inr hq)

/-! ### Every comment -/

/-- A comment nobody sees is inert. -/
theorem Unseen.inert {place : Place} (h : Unseen place c) : Inert place c := by
  cases place with
  | ownLine | afterHeader | afterArray => trivial
  | afterScalar v => exact h.afterScalar
  | atBracket => exact h.atBracket
  | inArray => exact h.inArray

/-- **Which comments never take effect**: whatever comments a policy text may hold, stripping
one of them never changes the policy exactly when all of them are harmless. The texts are
those whose single-quoted array entries do not mislead the bracket scan by themselves. -/
theorem comments_ignored_iff (S : Place → Comment → Prop) :
    (∀ d d' : Document, d.Steady → d.Allows S → d.Strips d' →
      parsePolicy d.text = parsePolicy d'.text) ↔
    ∀ place c, S place c → Harmless place c := by
  constructor
  · intro hignored place c hc
    have hwhole : Unseen place c := fun F =>
      hignored _ _ (F.steady _) (F.allows hc) (F.fill_strips (Cut.whole c))
    refine ⟨hwhole.inert, fun c' hcut => Unseen.inert fun F => ?_⟩
    -- Cutting the comment at a later `#` changes nothing, and cutting it away neither.
    rw [← hignored _ _ (F.steady _) (F.allows hc) (F.fill_strips hcut)]
    exact hwhole F
  · intro hharmless d d' hsteady hd hstrips
    exact hstrips.parsePolicy (fun l hl pc hpc => hharmless _ _ (hd l hl pc hpc)) hsteady

/-- A disabled entry of an array, with its comma. -/
def disabledEntry : Comment := ⟨utf8 " \"/usr/bin/risky-tool\",", by decide⟩

/-- A rule with an array that has a line for a comment. -/
def disabledCommand (c : Option Comment) : Document where
  lines := [headerLine .rules,
    (.array bareLead .commands
      [.comment none newline, .comment c newline,
        .quoted (cstr "/usr/bin/foo") (by decide), .comment none newline]
      noBlank none, newline)]
  last := none

/-- **A commented command is granted**: the array reader takes it for an entry. -/
theorem disabledCommand_granted :
    (parsePolicy (disabledCommand (some disabledEntry)).text).rules.map Rule.commands =
      [[cstr "/usr/bin/risky-tool", cstr "/usr/bin/foo"]] := by
  decide

/-- Without the comment the command is not there, so not every comment is ignored. -/
theorem comment_takesEffect :
    ¬ ∀ d d' : Document, d.Strips d' → parsePolicy d.text = parsePolicy d'.text := by
  intro hclaim
  have hstrips : (disabledCommand (some disabledEntry)).Strips (disabledCommand none) :=
    Document.Strips.line (p := [headerLine .rules]) (Line.Strips.inArray
      (p := [.comment none newline]) (Cut.whole disabledEntry))
  have hsame := congrArg (fun p : Policy => p.rules.map Rule.commands) (hclaim _ _ hstrips)
  have hstripped : (parsePolicy (disabledCommand none).text).rules.map Rule.commands =
      [[cstr "/usr/bin/foo"]] := by
    decide
  have hentries := disabledCommand_granted.symm.trans (hsame.trans hstripped)
  exact absurd hentries (by decide)

end Shakti
