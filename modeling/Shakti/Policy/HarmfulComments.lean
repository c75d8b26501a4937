import Shakti.Policy.Comments

/-!
# Shakti.Policy.HarmfulComments

A comment that is not inert takes effect somewhere.

A `Frame` is a document with a slot for one comment, and no other comment. A comment is
`Unseen` at a place when every frame for the place reads the same with and without it.
Behind values there are frames that tell:

* one whose value the comment spoils (`Unseen.afterScalar`);
* at a bracket two that differ in every field, so that what the comment sets shows in one
  of them, and one whose next rule is swallowed (`Unseen.atBracket`).
-/

namespace Shakti

/-! ### Frames -/

/-- No blanks. -/
def noBlank : Blank := ⟨[], by simp [Blanks]⟩

/-- A newline. -/
def newline : LineBreak := ⟨[10], Or.inl rfl⟩

/-- A key line without any blanks. -/
def bareLead : Lead := ⟨noBlank, noBlank, noBlank⟩

/-- The piece holds no comment and nothing in single quotes. -/
def Piece.Plain (piece : Piece) : Prop := piece.comment? = none ∧ piece.literal? = none

/-- The line holds no comment, and no array with single quotes. -/
def Line.Plain (l : Line) : Prop := l.comments = [] ∧ l.literals = []

theorem Piece.Plain.inert {piece : Piece} (h : piece.Plain) : piece.Inert where
  comment := by simp [h.1]
  literal := by simp [h.2]

theorem Line.Plain.inert {l : Line} (h : l.Plain) : l.Inert where
  comments := by simp [h.1]
  literals := by simp [h.2]

/-- A document with a slot for a comment, and no other comment. -/
structure Frame (place : Place) where
  before : List (Line × LineBreak)
  line : Option Comment → Line
  after : List (Line × LineBreak)
  plain : ∀ l ∈ before ++ after, l.1.Plain
  comments : ∀ c, (line c).comments = c.toList.map (Prod.mk place)
  literals : ∀ c, (line c).literals = []
  strips : ∀ c c', Cut c c' → (line c).Strips (line c')

variable {place : Place} {c : Comment}

/-- The frame with its slot filled. -/
def Frame.fill (F : Frame place) (c : Option Comment) : Document :=
  ⟨F.before ++ (F.line c, newline) :: F.after, none⟩

/-- No frame tells whether the comment is there. -/
def Unseen (place : Place) (c : Comment) : Prop :=
  ∀ F : Frame place, parsePolicy (F.fill (some c)).text = parsePolicy (F.fill none).text

/-- The lines of a filled frame are plain, but for the one with the slot. -/
theorem Frame.line_of_mem (F : Frame place) {c : Option Comment} {l : Line}
    (h : l ∈ (F.fill c).allLines) : l.Plain ∨ l = F.line c := by
  have hplain : ∀ l ∈ (F.before ++ F.after).map Prod.fst, l.Plain := by
    intro l hl
    obtain ⟨l₁, hl₁, rfl⟩ := List.mem_map.mp hl
    exact F.plain l₁ hl₁
  simp only [Document.allLines, Frame.fill, List.map_append, List.map_cons, Option.toList_none,
    List.append_nil, List.mem_append, List.mem_cons] at h hplain
  rcases h with h | h | h
  · exact Or.inl (hplain l (Or.inl h))
  · exact Or.inr h
  · exact Or.inl (hplain l (Or.inr h))

theorem Frame.allows (F : Frame place) {S : Place → Comment → Prop} (h : S place c) :
    (F.fill (some c)).Allows S := by
  intro l hl pc hpc
  rcases F.line_of_mem hl with hplain | rfl
  · rw [hplain.1] at hpc
    cases hpc
  · rw [F.comments] at hpc
    obtain rfl : pc = (place, c) := by simpa using hpc
    exact h

theorem Frame.steady (F : Frame place) (c : Option Comment) : (F.fill c).Steady := by
  intro l hl s hs
  rcases F.line_of_mem hl with hplain | rfl
  · rw [hplain.2] at hs
    cases hs
  · rw [F.literals] at hs
    cases hs

theorem Frame.fill_strips (F : Frame place) {c c' : Option Comment} (h : Cut c c') :
    (F.fill c).Strips (F.fill c') :=
  Document.Strips.line (F.strips c c' h)

/-- What the lines before the slot leave. -/
def stateAfter (lines : List (Line × LineBreak)) (st : ParseState) : ParseState :=
  lines.foldl (fun st l => applyItem st l.1.item) st

/-- A frame is read up to its slot, and the lines after it when the reader gets there. -/
theorem Frame.parse (F : Frame place) (c : Option Comment) :
    parsePolicy (F.fill c).text =
      (runFrom (stateAfter F.before parseInitial)
        ((F.line c).text ++ 10 :: linesText F.after)).policy := by
  have hbefore : ∀ l ∈ F.before, l.1.Inert := fun l hl =>
    (F.plain l (List.mem_append_left _ hl)).inert
  have htext : (F.fill c).text =
      linesText F.before ++ ((F.line c).text ++ 10 :: linesText F.after) := by
    simp [Frame.fill, Document.text, linesText, newline]
  have hrun := linesText_run hbefore parseInitial ((F.line c).text ++ 10 :: linesText F.after)
  rw [htext]
  exact congrArg ParseState.policy hrun

theorem Frame.run_after (F : Frame place) (st : ParseState) :
    runFrom st (linesText F.after) = stateAfter F.after st := by
  have hafter : ∀ l ∈ F.after, l.1.Inert := fun l hl =>
    (F.plain l (List.mem_append_right _ hl)).inert
  have hrun := linesText_run hafter st []
  rw [List.append_nil] at hrun
  exact hrun

theorem lineEnd_newline (b : Bytes) : LineEnd (10 :: b) b := LineEnd.eol (Or.inl rfl)

/-- A frame without its comment. -/
theorem Frame.parse_none (F : Frame place) :
    parsePolicy (F.fill none).text =
      (stateAfter F.after (applyItem (stateAfter F.before parseInitial)
        (F.line none).item)).policy := by
  have hline : (F.line none).Plain := ⟨F.comments none, F.literals none⟩
  rw [F.parse, Line.run hline.inert (lineEnd_newline _), F.run_after]

/-- A section header on a line. -/
def headerLine (name : SectionName) : Line × LineBreak :=
  (.header noBlank name noBlank none, newline)

@[simp] theorem headerLine_plain (name : SectionName) : (headerLine name).1.Plain := ⟨rfl, rfl⟩

/-- After a `[[rules]]` header. -/
def ruleOpen : ParseState := ⟨defaultsNew, [], .rule ruleNew⟩

theorem stateAfter_rules : stateAfter [headerLine .rules] parseInitial = ruleOpen := by
  decide

theorem applyItem_ruleOpen (key value : CStr) :
    applyItem ruleOpen (.keyValue key value) =
      ⟨defaultsNew, [], .rule (shkRuleSet ruleNew key value)⟩ := rfl

/-! ### After a scalar -/

/-- Text that is not trimmed at its end stays, whatever follows it. -/
theorem Tight.shkCopyTrim {w : Bytes} (hw : Tight w) (h0 : (0 : UInt8) ∉ w) (y : Bytes) :
    w <+: (Shakti.shkCopyTrim (w ++ y)).bytes := by
  have hrev : w.reverse.dropWhile isTrimmed = w.reverse := by
    simpa using hw.reverse.dropWhile []
  have hprefix : w <+: (((w ++ y).dropWhile isTrimmed).reverse.dropWhile isTrimmed).reverse := by
    rw [hw.dropWhile, List.reverse_append, List.dropWhile_append]
    split
    · simp only [hrev, List.reverse_reverse, List.prefix_refl]
    · rw [List.reverse_append, List.reverse_reverse]
      exact List.prefix_append _ _
  obtain ⟨t, ht⟩ := hprefix
  have hall : ∀ b ∈ w, (b != 0) = true := fun b hb => by
    simpa using ne_of_mem_of_not_mem hb h0
  rw [Shakti.shkCopyTrim, ← ht]
  simp only [CStr.read]
  rw [List.takeWhile_append_of_pos hall]
  exact List.prefix_append _ _

/-- Unquoting takes two bytes away, or none. -/
theorem length_shkUnquote (s : CStr) :
    shkUnquote s = s ∨ (shkUnquote s).length + 2 = s.length := by
  have hinner : 2 ≤ s.length →
      (CStr.read ((s.bytes.drop 1).take (s.length - 2))).length + 2 = s.length := by
    intro hlen
    have hsub : (s.bytes.drop 1).take (s.length - 2) ⊆ s.bytes := fun b hb =>
      List.mem_of_mem_drop (List.mem_of_mem_take hb)
    rw [CStr.length, CStr.read_of_subset hsub, List.length_take, List.length_drop,
      ← CStr.length]
    omega
  rw [shkUnquote]
  split
  · exact Or.inl rfl
  · split
    · exact Or.inr (hinner (by omega))
    · split
      · exact Or.inr (hinner (by omega))
      · exact Or.inl rfl

theorem bareKey_description : BareKey (cstr "description") :=
  ⟨by decide +kernel, by decide +kernel⟩

/-- A rule with a description, and a slot behind it. -/
def descriptionFrame (v : Scalar) : Frame (.afterScalar v) where
  before := [headerLine .rules]
  line := .scalar bareLead (cstr "description") bareKey_description v noBlank
  after := []
  plain := by simp
  comments _ := rfl
  literals _ := rfl
  strips _ _ := Line.Strips.scalar

/-- Only a string in single quotes can leave the scan inside double quotes. -/
theorem exists_literal_of_scanState {v : Scalar} (h : scanState false v.text = some true) :
    ∃ s hs, v = .literal s hs := by
  have hclosed : ¬ ScalarText v.text := by
    intro hs
    have hscan := hs.scan [35]
    rw [scalarScan_append, h] at hscan
    exact absurd (List.append_cancel_left hscan) (by decide)
  cases v with
  | quoted s hs => exact absurd (scalarText_quoted hs) hclosed
  | word w hw => exact absurd (scalarText_word hw.1 hw.2) hclosed
  | literal s hs => exact ⟨s, hs, rfl⟩

/-- A string the scan passes over is read. -/
theorem description_literal {s : CStr} {hs : Literal s}
    (h : scalarScan false (singleQuoted s) = singleQuoted s) :
    (applyItem ruleOpen
      (Line.scalar bareLead (cstr "description") bareKey_description (.literal s hs) noBlank
        none).item).policy.rules.map Rule.description = [s] := by
  have hnul : (0 : UInt8) ∉ singleQuoted s := by simpa [singleQuoted] using s.noNul
  have htight : Tight (singleQuoted s) := by
    refine ⟨39, 39, rfl, ?_, by decide, by decide⟩
    rw [singleQuoted, ← List.cons_append, List.getLast?_concat]
  have htrim : shkCopyTrim (singleQuoted s) = ⟨singleQuoted s, hnul⟩ :=
    @shkCopyTrim_self ⟨singleQuoted s, hnul⟩ htight
  have hunquote : shkUnquote ⟨singleQuoted s, hnul⟩ = s := shkUnquote_between (Or.inr rfl) rfl
  rw [Line.item, Scalar.text, h, htrim]
  simp [ruleOpen, applyItem, ParseState.policy, Section.rules, ruleFields.description.atKey,
    hunquote]

/-- With the scan in a string the value goes on with the comment. -/
theorem description_open {v : Scalar} (h : scanState false v.text = some true) (c : Comment) :
    ∃ y, (runFrom ruleOpen
      ((Line.scalar bareLead (cstr "description") bareKey_description v noBlank (some c)).text ++
        [10])).policy.rules.map Rule.description =
      [shkUnquote (shkCopyTrim ((v.text ++ [35]) ++ y))] := by
  obtain ⟨cr, -, hitems⟩ := @policyItems_scalar bareLead _ bareKey_description v noBlank (some c)
    _ _ (lineEnd_newline [])
  refine ⟨scalarScan true (c.bytes ++ cr), ?_⟩
  rw [runFrom, hitems, scalarScan_append, h]
  simp [policyItems, policyItemsLoop, ruleOpen, applyItem, ParseState.policy, Section.rules,
    ruleFields.description.atKey, noBlank, slotText, scalarScan]

/-- Where the comment scan is in a string at the end of the value, the comment becomes a
part of the value. -/
theorem Unseen.afterScalar {v : Scalar} (h : Unseen (.afterScalar v) c) :
    scanState false v.text ≠ some true := by
  intro hstate
  have hself := scalarScan_append false v.text []
  rw [hstate, List.append_nil] at hself
  simp only [scalarScan, List.append_nil] at hself
  obtain ⟨s, hs, rfl⟩ := exists_literal_of_scanState hstate
  obtain ⟨y, hsome⟩ := description_open hstate c
  have hsame := congrArg (fun p : Policy => p.rules.map Rule.description)
    (h (descriptionFrame (.literal s hs)))
  simp only [Frame.parse_none, Frame.parse (descriptionFrame _) (some c)] at hsame
  rw [descriptionFrame, stateAfter_rules] at hsame
  have heq := List.cons.inj (hsome.symm.trans (hsame.trans (description_literal hself)))
  -- The value with the comment in it is longer than the string.
  have htight : Tight (singleQuoted s ++ [35]) :=
    ⟨39, 35, rfl, by rw [List.getLast?_concat], by decide, by decide⟩
  have hnul : (0 : UInt8) ∉ singleQuoted s ++ [35] := by simpa [singleQuoted] using s.noNul
  have hlong := length_shkUnquote (shkCopyTrim ((singleQuoted s ++ [35]) ++ y))
  have hpre := (htight.shkCopyTrim hnul y).length_le
  have hsize : (singleQuoted s ++ [35]).length = s.bytes.length + 3 := by simp [singleQuoted]
  rw [Scalar.text] at heq
  rw [heq.1] at hlong
  rw [hsize, ← CStr.length, ← CStr.length] at hpre
  rcases hlong with hself | hshort
  · rw [← hself] at hpre
    omega
  · omega

/-! ### At the closing bracket -/

open Writes

/-- The frame of a comment directly after an array. -/
def bracketFrame (before : List (Line × LineBreak)) (key : ListKey) (pieces : List Piece)
    (after : List (Line × LineBreak)) (hlines : ∀ l ∈ before ++ after, l.1.Plain)
    (hpieces : ∀ piece ∈ pieces, piece.Plain) : Frame .atBracket where
  before := before
  line := .array bareLead key pieces noBlank
  after := after
  plain := hlines
  comments c := by
    rw [Line.comments, List.filterMap_eq_nil_iff.mpr fun piece h => (hpieces piece h).1]
    rfl
  literals _ := List.filterMap_eq_nil_iff.mpr fun piece h => (hpieces piece h).2
  strips _ _ := Line.Strips.array

/-- A comment at a bracket is read as lines of policy. -/
theorem Unseen.run (h : Unseen .atBracket c) {before : List (Line × LineBreak)}
    (after : List (Line × LineBreak)) {key : ListKey} {pieces : List Piece}
    (hlines : ∀ l ∈ before ++ after, l.1.Plain)
    (hpieces : ∀ piece ∈ pieces, piece.Plain) {st : ParseState}
    (hst : applyItem (stateAfter before parseInitial)
      (Line.array bareLead key pieces noBlank none).item = st) :
    (runFrom st (c.bytes ++ 10 :: linesText after)).policy = (stateAfter after st).policy := by
  have hinert : ∀ piece ∈ pieces, piece.Inert := fun piece h => (hpieces piece h).inert
  have hsame := h (bracketFrame before key pieces after hlines hpieces)
  rw [Frame.parse_none, Frame.parse] at hsame
  have hbuf : ((bracketFrame before key pieces after hlines hpieces).line (some c)).text ++
      10 :: linesText after = bareLead.text key.name ++ 91 :: (piecesText pieces ++
        93 :: (35 :: (c.bytes ++ 10 :: linesText after))) := by
    simp [bracketFrame, Line.text, noBlank, slotText]
  have hrun : runFrom (stateAfter before parseInitial)
      (((bracketFrame before key pieces after hlines hpieces).line (some c)).text ++
        10 :: linesText after) = runFrom st (c.bytes ++ 10 :: linesText after) := by
    rw [hbuf, runFrom, policyItems_array hinert, ← hst]
    rfl
  rw [← hrun]
  subst hst
  exact hsame

/-- An empty command list leaves the rule as it is. -/
theorem rules_emptyArray :
    applyItem (stateAfter [headerLine .rules] parseInitial)
      (Line.array bareLead .commands [] noBlank none).item = ruleOpen := by
  decide

/-- How many rules a text adds to a rule that is open. -/
theorem length_rules_runFrom (r : Rule) (buf : Bytes) :
    (runFrom ⟨defaultsNew, [], .rule r⟩ buf).policy.rules.length =
      1 + (ruleBlocks (policyItems buf)).length := by
  rw [runFrom, foldl_applyItem]
  simp [Section.rulePart]
  omega

/-- A `[[rules]]` line adds one. -/
theorem length_rules_headerLine (r : Rule) :
    (stateAfter [headerLine .rules] ⟨defaultsNew, [], .rule r⟩).policy.rules.length = 2 := by
  have hne : cstr "rules" ≠ cstr "defaults" := by decide
  simp [stateAfter, headerLine, Line.item, SectionName.name, applyItem, hne,
    ParseState.policy, Section.rules]

theorem linesText_rules : linesText [headerLine .rules] = rulesLine := by decide

/-- Behind the slot, before which a rule is open, the comment starts no rule, and leaves
no array open to swallow the next one. -/
theorem Unseen.closed (h : Unseen .atBracket c) :
    ArraysClosed (c.bytes ++ [10]) ∧ (ruleBlocks (policyItems (c.bytes ++ [10]))).length = 0 := by
  have hnone := congrArg (fun p : Policy => p.rules.length)
    (h.run [] (by simp) (by simp) rules_emptyArray)
  have hrule := congrArg (fun p : Policy => p.rules.length)
    (h.run [headerLine .rules] (by simp) (by simp) rules_emptyArray)
  have hfirst : (stateAfter [] ruleOpen).policy.rules.length = 1 := rfl
  rw [hfirst] at hnone
  simp only [ruleOpen, length_rules_runFrom, linesText_rules, length_rules_headerLine]
    at hnone hrule
  have hzero : (ruleBlocks (policyItems (c.bytes ++ [10]))).length = 0 := by
    have hlen : 1 + (ruleBlocks (policyItems (c.bytes ++ [10]))).length = 1 := hnone
    omega
  refine ⟨?_, hzero⟩
  by_contra hopen
  have hswallowed := rules_swallowed (Or.inr (by simp)) hopen
  rw [List.append_assoc, List.singleton_append] at hswallowed
  omega

/-- A key line with a scalar, without a comment. -/
def keyLine (key : CStr) (hkey : BareKey key) (v : Scalar) : Line × LineBreak :=
  (.scalar bareLead key hkey v noBlank none, newline)

@[simp] theorem keyLine_plain (key : CStr) (hkey : BareKey key) (v : Scalar) :
    (keyLine key hkey v).1.Plain := ⟨rfl, rfl⟩

/-- One of two strings. -/
def sampleString (x : Bool) : Scalar :=
  if x then .quoted (cstr "a") (by decide) else .quoted (cstr "b") (by decide)

/-- One of two numbers. -/
def sampleNumber (x : Bool) : Scalar :=
  if x then .word (cstr "1") (by decide) else .word (cstr "2") (by decide)

/-- One of two flags. -/
def sampleFlag (x : Bool) : Scalar :=
  if x then .word (cstr "true") (by decide) else .word (cstr "false") (by decide)

/-- One of two array entries. -/
def sampleEntry (x : Bool) : List Piece :=
  if x then [.quoted (cstr "a") (by decide)] else [.quoted (cstr "b") (by decide)]

theorem sampleEntry_plain (x : Bool) : ∀ piece ∈ sampleEntry x, piece.Plain := by
  cases x <;> simp [sampleEntry, Piece.Plain, Piece.comment?, Piece.literal?]

theorem bareKey_user : BareKey (cstr "user") := ⟨by decide +kernel, by decide +kernel⟩

/-- Outside a rule section no rule changes. -/
theorem rules_of_not_rule {st : ParseState} (h : ∀ cur, st.sec ≠ .rule cur) {key value : CStr} :
    (applyItem st (.keyValue key value)).policy.rules = st.policy.rules := by
  obtain ⟨defaults, done, sec⟩ := st
  cases sec with
  | none | defaults => rfl
  | rule cur => exact absurd rfl (h cur)

theorem mem_ruleBlocks {items : List Item} (h : .header (cstr "rules") ∈ items) :
    0 < (ruleBlocks items).length := by
  induction items with
  | nil => cases h
  | cons item items ih =>
      rw [length_ruleBlocks_cons]
      rcases List.mem_cons.mp h with rfl | hlater
      · simp only [if_true]
        omega
      · have := ih hlater
        omega

/-- A header that starts no rule ends the rule section, and nothing starts a new one. -/
theorem not_rule_of_header {items : List Item} (hrules : .header (cstr "rules") ∉ items)
    {name : CStr} (h : .header name ∈ items) (st : ParseState) :
    ∀ cur, (items.foldl applyItem st).sec ≠ .rule cur := by
  have hheader : ∀ {name : CStr}, name ≠ cstr "rules" → ∀ st cur,
      (applyItem st (.header name)).sec ≠ .rule cur := by
    intro name hne st cur
    simp only [applyItem, if_neg hne]
    split <;> simp
  have hstep : ∀ {items : List Item} {st : ParseState}, .header (cstr "rules") ∉ items →
      (∀ cur, st.sec ≠ .rule cur) → ∀ cur, (items.foldl applyItem st).sec ≠ .rule cur := by
    intro items
    induction items with
    | nil => exact fun _ hst => hst
    | cons item items ih =>
        intro st hnot hst
        rw [List.mem_cons, not_or] at hnot
        refine ih hnot.2 fun cur => ?_
        cases item with
        | skip => exact hst cur
        | header name => exact hheader (fun heq => hnot.1 (by rw [heq])) st cur
        | keyValue key value =>
            obtain ⟨defaults, done, sec⟩ := st
            cases sec with
            | none | defaults => simp [applyItem]
            | rule cur' => exact absurd rfl (hst cur')
  obtain ⟨pre, post, rfl⟩ := List.append_of_mem h
  rw [List.mem_append, List.mem_cons, not_or, not_or] at hrules
  rw [List.foldl_append, List.foldl_cons]
  exact hstep hrules.2.2 (hheader (fun heq => hrules.2.1 (by rw [heq])) _)

/-- What a comment that leaves no array open says, the lines behind it cannot tell. -/
theorem Unseen.foldl (h : Unseen .atBracket c) {before : List (Line × LineBreak)}
    (after : List (Line × LineBreak)) {key : ListKey} {pieces : List Piece}
    (hlines : ∀ l ∈ before ++ after, l.1.Plain)
    (hpieces : ∀ piece ∈ pieces, piece.Plain) {st : ParseState}
    (hst : applyItem (stateAfter before parseInitial)
      (Line.array bareLead key pieces noBlank none).item = st) :
    (stateAfter after ((policyItems (c.bytes ++ [10])).foldl applyItem st)).policy =
      (stateAfter after st).policy := by
  have hend : EndsLine (c.bytes ++ [10]) := Or.inr (by simp)
  have hitems := policyItems_append h.closed.1 hend (linesText after)
  rw [List.append_assoc, List.singleton_append] at hitems
  have hrun := h.run after hlines hpieces hst
  rw [runFrom, hitems, List.foldl_append] at hrun
  have hafter := (bracketFrame before key pieces after hlines hpieces).run_after
    ((policyItems (c.bytes ++ [10])).foldl applyItem st)
  rw [← hrun]
  exact congrArg ParseState.policy hafter.symm

/-- A header in the comment takes the key behind it away from its rule. -/
theorem Unseen.noHeader (h : Unseen .atBracket c) (name : CStr) :
    .header name ∉ policyItems (c.bytes ++ [10]) := by
  intro hmem
  obtain ⟨-, hzero⟩ := h.closed
  have hrules : .header (cstr "rules") ∉ policyItems (c.bytes ++ [10]) := fun hrule => by
    have := mem_ruleBlocks hrule
    omega
  generalize hst' : (policyItems (c.bytes ++ [10])).foldl applyItem ruleOpen = st'
  have hsame : ∀ x, st'.policy.rules.map Rule.user =
      [some (shkUnquote (shkCopyTrim (scalarScan false (sampleString x).text)))] := by
    intro x
    have hrun := h.foldl [keyLine (cstr "user") bareKey_user (sampleString x)]
      (by simp) (by simp) rules_emptyArray
    have hkept : (stateAfter [keyLine (cstr "user") bareKey_user (sampleString x)] st').policy.rules
        = st'.policy.rules := by
      refine rules_of_not_rule ?_
      rw [← hst']
      exact not_rule_of_header hrules hmem _
    rw [← hkept, ← hst', hrun]
    exact congrArg (fun u => [u]) (ruleFields.user.atKey ruleNew _)
  have htrue := hsame true
  rw [hsame false] at htrue
  exact absurd htrue (by decide)

/-- An array line, without a comment. -/
def arrayLine (key : ListKey) (x : Bool) : Line × LineBreak :=
  (.array bareLead key (sampleEntry x) noBlank none, newline)

@[simp] theorem arrayLine_plain (key : ListKey) (x : Bool) :
    (arrayLine key x).1.Plain := by
  cases x <;> exact ⟨rfl, rfl⟩

/-- A `[defaults]` section, all but its last line. -/
def defaultsLines (x : Bool) : List (Line × LineBreak) :=
  [headerLine .defaults,
    keyLine (cstr "timestamp_ttl") (by decide) (sampleNumber x),
    keyLine (cstr "require_auth") (by decide) (sampleFlag x),
    keyLine (cstr "audit_log") (by decide) (sampleFlag x),
    keyLine (cstr "max_command_len") (by decide) (sampleNumber x),
    keyLine (cstr "include_dir") (by decide) (sampleString x),
    keyLine (cstr "log_session") (by decide) (sampleFlag x),
    keyLine (cstr "session_log_dir") (by decide) (sampleString x),
    keyLine (cstr "log_input") (by decide) (sampleFlag x),
    keyLine (cstr "nss_groups") (by decide) (sampleFlag x)]

/-- Defaults that differ in every field. -/
def sampleDefaults (x : Bool) : Defaults where
  timestampTtl := if x then 1 else 2
  requireAuth := x
  auditLog := x
  envKeep := if x then [cstr "a"] else [cstr "b"]
  maxCommandLen := if x then 1 else 2
  includeDir := some (if x then cstr "a" else cstr "b")
  logSession := x
  sessionLogDir := if x then cstr "a" else cstr "b"
  logInput := x
  nssGroups := x

theorem defaultsLines_parse (x : Bool) :
    applyItem (stateAfter (defaultsLines x) parseInitial)
      (Line.array bareLead .envKeep (sampleEntry x) noBlank none).item =
        ⟨sampleDefaults x, [], .defaults⟩ := by
  cases x <;> decide

theorem defaultsLines_plain (x : Bool) : ∀ l ∈ defaultsLines x ++ [], l.1.Plain := by
  simp [defaultsLines]

/-- A `[[rules]]` section, all but its last line. -/
def rulesLines (x : Bool) : List (Line × LineBreak) :=
  [headerLine .rules,
    keyLine (cstr "user") (by decide) (sampleString x),
    keyLine (cstr "group") (by decide) (sampleString x),
    keyLine (cstr "run_as") (by decide) (sampleString x),
    arrayLine .commands x,
    arrayLine .denyCommands x,
    keyLine (cstr "require_auth") (by decide) (sampleFlag x),
    keyLine (cstr "description") (by decide) (sampleString x),
    keyLine (cstr "log_session") (by decide) (sampleFlag x),
    keyLine (cstr "selinux_context") (by decide) (sampleString x),
    keyLine (cstr "apparmor_profile") (by decide) (sampleString x),
    keyLine (cstr "log_input") (by decide) (sampleFlag x)]

/-- Rules that differ in every field. -/
def sampleRule (x : Bool) : Rule where
  user := some (if x then cstr "a" else cstr "b")
  group := some (if x then cstr "a" else cstr "b")
  runAs := if x then cstr "a" else cstr "b"
  commands := if x then [cstr "a"] else [cstr "b"]
  denyCommands := if x then [cstr "a"] else [cstr "b"]
  requireAuth := x
  description := if x then cstr "a" else cstr "b"
  capabilities := if x then [cstr "a"] else [cstr "b"]
  logSession := some x
  selinuxContext := if x then cstr "a" else cstr "b"
  apparmorProfile := if x then cstr "a" else cstr "b"
  logInput := some x

theorem rulesLines_parse (x : Bool) :
    applyItem (stateAfter (rulesLines x) parseInitial)
      (Line.array bareLead .capabilities (sampleEntry x) noBlank none).item =
        ⟨defaultsNew, [], .rule (sampleRule x)⟩ := by
  cases x <;> decide

theorem rulesLines_plain (x : Bool) : ∀ l ∈ rulesLines x ++ [], l.1.Plain := by
  simp [rulesLines]

/-- A value that does not parse is ignored, any other one replaces what was there. -/
theorem replaces_getD {β : Type} (parse : CStr → Option β) :
    ReplacesOrKeeps (fun old v => (parse v).getD old) := by
  intro v
  cases hv : parse v with
  | none => exact Or.inl fun _ => by simp [hv]
  | some w => exact Or.inr ⟨w, fun _ => by simp [hv]⟩

theorem replaces_orElse {β : Type} (parse : CStr → Option β) :
    ReplacesOrKeeps (fun old v => (parse v).orElse (fun _ => old)) := by
  intro v
  cases hv : parse v with
  | none => exact Or.inl fun _ => by simp [hv]
  | some w => exact Or.inr ⟨some w, fun _ => by simp [hv]⟩

theorem replaces_const {β : Type} (read : CStr → β) : ReplacesOrKeeps (fun (_ : β) v => read v) :=
  fun v => Or.inr ⟨read v, fun _ => rfl⟩

/-- Pairs that leave both samples as they are change no defaults. -/
theorem shkDefSet_keeps {kvs : List (CStr × CStr)}
    (h : ∀ x, fill shkDefSet (sampleDefaults x) kvs = sampleDefaults x) {k v : CStr}
    (hmem : (k, v) ∈ kvs) (d : Defaults) : shkDefSet d k v = d := by
  have hkeeps : ∀ {β : Type} {get : Defaults → β} {key : CStr} {put : β → CStr → β},
      Field shkDefSet get key put → ReplacesOrKeeps put →
      get (sampleDefaults true) ≠ get (sampleDefaults false) → get (shkDefSet d k v) = get d :=
    fun hfield hput hne =>
      hfield.keeps hput (congrArg _ (h true)) (congrArg _ (h false)) hne hmem d
  have hf := defaultsFields
  have hint := replaces_getD shkParseInt
  have hbool := replaces_getD shkParseBool
  apply Defaults.ext
  · exact hkeeps hf.timestampTtl hint (by decide)
  · exact hkeeps hf.requireAuth hbool (by decide)
  · exact hkeeps hf.auditLog hbool (by decide)
  · exact hkeeps hf.envKeep (replaces_const _) (by decide)
  · exact hkeeps hf.maxCommandLen hint (by decide)
  · exact hkeeps hf.includeDir (replaces_const _) (by decide)
  · exact hkeeps hf.logSession hbool (by decide)
  · exact hkeeps hf.sessionLogDir (replaces_const _) (by decide)
  · exact hkeeps hf.logInput hbool (by decide)
  · exact hkeeps hf.nssGroups hbool (by decide)

/-- Pairs that leave both samples as they are change no rule. -/
theorem shkRuleSet_keeps {kvs : List (CStr × CStr)}
    (h : ∀ x, fill shkRuleSet (sampleRule x) kvs = sampleRule x) {k v : CStr}
    (hmem : (k, v) ∈ kvs) (r : Rule) : shkRuleSet r k v = r := by
  have hkeeps : ∀ {β : Type} {get : Rule → β} {key : CStr} {put : β → CStr → β},
      Field shkRuleSet get key put → ReplacesOrKeeps put →
      get (sampleRule true) ≠ get (sampleRule false) → get (shkRuleSet r k v) = get r :=
    fun hfield hput hne =>
      hfield.keeps hput (congrArg _ (h true)) (congrArg _ (h false)) hne hmem r
  have hf := ruleFields
  have hbool := replaces_orElse shkParseBool
  apply Rule.ext
  · exact hkeeps hf.user (replaces_const _) (by decide)
  · exact hkeeps hf.group (replaces_const _) (by decide)
  · exact hkeeps hf.runAs (replaces_const _) (by decide)
  · exact hkeeps hf.commands (replaces_const _) (by decide)
  · exact hkeeps hf.denyCommands (replaces_const _) (by decide)
  · exact hkeeps hf.requireAuth (replaces_getD _) (by decide)
  · exact hkeeps hf.description (replaces_const _) (by decide)
  · exact hkeeps hf.capabilities (replaces_const _) (by decide)
  · exact hkeeps hf.logSession hbool (by decide)
  · exact hkeeps hf.selinuxContext (replaces_const _) (by decide)
  · exact hkeeps hf.apparmorProfile (replaces_const _) (by decide)
  · exact hkeeps hf.logInput hbool (by decide)

/-- Without a header all pairs belong to one block. -/
theorem mem_blockOf {items : List Item} (h : ∀ name, .header name ∉ items) {k v : CStr}
    (hmem : .keyValue k v ∈ items) : (k, v) ∈ blockOf items := by
  induction items with
  | nil => cases hmem
  | cons item items ih =>
      have hrest : ∀ name, .header name ∉ items := fun name hname =>
        h name (List.mem_cons_of_mem _ hname)
      cases item with
      | skip => exact ih hrest (by simpa using hmem)
      | header name => exact absurd (List.mem_cons_self ..) (h name)
      | keyValue key value =>
          rw [blockOf, List.mem_cons]
          rcases List.mem_cons.mp hmem with heq | hlater
          · left
            cases heq
            rfl
          · exact Or.inr (ih hrest hlater)

/-- **At the closing bracket** a comment nobody sees sets nothing. -/
theorem Unseen.atBracket (h : Unseen .atBracket c) : SaysNothing (c.bytes ++ [10]) := by
  refine ⟨h.closed.1, fun item hitem => ?_⟩
  cases item with
  | skip => trivial
  | header name => exact absurd hitem (h.noHeader name)
  | keyValue key value =>
      have hpair := mem_blockOf h.noHeader hitem
      constructor
      · have hkept : ∀ x, fill shkDefSet (sampleDefaults x)
            (blockOf (policyItems (c.bytes ++ [10])) ++
              defaultsPairs (policyItems (c.bytes ++ [10]))) = sampleDefaults x := by
          intro x
          have hrun := h.foldl [] (defaultsLines_plain x) (sampleEntry_plain x)
            (defaultsLines_parse x)
          simp only [stateAfter, List.foldl_nil, foldl_applyItem] at hrun
          exact congrArg Policy.defaults hrun
        exact shkDefSet_keeps hkept (List.mem_append_left _ hpair)
      · refine shkRuleSet_keeps (fun x => ?_) hpair
        have hrun := h.foldl [] (rulesLines_plain x) (sampleEntry_plain x) (rulesLines_parse x)
        simp only [stateAfter, List.foldl_nil, foldl_applyItem] at hrun
        exact (List.cons.inj (congrArg Policy.rules hrun)).1

end Shakti
