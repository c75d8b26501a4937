import Shakti.Policy.ArrayComments

/-!
# Shakti.Policy.QuoteStyle

Strings in single quotes instead of double quotes.

Four scanners of `parse_policy` look at quotes. The item reader and `_shk_unquote` know both
styles; the scan for the `#` of a scalar and the bracket scan of an array know double quotes
only. So the style of a string matters when it holds what these two look for:

* of a scalar, a `#`: in single quotes it starts a comment;
* of an array entry, brackets that are not balanced: in single quotes they move the end of
  the array (`Steady`).

`quoteStyle_iff` says that nothing else does.
-/

namespace Shakti

/-! ### Texts in two styles -/

/-- Where a string is written. -/
inductive StringPlace
  | scalar | entry

section

variable (S : StringPlace → CStr → Prop)

/-- The second value is the first, or its string of the kind `S` in single quotes. -/
inductive Scalar.Requotes : Scalar → Scalar → Prop
  | same (v : Scalar) : Requotes v v
  | quoted {s : CStr} {hs : Quotable s} {hs' : Literal s} : S .scalar s →
      Requotes (.quoted s hs) (.literal s hs')

/-- The second piece is the first, or its string of the kind `S` in single quotes. -/
inductive Piece.Requotes : Piece → Piece → Prop
  | same (piece : Piece) : Requotes piece piece
  | quoted {s : CStr} {hs : Quotable s} {hs' : Literal s} : S .entry s →
      Requotes (.quoted s hs) (.literal s hs')

/-- The second line is the first, with some strings of the kind `S` in single quotes. -/
inductive Line.Requotes : Line → Line → Prop
  | same (l : Line) : Requotes l l
  | scalar {lead : Lead} {key : CStr} {hkey : BareKey key} {v v' : Scalar} {ws : Blank}
      {c : Option Comment} : v.Requotes S v' →
      Requotes (.scalar lead key hkey v ws c) (.scalar lead key hkey v' ws c)
  | array {lead : Lead} {key : ListKey} {pieces pieces' : List Piece} {ws : Blank}
      {c : Option Comment} : List.Forall₂ (Piece.Requotes S) pieces pieces' →
      Requotes (.array lead key pieces ws c) (.array lead key pieces' ws c)

/-- The second document is the first, with some strings of the kind `S` in single quotes. -/
structure Document.Requotes (d d' : Document) : Prop where
  lines : List.Forall₂ (fun l l' => l.1.Requotes S l'.1 ∧ l.2 = l'.2) d.lines d'.lines
  last : Option.Rel (Line.Requotes S) d.last d'.last

end

/-- A string that is read the same in both styles. -/
def StyleFree : StringPlace → CStr → Prop
  | .scalar, s => 35 ∉ s.bytes
  | .entry, s => Steady s

/-- The comments between brackets and at brackets are inert, and the array entries that are in
single quotes already are steady. -/
structure Line.Settled (l : Line) : Prop where
  comments : ∀ pc ∈ l.comments, (∀ v, pc.1 ≠ .afterScalar v) → Shakti.Inert pc.1 pc.2
  literals : ∀ s ∈ l.literals, Steady s

/-- The lines of the document are settled. -/
def Document.Settled (d : Document) : Prop := ∀ l ∈ d.allLines, l.Settled

/-- Without comments between brackets and at brackets, which the format does not have, the
single-quoted entries alone count. -/
theorem Document.Steady.settled {d : Document} (h : d.Steady)
    (hcomments : d.Allows fun place _ => place ≠ .inArray ∧ place ≠ .atBracket) : d.Settled := by
  intro l hl
  refine ⟨fun pc hpc hplace => ?_, h l hl⟩
  obtain ⟨place, c⟩ := pc
  obtain ⟨hinArray, hbracket⟩ := hcomments l hl _ hpc
  cases place with
  | ownLine | afterHeader | afterArray => trivial
  | afterScalar v => exact absurd rfl (hplace v)
  | atBracket => exact absurd rfl hbracket
  | inArray => exact absurd rfl hinArray

/-! ### What differs -/

section

variable {S : StringPlace → CStr → Prop}

/-- The text of a string in the other style: its double quotes have become single ones. -/
def Restyled (x x' : Bytes) : Prop :=
  List.Forall₂ (fun c c' : UInt8 => c = c' ∨ c = 34 ∧ c' = 39) x x'

theorem Restyled.refl (x : Bytes) : Restyled x x := List.forall₂_same.mpr fun _ _ => Or.inl rfl

theorem Restyled.append {x x' y y' : Bytes} (hx : Restyled x x') (hy : Restyled y y') :
    Restyled (x ++ y) (x' ++ y') :=
  List.rel_append hx hy

theorem restyled_string (s : CStr) : Restyled (quoted s) (singleQuoted s) := by
  have hquote : Restyled [34] [39] := .cons (Or.inr ⟨rfl, rfl⟩) .nil
  exact hquote.append ((Restyled.refl s.bytes).append hquote)

theorem Piece.Requotes.text {pieces pieces' : List Piece}
    (h : List.Forall₂ (Piece.Requotes S) pieces pieces') :
    Restyled (piecesText pieces) (piecesText pieces') := by
  induction h with
  | nil => exact .nil
  | cons hpiece _ ih =>
      refine Restyled.append ?_ ih
      cases hpiece with
      | same piece => exact Restyled.refl _
      | quoted => exact restyled_string _

theorem Line.Requotes.text {l l' : Line} (h : l.Requotes S l') : Restyled l.text l'.text := by
  cases h with
  | same l => exact Restyled.refl _
  | scalar hv =>
      refine (Restyled.refl _).append (Restyled.append ?_ (Restyled.refl _))
      cases hv with
      | same v => exact Restyled.refl _
      | quoted => exact restyled_string _
  | @array lead key pieces pieces' ws c hpieces =>
      have hopen := Restyled.refl [91]
      exact (Restyled.refl _).append
        (hopen.append ((Piece.Requotes.text hpieces).append (Restyled.refl _)))

/-- In the other style some double quotes are single ones, and nothing else differs. -/
theorem Document.Requotes.text {d d' : Document} (h : d.Requotes S d') :
    Restyled d.text d'.text := by
  have hlines : ∀ {lines lines' : List (Line × LineBreak)},
      List.Forall₂ (fun l l' => l.1.Requotes S l'.1 ∧ l.2 = l'.2) lines lines' →
      Restyled (linesText lines) (linesText lines') := by
    intro lines lines' hlines
    induction hlines with
    | nil => exact .nil
    | cons hl _ ih => exact Restyled.append (hl.1.text.append (hl.2 ▸ Restyled.refl _)) ih
  obtain ⟨lines, last⟩ := d
  obtain ⟨lines', last'⟩ := d'
  obtain ⟨hall, hlast⟩ := h
  refine (hlines hall).append ?_
  cases hlast with
  | none => exact .nil
  | some hl => exact hl.text

end

/-! ### Strings are read the same -/

/-- What the readers make of a string in quotes of either style. -/
theorem readers_string {q : UInt8} (hq : IsQuote q) {s v : CStr}
    (h : v.bytes = q :: (s.bytes ++ [q])) :
    shkUnquote v = s ∧ shkParseInt v = none ∧ shkParseBool v = none ∧ shkParseStrArray v = [] := by
  have hword : ∀ w : CStr, w.bytes.head? ≠ some 34 → w.bytes.head? ≠ some 39 → v ≠ w := by
    rintro w h34 h39 rfl
    rw [h] at h34 h39
    rcases hq with rfl | rfl
    · exact h34 rfl
    · exact h39 rfl
  refine ⟨shkUnquote_between hq h, ?_, ?_, ?_⟩
  · have hlen : v.length ≠ 0 := by simp [CStr.length, h]
    rw [shkParseInt, if_neg hlen, h, shkParseIntLoop, if_pos]
    rcases hq with rfl | rfl <;> decide
  · rw [shkParseBool, if_neg (hword _ (by decide) (by decide)),
      if_neg (hword _ (by decide) (by decide)),
      if_neg (hword _ (by decide) (by decide)),
      if_neg (hword _ (by decide) (by decide))]
  · refine shkParseStrArray_other fun rest hv => ?_
    obtain ⟨rfl, -⟩ := List.cons.inj (h.symm.trans hv)
    exact absurd hq (by decide)

/-- The setters look at a value through its readers only. -/
theorem applyItem_readers {v v' : CStr} (hunquote : shkUnquote v = shkUnquote v')
    (hint : shkParseInt v = shkParseInt v') (hbool : shkParseBool v = shkParseBool v')
    (harray : shkParseStrArray v = shkParseStrArray v') (key : CStr) (st : ParseState) :
    applyItem st (.keyValue key v) = applyItem st (.keyValue key v') := by
  simp only [applyItem, shkDefSet, shkRuleSet, hunquote, hint, hbool, harray]

/-- A string in quotes, and spaces behind it, is trimmed to the string in quotes. -/
theorem shkCopyTrim_string {q : UInt8} (hq : IsQuote q) (s : CStr) {ws : Bytes} (hws : Spaces ws) :
    (shkCopyTrim (q :: (s.bytes ++ [q]) ++ ws)).bytes = q :: (s.bytes ++ [q]) := by
  have hnul : (0 : UInt8) ∉ q :: (s.bytes ++ [q]) := by
    have hne : (0 : UInt8) ≠ q := by rcases hq with rfl | rfl <;> decide
    simp [s.noNul, hne]
  have htight : Tight (q :: (s.bytes ++ [q])) := by
    refine ⟨q, q, rfl, ?_, hq.not_isTrimmed, hq.not_isTrimmed⟩
    rw [← List.cons_append, List.getLast?_concat]
  rw [shkCopyTrim_append_spaces _ hws, shkCopyTrim_tight htight, CStr.read_of_noNul hnul]

/-- Behind the quotes the comment scan leaves spaces. -/
theorem spaces_scalarScan (ws : Blank) (c : Option Comment) :
    Spaces (scalarScan false (ws.1 ++ slotText c)) := by
  cases c with
  | none =>
      rw [slotText, List.append_nil, scalarScan_of_spaces ws.2.spaces]
      exact ws.2.spaces
  | some c =>
      rw [slotText, scalarScan_comment ws.2]
      exact ws.2.spaces

/-- In single quotes the comment scan passes over a string without a `#`. -/
theorem scalarScan_literal {s : CStr} (hs : Quotable s) (hhash : 35 ∉ s.bytes) (l : Bytes) :
    scalarScan false (singleQuoted s ++ l) = singleQuoted s ++ scalarScan false l := by
  refine scalarScan_pass (fun c hc => ?_) l
  simp only [singleQuoted, List.mem_cons, List.mem_append, List.not_mem_nil, or_false] at hc
  rcases hc with rfl | hc | rfl
  · decide
  · exact ⟨(hs c hc).1, ne_of_mem_of_not_mem hc hhash⟩
  · decide

/-! ### Lines are read the same -/

/-- What the reader takes a line for, whatever follows the line. -/
def Line.itemRead : Line → Item
  | .scalar _ key _ v ws c =>
      .keyValue key (shkCopyTrim (scalarScan false (v.text ++ (ws.1 ++ slotText c))))
  | l => l.item

/-- The lines that are no scalars are inert when they are settled. -/
theorem Line.Settled.inert {l : Line} (hl : l.Settled)
    (hplace : ∀ pc ∈ l.comments, ∀ v, pc.1 ≠ .afterScalar v) : l.Inert :=
  ⟨fun pc hpc => hl.comments pc hpc (hplace pc hpc), hl.literals⟩

theorem Line.Settled.inert_array {lead : Lead} {key : ListKey} {pieces : List Piece} {ws : Blank}
    {c : Option Comment} (hl : (Line.array lead key pieces ws c).Settled) :
    (Line.array lead key pieces ws c).Inert := by
  refine hl.inert fun pc hpc v => ?_
  rcases List.mem_append.mp hpc with hpc | hpc
  · obtain ⟨c', -, rfl⟩ := List.mem_map.mp hpc
    simp
  · obtain ⟨c', -, rfl⟩ := List.mem_map.mp hpc
    dsimp only
    split <;> simp

/-- A settled line is read up to its end. -/
theorem Line.Settled.run {l : Line} (hl : l.Settled) {rest b : Bytes} (h : LineEnd rest b)
    (st : ParseState) : runFrom st (l.text ++ rest) = runFrom (applyItem st l.itemRead) b := by
  cases l with
  | blank ws c | header ws name ws' c =>
      refine Line.run (hl.inert fun pc hpc => ?_) h st
      obtain ⟨c', -, rfl⟩ := List.mem_map.mp hpc
      simp
  | array lead key pieces ws c => exact Line.run hl.inert_array h st
  | scalar lead key hkey v ws c =>
      obtain ⟨cr, hcr, hitems⟩ := @policyItems_scalar lead key hkey v ws c rest b h
      have hvalue : shkCopyTrim (scalarScan false ((v.text ++ (ws.1 ++ slotText c)) ++ cr)) =
          shkCopyTrim (scalarScan false (v.text ++ (ws.1 ++ slotText c))) :=
        shkCopyTrim_scan fun q _ => by rwa [scalarScan_of_spaces hcr]
      simp only [List.append_assoc] at hvalue
      rw [runFrom, hitems, hvalue]
      rfl

section

variable {S : StringPlace → CStr → Prop}
  (hgood : ∀ place s, Quotable s → Literal s → S place s → StyleFree place s)

include hgood

/-- A scalar is read as the same string in both styles. -/
theorem Scalar.Requotes.apply {v v' : Scalar} (h : v.Requotes S v') (ws : Blank)
    (c : Option Comment) (key : CStr) (st : ParseState) :
    applyItem st (.keyValue key (shkCopyTrim (scalarScan false (v.text ++ (ws.1 ++ slotText c))))) =
      applyItem st
        (.keyValue key (shkCopyTrim (scalarScan false (v'.text ++ (ws.1 ++ slotText c))))) := by
  cases h with
  | same v => rfl
  | @quoted s hs hs' hS =>
      have hspaces := spaces_scalarScan ws c
      have hdouble := readers_string (q := 34) (Or.inl rfl)
        (shkCopyTrim_string (Or.inl rfl) s hspaces)
      have hsingle := readers_string (q := 39) (Or.inr rfl)
        (shkCopyTrim_string (Or.inr rfl) s hspaces)
      rw [Scalar.text, Scalar.text, (scalarText_quoted hs).scan,
        scalarScan_literal hs (hgood .scalar s hs hs' hS)]
      exact applyItem_readers (hdouble.1.trans hsingle.1.symm)
        (hdouble.2.1.trans hsingle.2.1.symm) (hdouble.2.2.1.trans hsingle.2.2.1.symm)
        (hdouble.2.2.2.trans hsingle.2.2.2.symm) key st

/-- A string in single quotes was there before, or is steady. -/
theorem Piece.Requotes.steady {pieces pieces' : List Piece}
    (h : List.Forall₂ (Piece.Requotes S) pieces pieces') :
    ∀ s ∈ pieces'.filterMap Piece.literal?, s ∈ pieces.filterMap Piece.literal? ∨ Steady s := by
  induction h with
  | nil => simp
  | @cons piece piece' pieces pieces' hpiece _ ih =>
      intro s hmem
      obtain ⟨p, hp, hlit⟩ := List.mem_filterMap.mp hmem
      rcases List.mem_cons.mp hp with rfl | hp
      · cases hpiece with
        | same => exact Or.inl (List.mem_filterMap.mpr ⟨_, List.mem_cons_self, hlit⟩)
        | @quoted s' hs hs' hS =>
            obtain rfl := Option.some.inj hlit
            exact Or.inr (hgood .entry s' hs hs' hS)
      · refine (ih s (List.mem_filterMap.mpr ⟨p, hp, hlit⟩)).imp_left fun hold => ?_
        obtain ⟨p', hp', hlit'⟩ := List.mem_filterMap.mp hold
        exact List.mem_filterMap.mpr ⟨p', List.mem_cons_of_mem _ hp', hlit'⟩

omit hgood in
/-- What both styles of a string have in common, the pieces of an array have in common. -/
theorem Piece.Requotes.filterMap {β : Type} {f : Piece → Option β}
    (hf : ∀ s hs hs', f (.quoted s hs) = f (.literal s hs')) {pieces pieces' : List Piece}
    (h : List.Forall₂ (Piece.Requotes S) pieces pieces') :
    pieces.filterMap f = pieces'.filterMap f := by
  induction h with
  | nil => rfl
  | cons hpiece _ ih =>
      rw [List.filterMap_cons, List.filterMap_cons, ih]
      cases hpiece with
      | same => rfl
      | quoted => rw [hf]

/-- A settled line is settled in the other style too. -/
theorem Line.Requotes.settled {l l' : Line} (h : l.Requotes S l') (hl : l.Settled) :
    l'.Settled := by
  cases h with
  | same => exact hl
  | scalar =>
      refine ⟨fun pc hpc hplace => ?_, fun s hs => by cases hs⟩
      obtain ⟨c', -, rfl⟩ := List.mem_map.mp hpc
      exact absurd rfl (hplace _)
  | array hpieces =>
      have hcomments := Piece.Requotes.filterMap (f := Piece.comment?) (fun _ _ _ => rfl) hpieces
      refine ⟨fun pc hpc => hl.comments pc ?_, fun s hs => ?_⟩
      · rw [Line.comments, hcomments]
        exact hpc
      · exact (Piece.Requotes.steady hgood hpieces s hs).elim (hl.literals s) id

/-- A settled line says the same in both styles. -/
theorem Line.Requotes.apply {l l' : Line} (h : l.Requotes S l') (hl : l.Settled)
    (st : ParseState) : applyItem st l.itemRead = applyItem st l'.itemRead := by
  have hl' := h.settled hgood hl
  cases h with
  | same => rfl
  | scalar hv => exact hv.apply hgood _ _ _ st
  | @array lead key pieces pieces' ws c hpieces =>
      refine applyItem_listKey key ?_ st
      rw [shkParseStrArray_pieces hl.inert_array.pieces,
        shkParseStrArray_pieces hl'.inert_array.pieces,
        Piece.Requotes.filterMap (fun _ _ _ => rfl) hpieces]

/-- The reader gets to the end of a line in the same state. -/
theorem Line.Requotes.run {l l' : Line} (h : l.Requotes S l') (hl : l.Settled) {rest b rest' b' :
    Bytes} (hend : LineEnd rest b) (hend' : LineEnd rest' b')
    (htail : ∀ st, runFrom st b = runFrom st b') (st : ParseState) :
    runFrom st (l.text ++ rest) = runFrom st (l'.text ++ rest') := by
  rw [hl.run hend, (h.settled hgood hl).run hend', h.apply hgood hl, htail]

/-- The reader gets through some lines to the same state. -/
theorem Line.Requotes.lines {lines lines' : List (Line × LineBreak)}
    (h : List.Forall₂ (fun l l' => l.1.Requotes S l'.1 ∧ l.2 = l'.2) lines lines')
    (hsettled : ∀ l ∈ lines, l.1.Settled) {t t' : Bytes}
    (htail : ∀ st, runFrom st t = runFrom st t') (st : ParseState) :
    runFrom st (linesText lines ++ t) = runFrom st (linesText lines' ++ t') := by
  induction h generalizing st with
  | nil => exact htail st
  | @cons l l' lines lines' hl _ ih =>
      rw [List.forall_mem_cons] at hsettled
      have htext : ∀ (l : Line × LineBreak) (lines : List (Line × LineBreak)) (t : Bytes),
          linesText (l :: lines) ++ t = l.1.text ++ (l.2.1 ++ (linesText lines ++ t)) := by
        intro l lines t
        simp [linesText]
      rw [htext, htext, ← hl.2]
      exact hl.1.run hgood hsettled.1 (LineEnd.eol l.2.2) (LineEnd.eol l.2.2) (ih hsettled.2) st

/-- **Both styles are read the same**, where the strings are of a kind that the scanners pass
over. -/
theorem Document.Requotes.parsePolicy {d d' : Document} (h : d.Requotes S d') (hd : d.Settled) :
    parsePolicy d.text = Shakti.parsePolicy d'.text := by
  obtain ⟨lines, last⟩ := d
  obtain ⟨lines', last'⟩ := d'
  obtain ⟨hlines, hlast⟩ := h
  have hend : ∀ st, runFrom st ((last.map Line.text).getD []) =
      runFrom st ((last'.map Line.text).getD []) := by
    intro st
    cases hlast with
    | none => rfl
    | @some l l' hl =>
        have hself := hl.run hgood (hd l (by simp [Document.allLines])) LineEnd.eof LineEnd.eof
          (fun _ => rfl) st
        simpa using hself
  have hsettled : ∀ l ∈ lines, l.1.Settled := fun l hl =>
    hd l.1 (List.mem_append_left _ (List.mem_map_of_mem hl))
  exact congrArg ParseState.policy
    (Line.Requotes.lines hgood hlines hsettled hend parseInitial)

end

/-! ### Strings that tell -/

theorem length_shkCopyTrim_le (x : Bytes) : (shkCopyTrim x).length ≤ x.length := by
  have hright : (((x.dropWhile isTrimmed).reverse.dropWhile isTrimmed).reverse).length ≤
      x.length := by
    rw [List.length_reverse]
    refine (List.dropWhile_suffix _).length_le.trans ?_
    rw [List.length_reverse]
    exact (List.dropWhile_suffix _).length_le
  exact (List.takeWhile_prefix _).length_le.trans hright

/-- Of a string that is cut behind its opening quote, the quote stays. -/
theorem quote_mem_shkUnquote {pre : Bytes} {s : CStr} (hlen : pre.length < s.length)
    (h : shkUnquote (shkCopyTrim (39 :: pre)) = s) : 39 ∈ s.bytes := by
  have hquote : [39] <+: (shkCopyTrim ([39] ++ pre)).bytes :=
    Tight.shkCopyTrim ⟨39, 39, rfl, rfl, by decide, by decide⟩ (by decide) pre
  have hle : (shkCopyTrim (39 :: pre)).length ≤ pre.length + 1 := length_shkCopyTrim_le _
  rcases length_shkUnquote (shkCopyTrim (39 :: pre)) with hself | hshort
  · rw [← h, hself]
    exact hquote.subset (List.mem_singleton_self _)
  · rw [h] at hshort
    omega

/-- A policy of one rule with a description. -/
def descriptionText (v : Scalar) : Document where
  lines := [headerLine .rules, keyLine (cstr "description") bareKey_description v]
  last := none

theorem descriptionText_plain (v : Scalar) : ∀ l ∈ (descriptionText v).lines, l.1.Plain := by
  intro l hl
  rcases List.mem_pair.mp hl with rfl | rfl <;> simp

theorem descriptionText_parse (v : Scalar) :
    (parsePolicy (descriptionText v).text).rules.map Rule.description =
      [shkUnquote (shkCopyTrim (scalarScan false v.text))] := by
  have hrun := linesText_run (fun l hl => (descriptionText_plain v l hl).inert) parseInitial []
  have hstate : (descriptionText v).lines.foldl (fun st l => applyItem st l.1.item) parseInitial =
      applyItem ruleOpen (.keyValue (cstr "description")
        (shkCopyTrim (scalarScan false v.text))) := by
    rw [← stateAfter_rules]
    rfl
  rw [hstate, applyItem_ruleOpen] at hrun
  have hpolicy := congrArg (fun st => st.policy.rules.map Rule.description) hrun
  exact hpolicy.trans (congrArg (fun s => [s]) (ruleFields.description.atKey ruleNew _))

/-- In a description a `#` tells the styles apart. -/
theorem hash_tells {s : CStr} (hs : Quotable s) (hs' : Literal s)
    (h : parsePolicy (descriptionText (.quoted s hs)).text =
      parsePolicy (descriptionText (.literal s hs')).text) : 35 ∉ s.bytes := by
  intro hhash
  have hdouble : shkUnquote (shkCopyTrim (scalarScan false (quoted s))) = s := by
    have hscan := (scalarText_quoted hs).scan []
    rw [List.append_nil] at hscan
    rw [hscan]
    exact (readers_string (Or.inl rfl)
      (@shkCopyTrim_string 34 (Or.inl rfl) s [] (by simp [Spaces]))).1
  have hsame := congrArg (fun p : Policy => p.rules.map Rule.description) h
  simp only [descriptionText_parse, Scalar.text, hdouble] at hsame
  obtain ⟨pre, post, hsplit, hpre⟩ := List.eq_append_cons_of_mem hhash
  have hscan : scalarScan false (singleQuoted s) = 39 :: pre := by
    have hpass : ∀ c ∈ 39 :: pre, c ≠ 34 ∧ c ≠ 35 := by
      rw [List.forall_mem_cons]
      refine ⟨by decide, fun c hc => ⟨(hs c ?_).1, ne_of_mem_of_not_mem hc hpre⟩⟩
      rw [hsplit]
      exact List.mem_append_left _ hc
    have hstop := scalarScan_pass hpass (35 :: (post ++ [39]))
    rw [singleQuoted, hsplit]
    simpa [scalarScan] using hstop
  rw [hscan] at hsame
  have hlen : pre.length < s.length := by
    rw [CStr.length, hsplit, List.length_append, List.length_cons]
    omega
  exact (hs' 39 (quote_mem_shkUnquote hlen (List.cons.inj hsame).1.symm)).1 rfl

/-- A policy of one rule with an array, a first piece of which stands on a line of its own. -/
def entryText (key : ListKey) (first : Piece) (pieces : List Piece)
    (after : List (Line × LineBreak)) : Document where
  lines := headerLine .rules ::
    (.array bareLead key (first :: .comment none newline :: pieces) noBlank none, newline) :: after
  last := none

theorem bracketState_quote (depth : Nat) (inQ : Bool) (x : Bytes) :
    bracketState (depth + 1) inQ (x ++ [39]) = bracketState (depth + 1) inQ x := by
  induction x generalizing depth inQ with
  | nil => cases inQ <;> simp [bracketState]
  | cons c x ih =>
      obtain ⟨depth', inQ', -, hstep⟩ := arrayScan_step depth inQ c
      rw [List.cons_append, (hstep _).2.2, (hstep _).2.2]
      cases depth' with
      | zero => cases x <;> rfl
      | succ depth' => exact ih depth' inQ'

/-- In an array a string that is read leaves the bracket scan where it was. -/
theorem SlotReads.steady {s : CStr} (h : SlotReads (singleQuoted s) [s]) : Steady s := by
  have hstate := h.bracketState
  rw [singleQuoted, ← List.cons_append, bracketState_quote] at hstate
  show Shakti.bracketState 1 false s.bytes = some (1, false)
  simpa [Shakti.bracketState] using hstate

theorem entryText_text (key : ListKey) (first : Piece) (pieces : List Piece)
    (after : List (Line × LineBreak)) :
    (entryText key first pieces after).text = linesText [headerLine .rules] ++
      (bareLead.text key.name ++
        91 :: (first.text ++ 10 :: (piecesText pieces ++ 93 :: 10 :: linesText after))) := by
  simp [entryText, Document.text, linesText, Line.text, piecesText, Piece.text, noBlank, newline,
    slotText]

/-- The lines are plain when the pieces are. -/
theorem entryText_plain {key : ListKey} {first : Piece} {pieces : List Piece}
    {after : List (Line × LineBreak)} (hfirst : first.Plain)
    (hpieces : ∀ piece ∈ pieces, piece.Plain) (hafter : ∀ l ∈ after, l.1.Plain) :
    ∀ l ∈ (entryText key first pieces after).lines, l.1.Plain := by
  have hall : ∀ piece ∈ first :: .comment none newline :: pieces, piece.Plain := by
    rw [List.forall_mem_cons, List.forall_mem_cons]
    exact ⟨hfirst, ⟨rfl, rfl⟩, hpieces⟩
  have hcomments := List.filterMap_eq_nil_iff.mpr fun piece h => (hall piece h).1
  have hliterals := List.filterMap_eq_nil_iff.mpr fun piece h => (hall piece h).2
  rw [entryText, List.forall_mem_cons, List.forall_mem_cons]
  exact ⟨headerLine_plain .rules, ⟨by simp [Line.comments, hcomments], hliterals⟩, hafter⟩

theorem parsePolicy_rules (t : Bytes) :
    parsePolicy (linesText [headerLine .rules] ++ t) = (runFrom ruleOpen t).policy := by
  have hinert : ∀ l ∈ [headerLine .rules], l.1.Inert := by simp [Line.Plain.inert]
  have hrun := linesText_run hinert parseInitial t
  rw [← stateAfter_rules]
  exact congrArg ParseState.policy hrun

/-- When a first entry is read the same in both styles, its text in single quotes is read as
the entry. -/
theorem slotReads_of_requoted {s : CStr} (hs : Quotable s) (hs' : Literal s)
    (h : ∀ key pieces after, (∀ piece ∈ pieces, Piece.Plain piece) →
      (∀ l ∈ after, Line.Plain l.1) →
      parsePolicy (entryText key (.quoted s hs) pieces after).text =
        parsePolicy (entryText key (.literal s hs') pieces after).text) :
    SlotReads (singleQuoted s) [s] := by
  intro key pieces after hpieces hafter
  have hplain := @entryText_plain key (.quoted s hs) pieces after ⟨rfl, rfl⟩ hpieces hafter
  have hinert : ∀ piece ∈ .quoted s hs :: .comment none newline :: pieces, piece.Inert := by
    rw [List.forall_mem_cons, List.forall_mem_cons]
    exact ⟨Piece.Plain.inert ⟨rfl, rfl⟩, Piece.Plain.inert ⟨rfl, rfl⟩,
      fun piece hpiece => (hpieces piece hpiece).inert⟩
  have hentries := shkParseStrArray_pieces hinert
  refine ⟨_, hentries, ?_⟩
  have hrun := linesText_run (fun l hl => (hplain l hl).inert) parseInitial []
  have hsame := h key pieces after hpieces hafter
  rw [entryText_text key (.literal s hs'), parsePolicy_rules] at hsame
  rw [← stateAfter_rules] at hsame ⊢
  exact hsame.symm.trans (congrArg ParseState.policy hrun)

/-! ### Both styles -/

theorem Line.Plain.settled {l : Line} (h : l.Plain) : l.Settled where
  comments := by simp [h.1]
  literals := by simp [h.2]

/-- A document of plain lines is settled. -/
theorem Document.settled_of_plain {lines : List (Line × LineBreak)}
    (h : ∀ l ∈ lines, l.1.Plain) : Document.Settled ⟨lines, none⟩ := by
  intro l hl
  rw [Document.allLines, Option.toList_none, List.append_nil] at hl
  obtain ⟨l', hl', rfl⟩ := List.mem_map.mp hl
  exact (h l' hl').settled

/-- Lines that are rewritten in one place. -/
theorem requotes_line {S : StringPlace → CStr → Prop} {l l' : Line} (h : l.Requotes S l')
    (e : LineBreak) (lines : List (Line × LineBreak)) :
    Document.Requotes S ⟨headerLine .rules :: (l, e) :: lines, none⟩
      ⟨headerLine .rules :: (l', e) :: lines, none⟩ where
  lines := .cons ⟨Line.Requotes.same _, rfl⟩ (.cons ⟨h, rfl⟩
    (List.forall₂_same.mpr fun _ _ => ⟨Line.Requotes.same _, rfl⟩))
  last := .none

/-- **Which strings are read the same in both styles**: writing strings of a kind in single
quotes instead of double quotes never changes the policy exactly when its scalars hold no `#`
and its array entries leave the bracket scan where it was. The texts are those that are read up
to the end of their arrays by themselves. -/
theorem quoteStyle_iff (S : StringPlace → CStr → Prop) :
    (∀ d d' : Document, d.Settled → d.Requotes S d' → parsePolicy d.text = parsePolicy d'.text) ↔
      ∀ place s, Quotable s → Literal s → S place s → StyleFree place s := by
  constructor
  · intro hsame place s hs hs' hS
    cases place with
    | scalar =>
        refine hash_tells hs hs' (hsame _ _ ?_ (requotes_line (.scalar (.quoted hS)) newline []))
        exact Document.settled_of_plain (descriptionText_plain _)
    | entry =>
        have hreads : SlotReads (singleQuoted s) [s] := by
          refine slotReads_of_requoted hs hs' fun key pieces after hpieces hafter =>
            hsame _ _ ?_ (requotes_line (.array (.cons (.quoted hS) ?_)) newline after)
          · exact Document.settled_of_plain (entryText_plain ⟨rfl, rfl⟩ hpieces hafter)
          · exact List.forall₂_same.mpr fun piece _ => Piece.Requotes.same piece
        exact hreads.steady
  · intro hgood d d' hd hrequotes
    exact hrequotes.parsePolicy hgood hd

/-- **The style of a string takes effect**: in single quotes a `#` cuts the description. -/
theorem quoteStyle_takesEffect :
    ¬ ∀ d d' : Document, d.Settled → d.Requotes (fun _ _ => True) d' →
      parsePolicy d.text = parsePolicy d'.text := by
  intro hclaim
  have hsame := hclaim (descriptionText (.quoted (cstr "a # b") (by decide)))
    (descriptionText (.literal (cstr "a # b") (by decide)))
    (Document.settled_of_plain (descriptionText_plain _))
    (requotes_line (.scalar (.quoted trivial)) newline [])
  have hdescription := congrArg (fun p : Policy => p.rules.map Rule.description) hsame
  exact absurd hdescription (by decide)

end Shakti
