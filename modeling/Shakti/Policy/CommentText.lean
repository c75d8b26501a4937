import Shakti.Policy.Render

/-!
# Shakti.Policy.CommentText

Policy texts with comments.

`Shakti.Policy.Render` writes policies down; here a text is taken apart the other way
round, into the lines of the documented format with a slot wherever a `#` may stand
outside a quoted string (`Place`):

* alone on a line, or after a section header;
* after a string, a number or a keyword;
* after the closing bracket of an array, with a blank before the `#` or directly there;
* between the brackets of an array, to the end of one of its lines.

Strings may stand between double or single quotes. `Document.Strips` removes the bytes
from one `#` up to the end of its line.
-/

namespace Shakti

/-! ### Comments -/

/-- A comment without its `#`. -/
structure Comment where
  bytes : Bytes
  /-- It ends with its line. -/
  oneLine : 10 ∉ bytes

/-- Spaces and tabs. -/
abbrev Blank := {ws : Bytes // Blanks ws}

/-- The end of a line. -/
abbrev LineBreak := {e : Bytes // Eol e}

/-- What a slot for a comment holds. -/
def slotText : Option Comment → Bytes
  | none => []
  | some c => 35 :: c.bytes

/-- What is left of a slot when the bytes from a `#` on are removed: of the first `#`, or
of one in the text of the comment. -/
inductive Cut : Option Comment → Option Comment → Prop
  | whole (c : Comment) : Cut (some c) none
  | inner {c c' : Comment} {t : Bytes} : c.bytes = c'.bytes ++ 35 :: t → Cut (some c) (some c')

/-! ### Values -/

/-- A string that may stand between single quotes. -/
def Literal (s : CStr) : Prop := ∀ c ∈ s.bytes, c ≠ 39 ∧ c ≠ 10 ∧ c ≠ 13

instance (s : CStr) : Decidable (Literal s) := List.decidableBAll _ s.bytes

/-- A string in single quotes. -/
def singleQuoted (s : CStr) : Bytes := 39 :: (s.bytes ++ [39])

/-- A number or a keyword. -/
def Word (w : CStr) : Prop :=
  w.bytes ≠ [] ∧ ∀ c ∈ w.bytes, (48 ≤ c ∧ c ≤ 57) ∨ (97 ≤ c ∧ c ≤ 122) ∨ c = 95

instance (w : CStr) : Decidable (Word w) :=
  have : Decidable (∀ c ∈ w.bytes, (48 ≤ c ∧ c ≤ 57) ∨ (97 ≤ c ∧ c ≤ 122) ∨ c = 95) :=
    List.decidableBAll _ w.bytes
  inferInstanceAs (Decidable (_ ∧ _))

/-- A value that is not an array. -/
inductive Scalar
  | quoted (s : CStr) (h : Quotable s)
  | literal (s : CStr) (h : Literal s)
  | word (w : CStr) (h : Word w)

/-- A scalar as it is written. -/
def Scalar.text : Scalar → Bytes
  | .quoted s _ => Shakti.quoted s
  | .literal s _ => singleQuoted s
  | .word w _ => w.bytes

/-- A piece of what stands between the brackets of an array. -/
inductive Piece
  | space (c : UInt8) (h : isTrimmed c = true)
  | comma
  | quoted (s : CStr) (h : Quotable s)
  | literal (s : CStr) (h : Literal s)
  | comment (c : Option Comment) (e : LineBreak)

/-- A piece as it is written. -/
def Piece.text : Piece → Bytes
  | .space c _ => [c]
  | .comma => [44]
  | .quoted s _ => Shakti.quoted s
  | .literal s _ => singleQuoted s
  | .comment c e => slotText c ++ e.1

/-- The entry a piece writes down. -/
def Piece.entry : Piece → Option CStr
  | .quoted s _ => some s
  | .literal s _ => some s
  | _ => none

/-- What stands between the brackets of an array. -/
def piecesText (pieces : List Piece) : Bytes := pieces.flatMap Piece.text

/-! ### Lines -/

/-- The sections of a policy. -/
inductive SectionName
  | defaults | rules

/-- A section's name as it is written. -/
def SectionName.name : SectionName → CStr
  | .defaults => cstr "defaults"
  | .rules => cstr "rules"

/-- The keys that hold an array. -/
inductive ListKey
  | envKeep | commands | denyCommands | capabilities

/-- A key as it is written. -/
def ListKey.name : ListKey → CStr
  | .envKeep => cstr "env_keep"
  | .commands => cstr "commands"
  | .denyCommands => cstr "deny_commands"
  | .capabilities => cstr "capabilities"

/-- The blanks before a key, between the key and the `=`, and after the `=`. -/
structure Lead where
  before : Blank
  between : Blank
  after : Blank

/-- A key line up to its value. -/
def Lead.text (lead : Lead) (key : CStr) : Bytes :=
  lead.before.1 ++ (key.bytes ++ (lead.between.1 ++ 61 :: lead.after.1))

/-- A line of a policy text, without its end; an array may run over several lines of the
file. -/
inductive Line
  | blank (ws : Blank) (c : Option Comment)
  | header (ws : Blank) (name : SectionName) (ws' : Blank) (c : Option Comment)
  | scalar (lead : Lead) (key : CStr) (hkey : BareKey key) (v : Scalar) (ws : Blank)
      (c : Option Comment)
  | array (lead : Lead) (key : ListKey) (pieces : List Piece) (ws : Blank)
      (c : Option Comment)

/-- A line as it is written. -/
def Line.text : Line → Bytes
  | .blank ws c => ws.1 ++ slotText c
  | .header ws name ws' c => ws.1 ++ (headerText name.name ++ (ws'.1 ++ slotText c))
  | .scalar lead key _ v ws c => lead.text key ++ (v.text ++ (ws.1 ++ slotText c))
  | .array lead key pieces ws c =>
      lead.text key.name ++ 91 :: (piecesText pieces ++ 93 :: (ws.1 ++ slotText c))

/-- Where a comment stands. -/
inductive Place
  | ownLine
  | afterHeader
  | afterScalar (v : Scalar)
  | afterArray
  | atBracket
  | inArray

/-- The comment of a piece. -/
def Piece.comment? : Piece → Option Comment
  | .comment c _ => c
  | _ => none

/-- The string of a piece in single quotes. -/
def Piece.literal? : Piece → Option CStr
  | .literal s _ => some s
  | _ => none

/-- The comments of a line. -/
def Line.comments : Line → List (Place × Comment)
  | .blank _ c => c.toList.map (Prod.mk .ownLine)
  | .header _ _ _ c => c.toList.map (Prod.mk .afterHeader)
  | .scalar _ _ _ v _ c => c.toList.map (Prod.mk (.afterScalar v))
  | .array _ _ pieces ws c =>
      (pieces.filterMap Piece.comment?).map (Prod.mk .inArray) ++
        c.toList.map (Prod.mk (if ws.1 = [] then .atBracket else .afterArray))

/-- The single-quoted strings in the arrays of a line. -/
def Line.literals : Line → List CStr
  | .array _ _ pieces _ _ => pieces.filterMap Piece.literal?
  | _ => []

/-- The second line is the first without the bytes from one `#` on. -/
inductive Line.Strips : Line → Line → Prop
  | blank {ws : Blank} {c c' : Option Comment} : Cut c c' →
      Strips (.blank ws c) (.blank ws c')
  | header {ws ws' : Blank} {name : SectionName} {c c' : Option Comment} : Cut c c' →
      Strips (.header ws name ws' c) (.header ws name ws' c')
  | scalar {lead : Lead} {key : CStr} {hkey : BareKey key} {v : Scalar} {ws : Blank}
      {c c' : Option Comment} : Cut c c' →
      Strips (.scalar lead key hkey v ws c) (.scalar lead key hkey v ws c')
  | array {lead : Lead} {key : ListKey} {pieces : List Piece} {ws : Blank}
      {c c' : Option Comment} : Cut c c' →
      Strips (.array lead key pieces ws c) (.array lead key pieces ws c')
  | inArray {lead : Lead} {key : ListKey} {p q : List Piece} {ws : Blank} {e : LineBreak}
      {c c' t : Option Comment} : Cut c c' →
      Strips (.array lead key (p ++ .comment c e :: q) ws t)
        (.array lead key (p ++ .comment c' e :: q) ws t)

/-! ### Documents -/

/-- A policy text as lines. The last one may lack its end. -/
structure Document where
  lines : List (Line × LineBreak)
  last : Option Line

/-- Some lines as they are written. -/
def linesText (lines : List (Line × LineBreak)) : Bytes := lines.flatMap fun l => l.1.text ++ l.2.1

/-- A document as it is written. -/
def Document.text (d : Document) : Bytes := linesText d.lines ++ (d.last.map Line.text).getD []

/-- All lines of a document. -/
def Document.allLines (d : Document) : List Line := d.lines.map Prod.fst ++ d.last.toList

/-- The comments of a document are all of the kind `S` at their places. -/
def Document.Allows (S : Place → Comment → Prop) (d : Document) : Prop :=
  ∀ l ∈ d.allLines, ∀ pc ∈ l.comments, S pc.1 pc.2

/-- The second document is the first without the bytes from one `#` up to the end of its
line. -/
inductive Document.Strips : Document → Document → Prop
  | line {p q : List (Line × LineBreak)} {l l' : Line} {e : LineBreak} {last : Option Line} :
      l.Strips l' → Strips ⟨p ++ (l, e) :: q, last⟩ ⟨p ++ (l', e) :: q, last⟩
  | last {p : List (Line × LineBreak)} {l l' : Line} :
      l.Strips l' → Strips ⟨p, some l⟩ ⟨p, some l'⟩

/-! ### What is removed -/

theorem Cut.text {c c' : Option Comment} (h : Cut c c') :
    ∃ t, 10 ∉ t ∧ slotText c = slotText c' ++ 35 :: t := by
  cases h with
  | whole c => exact ⟨c.bytes, c.oneLine, rfl⟩
  | @inner c c' t heq =>
      refine ⟨t, fun hmem => c.oneLine ?_, by simp [slotText, heq]⟩
      rw [heq]
      exact List.mem_append_right _ (List.mem_cons_of_mem _ hmem)

/-- On its line the comment is last, or the line end of an array follows it. -/
theorem Line.Strips.text {l l' : Line} (h : l.Strips l') :
    ∃ a t b, 10 ∉ t ∧ l.text = a ++ (35 :: t ++ b) ∧ l'.text = a ++ b ∧
      (b = [] ∨ ∃ e b', Eol e ∧ b = e ++ b') := by
  cases h with
  | blank hcut | header hcut | scalar hcut | array hcut =>
      obtain ⟨t, ht, htext⟩ := hcut.text
      refine ⟨_, t, [], ht, ?_, (List.append_nil _).symm, Or.inl rfl⟩
      simp [Line.text, htext]
  | @inArray lead key p q ws e c c' c₂ hcut =>
      obtain ⟨t, ht, htext⟩ := hcut.text
      refine ⟨lead.text key.name ++ 91 :: (piecesText p ++ slotText c'), t,
        e.1 ++ (piecesText q ++ 93 :: (ws.1 ++ slotText c₂)), ht, ?_, ?_,
        Or.inr ⟨e.1, _, e.2, rfl⟩⟩
      · simp [Line.text, piecesText, Piece.text, htext]
      · simp [Line.text, piecesText, Piece.text]

/-- Stripping removes a `#` and the bytes after it up to the end of the line, and nothing
else. -/
theorem Document.Strips.text {d d' : Document} (h : d.Strips d') :
    ∃ a t b, 10 ∉ t ∧ d.text = a ++ (35 :: t ++ b) ∧ d'.text = a ++ b ∧
      (b = [] ∨ ∃ e b', Eol e ∧ b = e ++ b') := by
  cases h with
  | @line p q l l' e last hline =>
      obtain ⟨a, t, b, ht, hl, hl', hb⟩ := hline.text
      refine ⟨linesText p ++ a, t,
        b ++ (e.1 ++ (linesText q ++ (last.map Line.text).getD [])), ht, ?_, ?_, ?_⟩
      · simp [Document.text, linesText, hl]
      · simp [Document.text, linesText, hl']
      · right
        rcases hb with rfl | ⟨e', b', he', rfl⟩
        · exact ⟨e.1, _, e.2, rfl⟩
        · exact ⟨e', _, he', List.append_assoc ..⟩
  | @last p l l' hline =>
      obtain ⟨a, t, b, ht, hl, hl', hb⟩ := hline.text
      refine ⟨linesText p ++ a, t, b, ht, ?_, ?_, hb⟩
      · simp [Document.text, hl]
      · simp [Document.text, hl']

end Shakti
