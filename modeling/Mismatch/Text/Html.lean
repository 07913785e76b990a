import Mismatch.Text.Basic

/-!
# Text inside HTML

`escape` makes a text safe inside an element and inside an attribute value: the five special
characters are written as entities and every other byte is kept.
-/

namespace Mismatch.Text.Html

/-- The special characters with their entities. The one with the code 0x27 is the apostrophe. -/
def entities : List (UInt8 × Text) :=
  [(byte '&', "&amp;"), (byte '<', "&lt;"), (byte '>', "&gt;"), (byte '"', "&quot;"),
    (0x27, "&#39;")]

def escapeByte (b : UInt8) : Text := (entities.lookup b).getD [b]

def escape (t : Text) : Text := t.flatMap escapeByte

end Mismatch.Text.Html
