import Mismatch.Candidate
import Mismatch.ErrorCode
import Mismatch.Text.Html

/-!
# Annotations

What is shown to a user at some place of a program: a severity, a code, a header, a description and
fixes to choose from.
-/

namespace Mismatch

inductive Severity where
  | info | warn | error | unknownSymbol
deriving DecidableEq

def Severity.name : Severity → Text
  | .info => "info"
  | .warn => "warning"
  | .error => "error"
  | .unknownSymbol => "unknown symbol"

structure Annotation where
  severity : Severity
  code : Option ErrorCode
  header : Text
  description : Text
  fixes : List Candidate

namespace Annotation

/-- The header with the code behind it. -/
def simpleHeader (a : Annotation) : Text :=
  match a.code with
  | none => a.header
  | some c => Text.join [a.header, " [", c.name, "]"]

/-- The link to the documentation of a code, in brackets. The byte 0x27 is the apostrophe around
the address. -/
def htmlLink (c : ErrorCode) : Text :=
  Text.join [" [<a href=", [0x27], c.url, [0x27], ">", c.name, "</a>]"]

/-- Header and description as HTML, with a link to the documentation of the code. -/
def html (a : Annotation) : Text :=
  let link := match a.code with
    | none => []
    | some c => htmlLink c
  Text.join ["<html>", Text.Html.escape a.header, link, "<br>", Text.Html.escape a.description,
    "</html>"]

end Annotation
end Mismatch
