import Mismatch.Annotation
import Mismatch.Format
import Mismatch.Text.Json

/-!
# Printing annotations

Annotations are printed for readers, with colours where the terminal has them, or as JSON objects,
one on a line, for other programs. The replacements of the fixes are only printed where the text of
the expression is known.
-/

namespace Mismatch

namespace Color

/-- The control sequence with the given parameters that selects a style. -/
def style (parameters : Text) : Text := Text.join [[27], "[", parameters, "m"]

def reset : Text := style "0"
def bold : Text := style "1"
def brightRed : Text := style "91"
def brightGreen : Text := style "92"
def brightYellow : Text := style "93"
def brightBlue : Text := style "94"
def brightCyan : Text := style "96"

end Color

def Severity.color : Severity → Text
  | .info => Color.brightCyan
  | .warn => Color.brightYellow
  | .error => Color.brightRed
  | .unknownSymbol => Color.brightRed

namespace Annotation

/-- The line of the fix with the given number. -/
def fixLine (paint : Text → Text) (exprText : Text) (n : Nat) (c : Candidate) : Text :=
  let replacement := match c.edit? exprText with
    | none => []
    | some edit =>
      if exprText.isEmpty then []
      else Text.join [": ", paint Color.brightGreen, edit, paint Color.reset]
  Text.join [paint Color.brightGreen, "  = fix[", Text.ofNat n, "]", paint Color.reset, ": ",
    c.describe, replacement]

/-- The lines that show an annotation to a reader. -/
def textLines (a : Annotation) (colors : Bool) (exprText : Text) : List Text :=
  let paint (style : Text) : Text := if colors then style else []
  let code := match a.code with
    | none => []
    | some c => Text.join ["[", c.name, "]"]
  let first := Text.join [paint Color.bold, paint a.severity.color, a.severity.name, code,
    paint Color.reset, paint Color.bold, ": ", a.header, paint Color.reset]
  let place :=
    if exprText.isEmpty then []
    else [Text.join [paint Color.brightBlue, "  --> ", paint Color.reset, exprText]]
  let note :=
    if a.description.isEmpty then []
    else [Text.join [paint Color.brightCyan, "  = note", paint Color.reset, ": ", a.description]]
  let fixes := a.fixes.zipIdx.map fun (c, i) => fixLine paint exprText (i + 1) c
  let help := match a.code with
    | none => []
    | some c =>
      [Text.join [paint Color.brightGreen, "  = help", paint Color.reset,
        ": for more information, run `tyfix explain ", c.name, "`"]]
  first :: place ++ note ++ fixes ++ help

/-- A fix as a JSON object. -/
def fixJson (exprText : Text) (c : Candidate) : Text :=
  let trait := match c.via? with
    | none => []
    | some via => [Text.Json.stringMember "trait" via.name]
  let replacement := match c.edit? exprText with
    | none => []
    | some edit =>
      if exprText.isEmpty then [] else [Text.Json.stringMember "replacement" edit]
  Text.Json.object <|
    Text.Json.stringMember "kind" c.kindName :: trait ++
      Text.Json.stringMember "description" c.describe :: replacement

/-- An annotation as a JSON object. -/
def json (a : Annotation) (exprText : Text) : Text :=
  let code := match a.code with
    | none => [Text.Json.member "code" "null"]
    | some c => [Text.Json.stringMember "code" c.name, Text.Json.stringMember "url" c.url]
  Text.Json.object <|
    Text.Json.stringMember "severity" a.severity.name :: code ++
      [Text.Json.stringMember "header" a.header,
        Text.Json.stringMember "description" a.description,
        Text.Json.member "fixes" (Text.Json.array (a.fixes.map (fixJson exprText)))]

/-- What is printed for an annotation of an expression with the given text. -/
def print (a : Annotation) (format : Format) (colors : Bool) (exprText : Text) : Text :=
  match format with
  | .text => Text.lines (a.textLines colors exprText)
  | .json => Text.lines [a.json exprText]

end Annotation
end Mismatch
